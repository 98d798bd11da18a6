import RegisterMachine.Proofs.Heap.Reading
import RegisterMachine.Proofs.Heap.Scopes

namespace RegisterMachine.Heap

theorem Touched.refl {object : Object} (present : h.object? r = some object) : Touched h h r object :=
  ⟨present,fun _ _ => rfl,fun _ => Iff.rfl,.refl h⟩

theorem Touched.edited {old object : Object} (touched : Touched h h' r object) (safe : h.Safe) (steps : Steps h h')
    (before : h.object? r = some old) (kind : ∀ v, old.Fits v → object.Fits v)
    (refs : ∀ v, object.Refers v → h.Sound v) : Edited h h' where
  safe := touched.safe safe (steps.intact safe.toIntact) before kind refs
  sound := fun _ => touched.sound before kind
  steady := ⟨touched.roots.roots,touched.roots.freeRoots,touched.roots.callbacks,touched.roots.shadow,touched.roots.scopes,
    fun q => (touched.immortal q).mpr⟩

theorem Opened.touch {object : Object} (opened : Opened h₀ h) (touched : Touched h h' r object) (fresh : ¬ h₀.Survives r)
    (edited : Edited h h') : Opened h₀ h' where
  safe := edited.safe
  extension := touched.extends opened.extension fresh
  nested := ⟨touched.roots.scopes.trans opened.nested.scopes,touched.roots.shadow ▸ opened.nested.shadow⟩

theorem recharge_edited {h : Heap} (r : Handle) (safe : h.Safe) : Edited h (h.recharge r) where
  safe := by
    have same := recharge_roots h r
    refine ⟨(recharge_steps h r).intact safe.toIntact,fun v root => ?_,fun q object v present refers => ?_,?_⟩
    · exact (safe.rooted v (same.isRoot.mp root)).move (recharge_object h r)
    · rw [recharge_object] at present
      exact (safe.closed q object v present refers).move (recharge_object h r)
    · rw [same.scopes,same.shadow]
      exact safe.opened
  sound := fun _ sound => sound.move (recharge_object h r)
  steady :=
    have same := recharge_roots h r
    ⟨same.roots,same.freeRoots,same.callbacks,same.shadow,same.scopes,fun q => (recharge_immortal h r q).mpr⟩

theorem registers_edited {h : Heap} {registers : Array Register} (safe : h.Safe)
    (sound : ∀ register ∈ registers, h.Sound register.value ∧ h.Sound register.name) : Edited h { h with registers } where
  safe := by
    refine safe.reroot (registers_apart h registers) ?_ safe.opened
    intro v root
    cases root with
    | shadow member => exact safe.rooted v (.shadow member)
    | persistent member => exact safe.rooted v (.persistent member)
    | register member => exact (sound _ member).1
    | name member => exact (sound _ member).2
    | callback member marked => exact safe.rooted v (.callback member marked)
  sound := fun _ sound => sound.move fun _ => rfl
  steady := ⟨rfl,rfl,rfl,rfl,rfl,fun _ immortal => immortal⟩

theorem modifyRegister_edited {h : Heap} {change : Register → Register} (i : Nat) (safe : h.Safe)
    (sound : ∀ old ∈ h.registers, h.Sound (change old).value ∧ h.Sound (change old).name) :
    Edited h { h with registers := h.registers.modify i change } := by
  refine registers_edited safe ?_
  intro register member
  rcases mem_modify member with before | ⟨old,present,rfl⟩
  · exact ⟨safe.rooted _ (.register before),safe.rooted _ (.name before)⟩
  · exact sound old present

theorem setRegisterValue_edited {h : Heap} (i : Nat) (safe : h.Safe) (sound : h.Sound v) :
    Edited h (h.setRegisterValue i v) :=
  modifyRegister_edited i safe fun old present => ⟨sound,safe.rooted old.name (.name present)⟩

theorem setRegisterName_edited {h : Heap} (i : Nat) (safe : h.Safe) (sound : h.Sound v) :
    Edited h (h.setRegisterName i v) :=
  modifyRegister_edited i safe fun old present => ⟨safe.rooted old.value (.register present),sound⟩

theorem assignRegister_edited {h : Heap} (i : Nat) (safe : h.Safe) (named : h.Sound name) (sound : h.Sound v) :
    Edited h (h.assignRegister i name v) :=
  modifyRegister_edited i safe fun _ _ => ⟨sound,named⟩

theorem unassign_edited {h : Heap} (i : Nat) (safe : h.Safe) : Edited h (h.unassign i) :=
  setRegisterName_edited i safe (sound_plain h rfl)

theorem writableList_cases {h : Heap} (sound : h.Sound v) :
    (∃ r list, v = .list r ∧ h.object? r = some (.list list) ∧ list.frozen = false ∧ h.writableList v = .ok r) ∨
      ∃ e, h.writableList v = .error e ∧ e ≠ .staleReference := by
  cases v with
  | list r =>
      obtain ⟨list,present⟩ := sound.list
      cases frozen : list.frozen with
      | true => exact Or.inr ⟨.frozenMutation "list",by simp [writableList,listHandle,isLive,list?,present,frozen],Error.noConfusion⟩
      | false => exact Or.inl ⟨r,list,rfl,present,frozen,by simp [writableList,listHandle,isLive,list?,present,frozen]⟩
  | null | int | double | short | str | map | funcRef => exact Or.inr ⟨_,rfl,Error.noConfusion⟩

theorem items?_list {h : Heap} {list : ListObject} (present : h.object? r = some (.list list)) :
    h.items? (.list r) = some list.items := by
  simp [items?,list?,present]

theorem modifyList_edited {h : Heap} {list : ListObject} (change : ListObject → ListObject) (safe : h.Safe)
    (present : h.object? r = some (.list list)) (items : ∀ item ∈ (change list).items, h.Sound item) :
    Edited h (h.modifyList r change) := by
  refine (modifyList_touched change present).edited safe (modifyList_steps h r change) present ?_ ?_
  · intro v fits
    cases fits
    exact .list
  · intro v refers
    cases refers with
    | item member => exact items v member

theorem updateList_result {h : Heap} {list : ListObject} (change : ListObject → ListObject)
    (present : h.object? r = some (.list list)) (open_ : list.frozen = false) :
    ∃ h', updateList (.list r) change h = .ok () h' ∧ Touched h h' r (.list (change list)) ∧ Steps h h' := by
  have accepted : h.writableList (.list r) = .ok r := by simp [writableList,listHandle,isLive,list?,present,open_]
  have touched := modifyList_touched change present
  have steps := modifyList_steps h r change
  simp only [updateList,accepted]
  split
  · exact ⟨_,rfl,touched,steps⟩
  · exact ⟨_,rfl,touched.recharge r,steps.trans (recharge_steps _ r)⟩

theorem updateList_meets {h : Heap} {change : ListObject → ListObject} (safe : h.Safe) (sound : h.Sound v)
    (items : ∀ r list, h.object? r = some (.list list) → ∀ item ∈ (change list).items, h.Sound item) :
    Meets (updateList v change) h (Edited h) fun _ _ => True := by
  rcases writableList_cases sound with ⟨r,list,rfl,present,open_,_⟩ | ⟨e,refused,other⟩
  · obtain ⟨h',result,touched,steps⟩ := updateList_result change present open_
    rw [Meets,result]
    refine ⟨touched.edited safe steps present ?_ ?_,trivial⟩
    · intro v fits
      cases fits
      exact .list
    · intro v refers
      cases refers with
      | item member => exact items r list present v member
  · simp only [Meets,updateList,refused]
    exact ⟨other,.refl safe⟩

theorem Safe.item {h : Heap} {list : ListObject} (safe : h.Safe) (present : h.object? r = some (.list list))
    {item : Value} (member : item ∈ list.items) : h.Sound item :=
  safe.closed r _ item present (.item member)

theorem listPush_meets {h : Heap} (safe : h.Safe) (sound : h.Sound v) (added : h.Sound item) :
    Meets (listPush v item) h (Edited h) fun _ _ => True := by
  refine updateList_meets safe sound ?_
  intro r list present other member
  rcases Array.mem_push.mp member with before | rfl
  · exact safe.item present before
  · exact added

theorem listSet_meets {h : Heap} (index : Int32) (safe : h.Safe) (sound : h.Sound v) (added : h.Sound item) :
    Meets (listSet v index item) h (Edited h) fun _ _ => True := by
  rcases writableList_cases sound with ⟨r,list,rfl,present,_,accepted⟩ | ⟨e,refused,other⟩
  · simp only [Meets,listSet,accepted]
    cases resolve? index (h.listCount (.list r)) with
    | none => exact ⟨Error.noConfusion,.refl safe⟩
    | some i =>
        refine ⟨modifyList_edited _ safe present ?_,trivial⟩
        intro other member
        rcases Array.mem_or_eq_of_mem_setIfInBounds member with before | rfl
        · exact safe.item present before
        · exact added
  · simp only [Meets,listSet,refused]
    exact ⟨other,.refl safe⟩

theorem mem_of_mem_pop {α : Type} {items : Array α} {item : α} (member : item ∈ items.pop) : item ∈ items := by
  rw [← Array.mem_toList_iff,Array.toList_pop] at member
  exact Array.mem_toList_iff.mp (List.dropLast_subset _ member)

theorem mem_of_mem_removeAt {list : ListObject} {item : Value} (member : item ∈ (list.removeAt i).items) :
    item ∈ list.items := by
  simp only [ListObject.removeAt,Array.eraseIdxIfInBounds] at member
  split at member
  · exact Array.mem_of_mem_eraseIdx member
  · exact member

theorem listPop_meets {h : Heap} (safe : h.Safe) (sound : h.Sound v) :
    Meets (listPop v) h (Edited h) fun last s => s.Sound last := by
  rcases writableList_cases sound with ⟨r,list,rfl,present,_,accepted⟩ | ⟨e,refused,other⟩
  · have edited : Edited h (h.modifyList r fun l => { l with items := l.items.pop }) :=
      modifyList_edited _ safe present fun item member => safe.item present (mem_of_mem_pop member)
    simp only [Meets,listPop,accepted,items?_list present,Option.bind_some]
    refine ⟨edited,?_⟩
    cases found : list.items.back? with
    | none => exact sound_plain _ rfl
    | some last => exact edited.sound _ (safe.item present (Array.mem_of_back? found))
  · simp only [Meets,listPop,refused]
    exact ⟨other,.refl safe⟩

theorem listPull_meets {h : Heap} (safe : h.Safe) (sound : h.Sound v) :
    Meets (listPull v) h (Edited h) fun first s => s.Sound first := by
  rcases writableList_cases sound with ⟨r,list,rfl,present,_,accepted⟩ | ⟨e,refused,other⟩
  · have edited : Edited h (h.modifyList r (·.removeAt 0)) :=
      modifyList_edited _ safe present fun item member => safe.item present (mem_of_mem_removeAt member)
    simp only [Meets,listPull,accepted,items?_list present,Option.bind_some]
    refine ⟨edited,?_⟩
    cases found : list.items[0]? with
    | none => exact sound_plain _ rfl
    | some first => exact edited.sound _ (safe.item present (Array.mem_of_getElem? found))
  · simp only [Meets,listPull,refused]
    exact ⟨other,.refl safe⟩

theorem listRemove_meets {h : Heap} (index : Int32) (safe : h.Safe) (sound : h.Sound v) :
    Meets (listRemove v index) h (Edited h) fun _ _ => True := by
  rcases writableList_cases sound with ⟨r,list,rfl,present,_,accepted⟩ | ⟨e,refused,other⟩
  · simp only [Meets,listRemove,accepted]
    cases resolve? index (h.listCount (.list r)) with
    | none => exact ⟨.refl safe,trivial⟩
    | some i =>
        exact ⟨modifyList_edited _ safe present fun item member => safe.item present (mem_of_mem_removeAt member),trivial⟩
  · simp only [Meets,listRemove,refused]
    exact ⟨other,.refl safe⟩

theorem listInsert_meets {h : Heap} (index : Int32) (safe : h.Safe) (sound : h.Sound v) (added : h.Sound item) :
    Meets (listInsert v index item) h (Edited h) fun _ _ => True := by
  simp only [Meets,listInsert]
  generalize (if index.toInt < 0 then index.toInt + h.listCount v + 1 else index.toInt) = i
  by_cases outside : i < 0 ∨ i > h.listCount v
  · simp only [if_pos outside]
    cases v with
    | list r =>
        simp only [listHandle,sound.live rfl,if_true]
        exact ⟨Error.noConfusion,.refl safe⟩
    | null | int | double | short | str | map | funcRef => exact ⟨Error.noConfusion,.refl safe⟩
  · simp only [if_neg outside]
    change Meets (updateList v (·.insertAt i.toNat item)) h (Edited h) fun _ _ => True
    refine updateList_meets safe sound ?_
    intro r list present other member
    simp only [ListObject.insertAt,Array.insertIdxIfInBounds] at member
    split at member
    · rcases Array.mem_insertIdx.mp member with rfl | before
      · exact added
      · exact safe.item present before
    · exact safe.item present member

-- While keys are read the list is empty; then its own items come back in another order.
theorem listSort_meets {h : Heap} (byKey : Value) (safe : h.Safe) (sound : h.Sound v) :
    Meets (listSort v byKey) h (Edited h) fun _ _ => True := by
  rcases writableList_cases sound with ⟨r,list,rfl,present,_,accepted⟩ | ⟨e,refused,other⟩
  · simp only [Meets,listSort,accepted,items?_list present,Option.getD_some]
    cases byKey.isNull with
    | true =>
        refine ⟨modifyList_edited _ safe present fun item member => ?_,trivial⟩
        exact safe.item present (by simpa using member)
    | false =>
        have emptied := modifyList_touched (fun l => { l with items := #[] }) present
        have edited : Edited h (h.modifyList r fun l => { l with items := #[] }) :=
          modifyList_edited _ safe present fun item member => absurd member (by simp)
        refine ⟨edited.trans (modifyList_edited _ edited.safe emptied.here fun item member => ?_),trivial⟩
        refine edited.sound _ (safe.item present ?_)
        simp only [List.mem_toArray,List.mem_map,List.mem_mergeSort] at member
        obtain ⟨keyed,⟨other,listed,rfl⟩,rfl⟩ := member
        exact Array.mem_toList_iff.mp listed
  · simp only [Meets,listSort,refused]
    exact ⟨other,.refl safe⟩

theorem mapHandle_cases {h : Heap} (sound : h.Sound v) :
    (∃ r table, v = .map r ∧ h.object? r = some (.map table) ∧ h.mapHandle v = .ok r) ∨
      ∃ e, h.mapHandle v = .error e ∧ e ≠ .staleReference := by
  cases v with
  | map r =>
      obtain ⟨table,present⟩ := sound.map
      exact Or.inl ⟨r,table,rfl,present,by simp [mapHandle,isLive,present]⟩
  | null | int | double | short | str | list | funcRef => exact Or.inr ⟨_,rfl,Error.noConfusion⟩

theorem writableMap_cases {h : Heap} (sound : h.Sound v) :
    (∃ r table, v = .map r ∧ h.object? r = some (.map table) ∧ table.frozen = false ∧ h.writableMap v = .ok r) ∨
      ∃ e, h.writableMap v = .error e ∧ e ≠ .staleReference := by
  rcases mapHandle_cases sound with ⟨r,table,rfl,present,accepted⟩ | ⟨e,refused,other⟩
  · cases frozen : table.frozen with
    | true => exact Or.inr ⟨.frozenMutation "map",by simp [writableMap,accepted,table?,present,frozen],Error.noConfusion⟩
    | false => exact Or.inl ⟨r,table,rfl,present,frozen,by simp [writableMap,accepted,table?,present,frozen]⟩
  · exact Or.inr ⟨e,by simp only [writableMap,refused],other⟩

theorem refers_map {table : Table} (P : Value → Prop) (refers : (Object.map table).Refers v)
    (entries : ∀ entry ∈ Table.contents table.cells, P entry.key ∧ P entry.value)
    (aliased : ∀ aliases key register, table.aliases = some aliases → (key,register) ∈ aliases.bindings → P key) :
    P v := by
  cases refers with
  | key present => exact (entries _ (Table.mem_entries.mpr present)).1
  | value present => exact (entries _ (Table.mem_entries.mpr present)).2
  | aliased bound member => exact aliased _ _ _ bound member

theorem refers_entry {table : Table} (member : entry ∈ Table.contents table.cells) :
    (Object.map table).Refers entry.key ∧ (Object.map table).Refers entry.value :=
  ⟨.key (Table.mem_entries.mp member),.value (Table.mem_entries.mp member)⟩

theorem Safe.entry {h : Heap} {table : Table} {entry : Entry} (safe : h.Safe) (present : h.object? r = some (.map table))
    (member : entry ∈ Table.contents table.cells) : h.Sound entry.key ∧ h.Sound entry.value :=
  ⟨safe.closed r _ _ present (refers_entry member).1,safe.closed r _ _ present (refers_entry member).2⟩

theorem stored_parts {h : Heap} {table : Table} (key value : Value) (valid : table.Valid) :
    (h.stored table key value).frozen = table.frozen ∧ (h.stored table key value).aliases = table.aliases := by
  unfold stored
  split
  · exact ⟨rfl,rfl⟩
  · exact (Table.insertNew_parts _ valid).2.2

theorem stored_entry {h : Heap} {table : Table} {entry : Entry} (valid : table.Valid)
    (member : entry ∈ Table.contents (h.stored table key value).cells) :
    (entry.key = key ∨ ∃ old ∈ Table.contents table.cells, old.key = entry.key) ∧
      (entry.value = value ∨ ∃ old ∈ Table.contents table.cells, old.value = entry.value) := by
  unfold stored at member
  cases found : table.find? (h.hash key) fun k => h.sameKey k key with
  | some i =>
      rw [found] at member
      obtain ⟨old,present,_⟩ := Table.search_found found
      obtain ⟨rest,before,after⟩ := Table.setValue_contents value present
      rcases List.mem_cons.mp (after.mem_iff.mp member) with rfl | kept
      · exact ⟨Or.inr ⟨old,before.mem_iff.mpr List.mem_cons_self,rfl⟩,Or.inl rfl⟩
      · have listed := before.mem_iff.mpr (List.mem_cons_of_mem _ kept)
        exact ⟨Or.inr ⟨entry,listed,rfl⟩,Or.inr ⟨entry,listed,rfl⟩⟩
  | none =>
      rw [found] at member
      rcases List.mem_cons.mp ((Table.insertNew_contents _ valid).mem_iff.mp member) with rfl | kept
      · exact ⟨Or.inl rfl,Or.inl rfl⟩
      · exact ⟨Or.inr ⟨entry,kept,rfl⟩,Or.inr ⟨entry,kept,rfl⟩⟩

theorem stored_refers {h : Heap} {table : Table} (valid : table.Valid)
    (refers : (Object.map (h.stored table key value)).Refers v) : v = key ∨ v = value ∨ (Object.map table).Refers v := by
  refine refers_map (fun w => w = key ∨ w = value ∨ (Object.map table).Refers w) refers (fun entry member => ?_)
    fun _ _ _ bound member => Or.inr (Or.inr (.aliased ((stored_parts key value valid).2 ▸ bound) member))
  obtain ⟨keyed,valued⟩ := stored_entry valid member
  constructor
  · rcases keyed with same | ⟨old,listed,same⟩
    · exact Or.inl same
    · exact Or.inr (Or.inr (same ▸ (refers_entry listed).1))
  · rcases valued with same | ⟨old,listed,same⟩
    · exact Or.inr (Or.inl same)
    · exact Or.inr (Or.inr (same ▸ (refers_entry listed).2))

theorem modifyTable_edited {h : Heap} {table : Table} (change : Table → Table) (safe : h.Safe)
    (present : h.object? r = some (.map table)) (valid : table.Valid → (change table).Valid)
    (refs : ∀ v, (Object.map (change table)).Refers v → h.Sound v) : Edited h (h.modifyTable r change) := by
  refine (modifyTable_touched change present).edited safe (modifyTable_steps ?_) present ?_ refs
  · intro slot other occupied content
    obtain ⟨_,same,_,held⟩ := object?_slot.mp present
    rw [occupied] at same
    cases same
    rw [content] at held
    cases held
    exact valid
  · intro v fits
    cases fits
    exact .map

theorem store_edited {h : Heap} {table : Table} (safe : h.Safe) (present : h.object? r = some (.map table))
    (keyed : h.Sound key) (sound : h.Sound value) : Edited h (h.store r key value) := by
  refine (store_touched key value present).edited safe (store_steps h r key value) present ?_ ?_
  · intro v fits
    cases fits
    exact .map
  · intro v refers
    rcases stored_refers (safe.toIntact.table present) refers with rfl | rfl | before
    · exact keyed
    · exact sound
    · exact safe.closed r _ v present before

theorem storeAll_edited {h : Heap} {table : Table} (entries : List (Value × Value)) (safe : h.Safe)
    (present : h.object? r = some (.map table)) (sound : ∀ key value, (key,value) ∈ entries → h.Sound key ∧ h.Sound value) :
    ∃ table', Touched h (h.storeAll r entries) r (.map table') ∧ Edited h (h.storeAll r entries) := by
  induction entries generalizing h table with
  | nil => exact ⟨table,.refl present,.refl safe⟩
  | cons entry rest ih =>
      obtain ⟨keyed,valued⟩ := sound entry.1 entry.2 List.mem_cons_self
      have touched := store_touched entry.1 entry.2 present
      have edited := store_edited safe present keyed valued
      obtain ⟨table',later,followed⟩ := ih edited.safe touched.here fun key value member =>
        have known := sound key value (List.mem_cons_of_mem _ member)
        ⟨edited.sound _ known.1,edited.sound _ known.2⟩
      exact ⟨table',touched.trans later,edited.trans followed⟩

theorem mapSet_meets {h : Heap} (safe : h.Safe) (sound : h.Sound v) (keyed : h.Sound key) (valued : h.Sound value) :
    Meets (mapSet v key value) h (Edited h) fun _ _ => True := by
  rcases writableMap_cases sound with ⟨r,table,rfl,present,_,accepted⟩ | ⟨e,refused,other⟩
  · simp only [Meets,mapSet,accepted]
    cases h.aliasOf? (.map r) key with
    | some register => exact ⟨assignRegister_edited register safe keyed valued,trivial⟩
    | none => exact ⟨store_edited safe present keyed valued,trivial⟩
  · simp only [Meets,mapSet,refused]
    exact ⟨other,.refl safe⟩

theorem mapSet_plain {h : Heap} {table : Table} (present : h.object? r = some (.map table)) (open_ : table.frozen = false)
    (plain : table.aliases = none) : mapSet (.map r) key value h = .ok () (h.store r key value) := by
  simp [mapSet,writableMap,mapHandle,isLive,aliasOf?,table?,present,open_,plain]

theorem mapRemove_meets {h : Heap} (key : Value) (safe : h.Safe) (sound : h.Sound v) :
    Meets (mapRemove v key) h (Edited h) fun _ _ => True := by
  rcases writableMap_cases sound with ⟨r,table,rfl,present,_,accepted⟩ | ⟨e,refused,other⟩
  · simp only [Meets,mapRemove,accepted]
    cases h.aliasOf? (.map r) key with
    | some register => exact ⟨unassign_edited register safe,trivial⟩
    | none =>
        cases found : h.findCell? (.map r) (h.hash key) key with
        | none => exact ⟨.refl safe,trivial⟩
        | some i =>
            obtain ⟨entry,held,_⟩ := findCell?_entry present found
            refine ⟨modifyTable_edited _ safe present (fun valid => Table.removeAt_valid valid held) ?_,trivial⟩
            have listed := (Table.removeAt_mends (safe.toIntact.table present) held).2.2.2
            intro v refers
            refine refers_map h.Sound refers ?_ fun _ key _ bound member => safe.closed r _ key present (.aliased bound member)
            intro other member
            exact safe.entry present (listed.mem_iff.mpr (List.mem_cons_of_mem _ member))
  · simp only [Meets,mapRemove,refused]
    exact ⟨other,.refl safe⟩

theorem bindRegister_meets {h : Heap} (register : Nat) (safe : h.Safe) (sound : h.Sound v) (named : h.Sound name) :
    Meets (bindRegister v name register) h (Edited h) fun _ _ => True := by
  rcases mapHandle_cases sound with ⟨r,table,rfl,present,accepted⟩ | ⟨e,refused,other⟩
  · simp only [Meets,bindRegister,accepted]
    cases h.isAliasMap (.map r) && (h.aliasOf? (.map r) name).isNone with
    | false => exact ⟨.refl safe,trivial⟩
    | true =>
        have bound : Edited h (h.modifyTable r fun t => { t with aliases := t.aliases.map (·.push name register) }) := by
          refine modifyTable_edited _ safe present (fun valid => valid.of_same rfl rfl) fun v refers => ?_
          refine refers_map h.Sound refers (fun entry member => safe.entry present member) fun aliases key other extended member => ?_
          obtain ⟨old,before,rfl⟩ := Option.map_eq_some_iff.mp extended
          rcases Array.mem_push.mp member with listed | last
          · exact safe.closed r _ _ present (.aliased before listed)
          · cases last
            exact named
        exact ⟨bound.trans (recharge_edited r bound.safe),trivial⟩
  · simp only [Meets,bindRegister,refused]
    exact ⟨other,.refl safe⟩

-- The gathered entries were the map's own before it let go of the registers.
theorem gather_meets {h : Heap} (safe : h.Safe) (sound : h.Sound v) :
    Meets (gather v) h (Edited h) fun _ _ => True := by
  rcases mapHandle_cases sound with ⟨r,table,rfl,present,accepted⟩ | ⟨e,refused,other⟩
  · simp only [Meets,gather,accepted]
    cases bound : (h.table? (.map r)).bind Table.aliases with
    | none => exact ⟨.refl safe,trivial⟩
    | some aliases =>
        have named : table.aliases = some aliases := by simpa [table?,present] using bound
        have detached : Edited h (h.modifyTable r ({ · with aliases := none })) := by
          refine modifyTable_edited _ safe present (fun valid => valid.of_same rfl rfl) fun v refers => ?_
          refine refers_map h.Sound refers (fun entry member => safe.entry present member) fun _ _ _ none _ => ?_
          cases none
        have own : ∀ key value, (key,value) ∈ h.assignedAliases aliases → h.Sound key ∧ h.Sound value := by
          intro key value member
          refine safe.closed_sound.entries sound ?_
          simp only [mapEntries,table?,present,aliasEntries,named]
          exact List.mem_append_left _ member
        obtain ⟨table',_,edited⟩ := storeAll_edited (h.assignedAliases aliases) detached.safe (modifyTable_touched _ present).here
          fun key value member => ⟨detached.sound _ (own key value member).1,detached.sound _ (own key value member).2⟩
        exact ⟨(detached.trans edited).trans (recharge_edited r edited.safe),trivial⟩
  · simp only [Meets,gather,refused]
    exact ⟨other,.refl safe⟩

theorem freezeObject_refers {object : Object} (refers : (freezeObject object).Refers v) : object.Refers v := by
  cases object with
  | str | funcRef => exact refers
  | list list => cases refers with
    | item member => exact .item member
  | map table => cases refers with
    | key present => exact .key present
    | value present => exact .value present
    | aliased bound member => exact .aliased bound member

theorem freeze_immortal {h : Heap} (v : Value) (immortal : h.Immortal r) : (h.freeze v).Immortal r := by
  obtain ⟨slot,present,generation,set⟩ := immortal
  simp only [Immortal,freeze,Array.getElem?_mapIdx,present,Option.map_some]
  refine ⟨_,rfl,?_,?_⟩
  · split <;> exact generation
  · split <;> exact set

theorem freeze_edited {h : Heap} (v : Value) (safe : h.Safe) : Edited h (h.freeze v) := by
  have fits : ∀ w, h.Sound w → (h.freeze v).Sound w := by
    intro w sound r handle
    obtain ⟨object,present,kind⟩ := sound r handle
    rw [freeze_object,present]
    refine ⟨_,rfl,?_⟩
    split
    · exact (freezeObject_rewritten object).fits kind
    · exact kind
  refine ⟨⟨(freeze_steps h v).intact safe.toIntact,fun w root => ?_,?_,safe.opened⟩,fits,?_⟩
  · exact fits w (safe.rooted w (root.widen (fun _ member => member) (fun _ member => member) (fun _ member => member) rfl))
  · intro r object w present refers
    rw [freeze_object] at present
    obtain ⟨old,before,rfl⟩ := Option.map_eq_some_iff.mp present
    refine fits w (safe.closed r old w before ?_)
    split at refers
    · exact freezeObject_refers refers
    · exact refers
  · exact ⟨rfl,rfl,rfl,rfl,rfl,fun _ => freeze_immortal v⟩

end RegisterMachine.Heap
