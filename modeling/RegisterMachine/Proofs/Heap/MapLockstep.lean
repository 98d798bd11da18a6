import RegisterMachine.Proofs.Heap.Lockstep

namespace RegisterMachine.Heap

variable {f f' f₀ : Handle → Handle} {known known' known₀ : Handle → Prop} {clear : Value → Prop} {h h' k k' s t : Heap}
  {calm ends : Heap → Heap → Prop}

theorem contents_same (object : h'.object? r = h.object? r) (registers : h'.registers = h.registers) : h'.contents r = h.contents r := by
  have assigned : ∀ i, h'.assigned? i = h.assigned? i := fun i => by rw [assigned?,assigned?,registers]
  have aliased : ∀ table, h'.aliasEntries table = h.aliasEntries table := by
    intro table
    simp only [aliasEntries,assignedAliases,assigned]
  simp only [contents,object]
  cases h.object? r with
  | none => rfl
  | some found => cases found <;> simp only [mapEntries,table?,object,aliased]

theorem contents_list {list : ListObject} (present : h.object? r = some (.list list)) : h.contents r = list.items.toList := by
  simp only [contents,present]

theorem contents_map {table : Table} (present : h.object? r = some (.map table)) (member : w ∈ h.contents r) :
    (∃ aliases pair, table.aliases = some aliases ∧ pair ∈ h.assignedAliases aliases ∧ (w = pair.1 ∨ w = pair.2)) ∨
      ∃ entry ∈ table.entries, w = entry.key ∨ w = entry.value := by
  simp only [contents,present] at member
  obtain ⟨pair,listed,inner⟩ := List.mem_flatMap.mp member
  simp only [List.mem_cons,List.not_mem_nil,or_false] at inner
  simp only [mapEntries,table?,present] at listed
  rcases List.mem_append.mp listed with aliased | tabled
  · unfold aliasEntries at aliased
    split at aliased
    · rename_i aliases bound
      exact Or.inl ⟨aliases,pair,bound,aliased,inner⟩
    · cases aliased
  · obtain ⟨entry,here,rfl⟩ := List.mem_map.mp tabled
    exact Or.inr ⟨entry,here,inner⟩

theorem aliases_contents {table : Table} {aliases : Aliases} (present : h.object? r = some (.map table)) (bound : table.aliases = some aliases)
    (assigned : pair ∈ h.assignedAliases aliases) : pair.1 ∈ h.contents r ∧ pair.2 ∈ h.contents r := by
  have listed : pair ∈ h.mapEntries (.map r) := by
    simp only [mapEntries,table?,present,aliasEntries,bound]
    exact List.mem_append_left _ assigned
  simp only [contents,present]
  exact ⟨List.mem_flatMap.mpr ⟨pair,listed,by simp⟩,List.mem_flatMap.mpr ⟨pair,listed,by simp⟩⟩

theorem entry_contents {table : Table} {entry : Entry} (present : h.object? r = some (.map table)) (member : entry ∈ table.entries) :
    entry.key ∈ h.contents r ∧ entry.value ∈ h.contents r := by
  have listed : (entry.key,entry.value) ∈ h.mapEntries (.map r) := by
    simp only [mapEntries,table?,present]
    exact List.mem_append_right _ (List.mem_map.mpr ⟨entry,member,rfl⟩)
  simp only [contents,present]
  exact ⟨List.mem_flatMap.mpr ⟨_,listed,by simp⟩,List.mem_flatMap.mpr ⟨_,listed,by simp⟩⟩

theorem Clear.touched {object : Object} (cleared : Clear known clear h) (touched : Touched h h' r object)
    (inner : (∃ v, clear v ∧ v.handle? = some r) → ∀ w ∈ h'.contents r, clear w)
    (keys : ∀ table, object = .map table → ∀ entry ∈ table.entries, clear entry.key)
    (names : ∀ table aliases, object = .map table → table.aliases = some aliases → ∀ binding ∈ aliases.bindings, clear binding.1) :
    Clear known clear h' where
  plain := cleared.plain
  within := cleared.within
  data := cleared.data
  kinds := cleared.kinds
  contents := by
    intro v q free handle w member
    by_cases same : q = r
    · subst same
      exact inner ⟨v,free,handle⟩ w member
    · rw [contents_same (touched.others q same) touched.roots.registers] at member
      exact cleared.contents v q free handle w member
  keys := by
    intro q table here present
    by_cases same : q = r
    · subst same
      rw [touched.here] at present
      exact keys table (Option.some.inj present)
    · rw [touched.others q same] at present
      exact cleared.keys q table here present
  names := by
    intro q table aliases here present bound
    by_cases same : q = r
    · subst same
      rw [touched.here] at present
      exact names table aliases (Option.some.inj present) bound
    · rw [touched.others q same] at present
      exact cleared.names q table aliases here present bound

theorem Clear.registers (cleared : Clear known clear h) (slots : h'.slots = h.slots) (registers : h'.registers = h.registers) :
    Clear known clear h' where
  plain := cleared.plain
  within := cleared.within
  data := cleared.data
  kinds := cleared.kinds
  contents := by
    intro v r free handle w member
    rw [contents_same (object?_slots slots r) registers] at member
    exact cleared.contents v r free handle w member
  keys := fun r table here present => cleared.keys r table here (by rwa [← object?_slots slots])
  names := fun r table aliases here present => cleared.names r table aliases here (by rwa [← object?_slots slots])

theorem Mirrors.stored {table : Table} (mirrors : Mirrors f known h k) (cleared : Clear known clear h) (here : known r)
    (present : h.object? r = some (.map table)) (keyed : key.Within known) (free : clear key) (value : Value) :
    k.stored (table.rename f) (key.rename f) (value.rename f) = (h.stored table key value).rename f := by
  have inside : Value.Within known (.map r) := fun q handle => by cases handle; exact here
  have found : (table.rename f).find? (k.hash (key.rename f)) (fun w => k.sameKey w (key.rename f)) =
      table.find? (h.hash key) fun w => h.sameKey w key := by
    rw [mirrors.hash cleared keyed free]
    refine Table.find_rename (fun entry member => ?_) _
    exact mirrors.sameKey cleared (mirrors.closed.inside _ r _ _ inside rfl present (.key (Table.mem_entries.mp member))) keyed
  simp only [Heap.stored,found]
  cases table.find? (h.hash key) fun w => h.sameKey w key with
  | some i => exact table.setValue_rename i value
  | none =>
      rw [mirrors.hash cleared keyed free]
      exact table.insertNew_rename { key,value,hash := h.hash key }

theorem Mirrors.store {table : Table} (mirrors : Mirrors f known h k) (cleared : Clear known clear h) (here : known r)
    (present : h.object? r = some (.map table)) (keyed : key.Within known) (free : clear key) (valued : value.Within known) :
    Mirrors f known (h.store r key value) (k.store (f r) (key.rename f) (value.rename f)) := by
  have inside : Value.Within known (.map r) := fun q handle => by cases handle; exact here
  have image : k.object? (f r) = some (.map (table.rename f)) := by
    rw [mirrors.object here,present]
    rfl
  have right := store_wrote (key.rename f) (value.rename f) image
  rw [mirrors.stored cleared here present keyed free value] at right
  refine mirrors.wrote here (store_wrote key value present) right fun v refers => ?_
  rcases stored_refers (mirrors.intact.table present) refers with rfl | rfl | old
  · exact keyed
  · exact valued
  · exact mirrors.closed.inside _ r _ _ inside rfl present old

theorem Clear.store {table : Table} (cleared : Clear known clear h) (intact : h.Intact) (here : known r) (present : h.object? r = some (.map table))
    (free : clear key) (valued : (∃ v, clear v ∧ v.handle? = some r) → clear value) : Clear known clear (h.store r key value) := by
  have touched := store_touched key value present
  have parts := stored_parts (h := h) key value (intact.table present)
  refine cleared.touched touched (fun some_ w member => ?_) (fun _ same entry member => ?_) fun _ aliases same bound => ?_
  · obtain ⟨v,freed,handle⟩ := some_
    have old := cleared.contents v r freed handle
    rcases contents_map touched.here member with ⟨aliases,pair,bound,assigned,which⟩ | ⟨entry,listed,which⟩
    · have still : pair ∈ h.assignedAliases aliases := by
        simpa only [assignedAliases,assigned?,touched.roots.registers] using assigned
      obtain ⟨left,right⟩ := aliases_contents present (parts.2 ▸ bound) still
      rcases which with rfl | rfl
      · exact old _ left
      · exact old _ right
    · obtain ⟨keyed,bound⟩ := stored_entry (intact.table present) listed
      rcases which with rfl | rfl
      · rcases keyed with same | ⟨before,kept,same⟩
        · rw [same]
          exact free
        · rw [← same]
          exact old _ (entry_contents present kept).1
      · rcases bound with same | ⟨before,kept,same⟩
        · rw [same]
          exact valued ⟨v,freed,handle⟩
        · rw [← same]
          exact old _ (entry_contents present kept).2
  · cases same
    rcases (stored_entry (intact.table present) member).1 with same | ⟨before,kept,same⟩
    · rw [same]
      exact free
    · rw [← same]
      exact cleared.keys r table here present before kept
  · cases same
    exact cleared.names r table aliases here present (parts.2 ▸ bound)

theorem Mirrors.storeAll {table : Table} (mirrors : Mirrors f known h k) (entries : List (Value × Value)) (cleared : Clear known clear h)
    (here : known r) (present : h.object? r = some (.map table))
    (each : ∀ entry ∈ entries, entry.1.Within known ∧ clear entry.1 ∧ entry.2.Within known)
    (values : (∃ v, clear v ∧ v.handle? = some r) → ∀ entry ∈ entries, clear entry.2) :
    Mirrors f known (h.storeAll r entries) (k.storeAll (f r) (entries.map (renamePair f))) ∧ Clear known clear (h.storeAll r entries) := by
  induction entries generalizing h k table with
  | nil => exact ⟨mirrors,cleared⟩
  | cons entry rest ih =>
      obtain ⟨key,value⟩ := entry
      obtain ⟨keyed,free,valued⟩ := each _ List.mem_cons_self
      have stored := mirrors.store cleared here present keyed free valued
      have still := cleared.store mirrors.intact here present free fun some_ => values some_ _ List.mem_cons_self
      exact ih stored still (store_touched key value present).here (fun other member => each other (List.mem_cons_of_mem _ member))
        fun some_ other member => values some_ other (List.mem_cons_of_mem _ member)

theorem Mirrors.refers {object : Object} (mirrors : Mirrors f known h k) (here : known r) (present : h.object? r = some object)
    (refers : object.Refers v) : v.Within known := by
  obtain ⟨other,found,_,inner⟩ := mirrors.objects r here
  rw [present] at found
  cases found
  exact inner v refers

theorem Mirrors.entry {table : Table} {entry : Entry} (mirrors : Mirrors f known h k) (here : known r) (present : h.object? r = some (.map table))
    (member : entry ∈ Table.contents table.cells) : entry.key.Within known ∧ entry.value.Within known :=
  ⟨mirrors.refers here present (refers_entry member).1,mirrors.refers here present (refers_entry member).2⟩

theorem Mirrors.modifyTable {table : Table} {change change' : Table → Table} (mirrors : Mirrors f known h k) (here : known r)
    (present : h.object? r = some (.map table)) (valid : table.Valid → (change table).Valid)
    (valid' : (table.rename f).Valid → (change' (table.rename f)).Valid) (agree : change' (table.rename f) = (change table).rename f)
    (refs : ∀ v, (Object.map (change table)).Refers v → v.Within known) : Mirrors f known (h.modifyTable r change) (k.modifyTable (f r) change') := by
  have image : k.object? (f r) = some (.map (table.rename f)) := by
    rw [mirrors.object here,present]
    rfl
  have right := modifyTable_wrote change' image valid'
  rw [agree] at right
  exact mirrors.wrote here (modifyTable_wrote change present valid) right refs

theorem Mirrors.recharge (mirrors : Mirrors f known h k) (r q : Handle) : Mirrors f known (h.recharge r) (k.recharge q) := by
  refine mirrors.alter (recharge_intact r mirrors.intact) (recharge_intact q mirrors.image) (recharge_roots h r) (recharge_roots k q)
    (fun p here => ⟨here,rfl⟩) mirrors.apart (fun p here => ?_) (fun p here => ?_) ?_ ?_ ?_
  · rw [recharge_object,recharge_object]
    exact mirrors.objects p here
  · rw [recharge_immortal,recharge_immortal]
    exact mirrors.immortal p here
  · rw [(recharge_others h r).2.2.2,(recharge_others k q).2.2.2]
    exact mirrors.interned
  · rw [(recharge_others h r).2.2.2]
    exact mirrors.words
  · rw [recharge_config,recharge_config]
    exact mirrors.unlimited

theorem writableMap_tallies {operation operation' : HeapM α} {post : α → α → Heap → Heap → Prop} (mirrors : Mirrors f known h k)
    (within : v.Within known) (refused : ∀ e, h.writableMap v = .error e → operation h = .error e h)
    (refused' : ∀ e, k.writableMap (v.rename f) = .error e → operation' k = .error e k)
    (follows : ∀ r table, v = .map r → known r → h.object? r = some (.map table) → h.writableMap (.map r) = .ok r →
      k.writableMap (.map (f r)) = .ok (f r) → Tallies calm (Still f known) post (operation h) (operation' k)) :
    Tallies calm (Still f known) post (operation h) (operation' k) := by
  have writable := mirrors.writableMap within
  cases accepted : h.writableMap v with
  | error e =>
      rw [accepted] at writable
      rw [refused e accepted,refused' e writable]
      exact .error mirrors.still
  | ok r =>
      rw [accepted] at writable
      obtain ⟨rfl,table,present,_⟩ := writableMap_parts accepted
      exact follows r table rfl (within r rfl) present accepted writable

theorem mapSet_same (mirrors : Mirrors f known h k) (cleared : Clear known clear h) (within : v.Within known) (keyed : key.Within known)
    (free : clear key) (valued : value.Within known) :
    Tallies calm (Still f known) (Same f known) (mapSet v key value h) (mapSet (v.rename f) (key.rename f) (value.rename f) k) := by
  refine writableMap_tallies mirrors within (fun e refused => by simp only [mapSet,refused]) (fun e refused => by simp only [mapSet,refused])
    fun r table same here present accepted accepted' => ?_
  have aliased := mirrors.aliasOf? within keyed
  subst same
  simp only [Value.rename_map] at aliased
  simp only [mapSet,Value.rename_map,accepted,accepted',aliased]
  cases h.aliasOf? (.map r) key with
  | some register =>
      have assigned : Mirrors f known (h.assignRegister register key value) (k.assignRegister register (key.rename f) (value.rename f)) :=
        mirrors.modifyRegister register (fun _ => rfl) fun _ _ => ⟨valued,keyed⟩
      exact .ok ⟨rfl,assigned.still⟩
  | none => exact .ok ⟨rfl,(mirrors.store cleared here present keyed free valued).still⟩

theorem Mirrors.setRegisterName (mirrors : Mirrors f known h k) (register : Nat) (within : name.Within known) :
    Mirrors f known (h.setRegisterName register name) (k.setRegisterName register (name.rename f)) := by
  refine mirrors.modifyRegister register (fun _ => rfl) fun old member => ⟨?_,within⟩
  exact mirrors.rooted old.value (.register member)

theorem Mirrors.unassign (mirrors : Mirrors f known h k) (register : Nat) : Mirrors f known (h.unassign register) (k.unassign register) :=
  mirrors.setRegisterName register (Value.within_plain rfl)

theorem Mirrors.findCell? (mirrors : Mirrors f known h k) (cleared : Clear known clear h) (within : v.Within known) (keyed : key.Within known)
    (hash : UInt32) : k.findCell? (v.rename f) hash (key.rename f) = h.findCell? v hash key := by
  simp only [Heap.findCell?,mirrors.table within]
  cases found : h.table? v with
  | none => rfl
  | some table =>
      obtain ⟨r,rfl,present⟩ := table?_object.mp found
      refine Table.find_rename (fun entry member => ?_) hash
      exact mirrors.sameKey cleared (mirrors.closed.inside _ r _ _ within rfl present (.key (Table.mem_entries.mp member))) keyed

theorem mapRemove_same (mirrors : Mirrors f known h k) (cleared : Clear known clear h) (within : v.Within known) (keyed : key.Within known)
    (free : clear key) : Tallies calm (Still f known) (Same f known) (mapRemove v key h) (mapRemove (v.rename f) (key.rename f) k) := by
  refine writableMap_tallies mirrors within (fun e refused => by simp only [mapRemove,refused])
    (fun e refused => by simp only [mapRemove,refused]) fun r table same here present accepted accepted' => ?_
  have aliased := mirrors.aliasOf? within keyed
  have cell := mirrors.findCell? cleared within keyed (h.hash key)
  subst same
  simp only [Value.rename_map] at aliased cell
  simp only [mapRemove,Value.rename_map,accepted,accepted',aliased,mirrors.hash cleared keyed free,cell]
  cases h.aliasOf? (.map r) key with
  | some register =>
      simp only [mirrors.assigned,Option.isSome_map]
      exact .ok ⟨rfl,(mirrors.unassign register).still⟩
  | none =>
      cases found : h.findCell? (.map r) (h.hash key) key with
      | none => exact .ok (mirrors.same false)
      | some i =>
          obtain ⟨entry,cell,_⟩ := findCell?_entry present found
          have cell' : Table.cellAt (table.rename f).cells i = some (entry.rename f) := by
            simp only [Table.rename,Table.cellAt_rename,cell,Option.map_some]
          refine .ok ⟨rfl,(mirrors.modifyTable here present (fun valid => Table.removeAt_valid valid cell)
            (fun valid => Table.removeAt_valid valid cell') (table.removeAt_rename i) fun w refers => ?_).still⟩
          have listed := (Table.removeAt_mends (mirrors.intact.table present) cell).2.2.2
          refine refers_map (Value.Within known) refers (fun other member => ?_) fun _ _ _ bound member =>
            mirrors.refers here present (.aliased bound member)
          exact mirrors.entry here present (listed.mem_iff.mpr (List.mem_cons_of_mem _ member))

theorem Mirrors.aliasRegisters (mirrors : Mirrors f known h k) (within : v.Within known) :
    k.aliasRegisters (v.rename f) = h.aliasRegisters v := by
  simp only [Heap.aliasRegisters,mirrors.table within]
  cases h.table? v with
  | none => rfl
  | some table =>
      simp only [Option.map_some,Option.bind_some,Table.rename_aliases]
      cases table.aliases with
      | none => rfl
      | some aliases => simp [Aliases.rename]

theorem Mirrors.unassignAll (mirrors : Mirrors f known h k) (registers : List Nat) :
    Mirrors f known (registers.foldl Heap.unassign h) (registers.foldl Heap.unassign k) := by
  induction registers generalizing h k with
  | nil => exact mirrors
  | cons register rest ih => exact ih (mirrors.unassign register)

theorem Mirrors.entryRoom (mirrors : Mirrors f known h k) (within : v.Within known) : k.entryRoom (v.rename f) = h.entryRoom v := by
  simp only [Heap.entryRoom,mirrors.table within,mirrors.mapCount within]
  cases h.table? v <;> rfl

theorem mapClear_same (mirrors : Mirrors f known h k) (within : v.Within known) :
    Tallies calm (Still f known) (Same f known) (mapClear v h) (mapClear (v.rename f) k) := by
  refine writableMap_tallies mirrors within (fun e refused => by simp only [mapClear,refused])
    (fun e refused => by simp only [mapClear,refused]) fun r table same here present accepted accepted' => ?_
  have registers := mirrors.aliasRegisters within
  subst same
  simp only [Value.rename_map] at registers
  simp only [mapClear,Value.rename_map,accepted,accepted',registers]
  have present' : ((h.aliasRegisters (.map r)).foldl Heap.unassign h).object? r = some (.map table) := by
    rw [object?_slots (unassignAll_slots _ h)]
    exact present
  refine .ok ⟨rfl,((mirrors.unassignAll _).modifyTable here present' Table.clear_valid Table.clear_valid table.clear_rename fun w refers => ?_).still⟩
  refine refers_map (Value.Within known) refers (fun entry member => ?_) fun _ _ _ bound member =>
    mirrors.refers here present (.aliased bound member)
  simp [Table.clear,Table.contents] at member

theorem mapKeys_alike (mirrors : Mirrors f known h k) (within : v.Within known) :
    Tallies (Calm known h k) (Still f known) (Alike f known) (mapKeys v h) (mapKeys (v.rename f) k) := by
  have keys : ((k.mapEntries (v.rename f)).map Prod.fst).toArray = ((h.mapEntries v).map Prod.fst).toArray.map (Value.rename f) := by
    simp [mirrors.mapEntries within]
  simp only [mapKeys,mirrors.entryRoom within,keys]
  refine newListOf_alike mirrors (fun item member => ?_) _
  obtain ⟨entry,listed,rfl⟩ := List.mem_map.mp (List.mem_toArray.mp member)
  exact (mirrors.closed.entries within listed).1

theorem mapValues_alike (mirrors : Mirrors f known h k) (within : v.Within known) :
    Tallies (Calm known h k) (Still f known) (Alike f known) (mapValues v h) (mapValues (v.rename f) k) := by
  have values : ((k.mapEntries (v.rename f)).map Prod.snd).toArray = ((h.mapEntries v).map Prod.snd).toArray.map (Value.rename f) := by
    simp [mirrors.mapEntries within]
  simp only [mapValues,mirrors.entryRoom within,values]
  refine newListOf_alike mirrors (fun item member => ?_) _
  obtain ⟨entry,listed,rfl⟩ := List.mem_map.mp (List.mem_toArray.mp member)
  exact (mirrors.closed.entries within listed).2

theorem mapHandle_tallies {operation operation' : HeapM α} {post : α → α → Heap → Heap → Prop} (mirrors : Mirrors f known h k)
    (within : v.Within known) (refused : ∀ e, h.mapHandle v = .error e → operation h = .error e h)
    (refused' : ∀ e, k.mapHandle (v.rename f) = .error e → operation' k = .error e k)
    (follows : ∀ r, v = .map r → known r → h.mapHandle (.map r) = .ok r → k.mapHandle (.map (f r)) = .ok (f r) →
      Tallies calm (Still f known) post (operation h) (operation' k)) : Tallies calm (Still f known) post (operation h) (operation' k) := by
  have handled := mirrors.mapHandle within
  cases accepted : h.mapHandle v with
  | error e =>
      rw [accepted] at handled
      rw [refused e accepted,refused' e handled]
      exact .error mirrors.still
  | ok r =>
      rw [accepted] at handled
      obtain ⟨rfl,_⟩ := mapHandle_parts accepted
      exact follows r rfl (within r rfl) accepted handled

theorem bindRegister_same (mirrors : Mirrors f known h k) (within : v.Within known) (named : name.Within known) (register : Nat) :
    Tallies calm (Still f known) (Same f known) (bindRegister v name register h) (bindRegister (v.rename f) (name.rename f) register k) := by
  refine mapHandle_tallies mirrors within (fun e refused => by simp only [bindRegister,refused])
    (fun e refused => by simp only [bindRegister,refused]) fun r same here accepted accepted' => ?_
  have aliased := mirrors.aliasOf? within named
  have map := mirrors.isAliasMap within
  subst same
  simp only [Value.rename_map] at aliased map
  simp only [bindRegister,Value.rename_map,accepted,accepted',aliased,map]
  split
  · rename_i open_
    obtain ⟨table,present⟩ : ∃ table, h.object? r = some (.map table) := by
      have some_ := (Bool.and_eq_true_iff.mp open_).1
      unfold Heap.isAliasMap at some_
      split at some_
      · rename_i table found
        obtain ⟨q,equal,present⟩ := table?_object.mp found
        cases equal
        exact ⟨table,present⟩
      · cases some_
    refine .ok ⟨rfl,((mirrors.modifyTable here present (fun valid => valid.of_same rfl rfl) (fun valid => valid.of_same rfl rfl) ?_
      fun w refers => ?_).recharge r (f r)).still⟩
    · simp only [Table.rename]
      cases table.aliases with
      | none => rfl
      | some aliases => simp [Aliases.push,Aliases.rename]
    · refine refers_map (Value.Within known) refers (fun entry member => ?_) fun aliases key other extended member => ?_
      · exact mirrors.entry here present member
      · obtain ⟨old,before,rfl⟩ := Option.map_eq_some_iff.mp extended
        rcases Array.mem_push.mp member with listed | last
        · exact mirrors.refers here present (.aliased before listed)
        · cases last
          exact named
  · exact .ok (mirrors.same ())

theorem gather_same (mirrors : Mirrors f known h k) (cleared : Clear known clear h) (within : v.Within known) :
    Tallies calm (Still f known) (Same f known) (gather v h) (gather (v.rename f) k) := by
  refine mapHandle_tallies mirrors within (fun e refused => by simp only [gather,refused])
    (fun e refused => by simp only [gather,refused]) fun r same here accepted accepted' => ?_
  have tables := mirrors.table within
  subst same
  simp only [Value.rename_map] at tables
  simp only [gather,Value.rename_map,accepted,accepted',tables]
  cases found : h.table? (.map r) with
  | none => exact .ok (mirrors.same ())
  | some table =>
      obtain ⟨q,equal,present⟩ := table?_object.mp found
      cases equal
      simp only [Option.map_some,Option.bind_some,Table.rename_aliases]
      cases bound : table.aliases with
      | none => exact .ok (mirrors.same ())
      | some aliases =>
          simp only [Option.map_some]
          have entries := mirrors.aliasEntries table
          simp only [Heap.aliasEntries,Table.rename_aliases,bound,Option.map_some] at entries
          rw [entries]
          have detached : Mirrors f known (h.modifyTable r ({ · with aliases := none })) (k.modifyTable (f r) ({ · with aliases := none })) := by
            refine mirrors.modifyTable here present (fun valid => valid.of_same rfl rfl) (fun valid => valid.of_same rfl rfl) rfl fun w refers => ?_
            refine refers_map (Value.Within known) refers (fun entry member => ?_) fun _ _ _ none => by cases none
            exact mirrors.entry here present member
          have touched := modifyTable_touched (h := h) ({ · with aliases := none }) present
          have still : Clear known clear (h.modifyTable r ({ · with aliases := none })) := by
            refine cleared.touched touched (fun some_ w member => ?_) (fun _ same entry member => ?_) fun _ _ same none => ?_
            · obtain ⟨v,free,handle⟩ := some_
              rcases contents_map touched.here member with ⟨_,_,none,_⟩ | ⟨entry,listed,which⟩
              · cases none
              · obtain ⟨left,right⟩ := entry_contents present listed
                rcases which with rfl | rfl
                · exact cleared.contents v r free handle _ left
                · exact cleared.contents v r free handle _ right
            · cases same
              exact cleared.keys r table here present entry member
            · cases same
              cases none
          have stored := detached.storeAll (h.assignedAliases aliases) still here touched.here (fun entry member => ?_) fun some_ entry member => ?_
          · exact .ok ⟨rfl,(stored.1.recharge r (f r)).still⟩
          · obtain ⟨binding,listed,assigned⟩ := List.mem_filterMap.mp member
            obtain ⟨value,held,rfl⟩ := Option.map_eq_some_iff.mp assigned
            have named := Array.mem_toList_iff.mp listed
            exact ⟨mirrors.refers here present (.aliased bound named),cleared.names r table aliases here present bound binding named,
              mirrors.closed.assigned? held⟩
          · obtain ⟨v,free,handle⟩ := some_
            exact cleared.contents v r free handle _ (aliases_contents present bound member).2

theorem Clear.fresh (cleared : Clear known clear h) (more : Prop) (fresh : ∀ p, known p → p ≠ r ∧ h'.object? p = h.object? p)
    (registers : h'.registers = h.registers) (empty : h'.contents r = []) (plain : ∀ table, h'.object? r = some (.map table) → table.aliases = none) :
    Clear (fun p => known p ∨ p = r) (fun v => clear v ∨ (more ∧ v.handle? = some r ∧ v.isFuncRef = false)) h' where
  plain := fun v plain => Or.inl (cleared.plain v plain)
  within := by
    intro v free q handle
    rcases free with free | ⟨_,new,_⟩
    · exact Or.inl (cleared.within v free q handle)
    · rw [new] at handle
      cases handle
      exact Or.inr rfl
  data := by
    intro v free
    rcases free with free | ⟨_,_,data⟩
    · exact cleared.data v free
    · exact data
  kinds := by
    intro v w q free handle handle' data
    rcases free with free | ⟨allowed,new,_⟩
    · exact Or.inl (cleared.kinds v w q free handle handle' data)
    · exact Or.inr ⟨allowed,handle'.trans (handle.symm.trans new),data⟩
  contents := by
    intro v q free handle w member
    rcases free with free | ⟨_,new,_⟩
    · rw [contents_same (fresh q (cleared.within v free q handle)).2 registers] at member
      exact Or.inl (cleared.contents v q free handle w member)
    · rw [new] at handle
      cases handle
      rw [empty] at member
      cases member
  keys := by
    intro q table here present entry member
    rcases here with here | rfl
    · rw [(fresh q here).2] at present
      exact Or.inl (cleared.keys q table here present entry member)
    · have inner := (entry_contents present member).1
      rw [empty] at inner
      cases inner
  names := by
    intro q table aliases here present bound binding member
    rcases here with here | rfl
    · rw [(fresh q here).2] at present
      exact Or.inl (cleared.names q table aliases here present bound binding member)
    · rw [plain table present] at bound
      cases bound

theorem contents_blank (present : h.object? r = some (.map (.withCapacity capacity))) : h.contents r = [] := by
  simp only [contents,present,mapEntries,table?]
  simp [aliasEntries,tableEntries,Table.withCapacity,Table.entries]

theorem entries_clear (cleared : Clear known clear h) (within : v.Within known) (member : entry ∈ h.mapEntries v) : clear entry.1 := by
  cases v with
  | map r => exact Mirrors.entry_clear cleared (within r rfl) member
  | null | int | double | short | str | list | funcRef => cases member

-- A copy of a map: new, open, and of keys that are clear.
def CopiedMap (f : Handle → Handle) (known : Handle → Prop) (v w : Value) (s t : Heap) : Prop :=
  ∃ r q f' known' clear, v = .map r ∧ w = .map q ∧ Mirrors f' known' s t ∧ (∀ p, known p → known' p ∧ f' p = f p) ∧ known' r ∧ f' r = q ∧
    Clear known' clear s ∧ (∀ u, clear u → u.handle? ≠ some r) ∧ ∃ table, s.object? r = some (.map table) ∧ table.frozen = false ∧ table.aliases = none

theorem renamePair_within {entries : List (Value × Value)} (grows : ∀ r, known r → f' r = f r)
    (within : ∀ entry ∈ entries, entry.1.Within known ∧ entry.2.Within known) : entries.map (renamePair f') = entries.map (renamePair f) :=
  List.map_congr_left fun entry member => by
    obtain ⟨left,right⟩ := within entry member
    rw [renamePair,renamePair,Mirrors.rename_within grows left,Mirrors.rename_within grows right]

theorem storeAll_open {table : Table} (entries : List (Value × Value)) (intact : s.Intact) (present : s.object? r = some (.map table))
    (open_ : table.frozen = false) (plain : table.aliases = none) :
    ∃ table', (s.storeAll r entries).object? r = some (.map table') ∧ table'.frozen = false ∧ table'.aliases = none := by
  induction entries generalizing s table with
  | nil => exact ⟨table,present,open_,plain⟩
  | cons entry rest ih =>
      obtain ⟨frozen,aliases⟩ := stored_parts (h := s) entry.1 entry.2 (intact.table present)
      exact ih ((store_steps s r _ _).intact intact) (store_touched entry.1 entry.2 present).here (frozen.trans open_) (aliases.trans plain)

theorem newMap_unlimited (unlimited : h.config.maxBytes = none) (intact : h.Intact) (capacity : Nat) :
    ∃ r s, newMap capacity h = .ok (.map r) s ∧ s.object? r = some (.map (.withCapacity capacity)) := by
  have made := allocate_unlimited unlimited (.map (.withCapacity capacity))
  have whole := (Swept.steps (collectIfDue_swept h)).intact intact
  refine ⟨_,_,?_,(allocated_installed whole (.map (.withCapacity capacity))).object⟩
  simp only [newMap,Functor.map,EStateM.map,made]

theorem storeAll_steps (entries : List (Value × Value)) (s : Heap) (r : Handle) : Steps s (s.storeAll r entries) := by
  induction entries generalizing s with
  | nil => exact .refl
  | cons entry rest ih => exact (store_steps s r entry.1 entry.2).trans (ih _)

theorem mapCopy_copied (mirrors : Mirrors f known h k) (cleared : Clear known clear h) (within : v.Within known) :
    Tallies (Calm known h k) (Still f known) (CopiedMap f known) (mapCopy v h) (mapCopy (v.rename f) k) := by
  have inner : ∀ entry ∈ h.mapEntries v, entry.1.Within known ∧ entry.2.Within known := fun entry member =>
    mirrors.closed.entries within member
  have made := newMap_fresh mirrors (((h.mapEntries v).length * 4 + 2) / 3 + 1)
  obtain ⟨r,s,left,present⟩ := newMap_unlimited mirrors.unlimited.1 mirrors.intact (((h.mapEntries v).length * 4 + 2) / 3 + 1)
  obtain ⟨q,t,right,present'⟩ := newMap_unlimited mirrors.unlimited.2 mirrors.image (((h.mapEntries v).length * 4 + 2) / 3 + 1)
  have handle : s.mapHandle (.map r) = .ok r := by simp [mapHandle,isLive,present]
  have handle' : t.mapHandle (.map q) = .ok q := by simp [mapHandle,isLive,present']
  rw [left,right] at made
  simp only [mapCopy,mirrors.mapEntries within,List.length_map,left,right,handle,handle']
  intro calm
  obtain ⟨spared,_,_,_,_,roots⟩ := (newMap_spared _ mirrors.intact).ok left
  have spared' := ((newMap_spared _ mirrors.image).ok right).1
  obtain ⟨_,_,same,same',mirrors',fresh⟩ := made (calm.back ((storeAll_steps _ s r).fewer spared.intact) ((storeAll_steps _ t q).fewer spared'.intact))
  cases same
  cases same'
  have grows : ∀ p, known p → (known p ∨ p = r) ∧ Function.update f r q p = f p := fun p here =>
    ⟨Or.inl here,Function.update_of_ne (fresh p here).1 _ _⟩
  have still := cleared.fresh False fresh roots.registers (contents_blank present) fun table there => by
    rw [present] at there
    cases there
    rfl
  have untouched : ∀ u, (clear u ∨ (False ∧ u.handle? = some r ∧ u.isFuncRef = false)) → u.handle? ≠ some r := by
    intro u free held
    rcases free with free | ⟨none,_⟩
    · exact (fresh r (cleared.within u free r held)).1 rfl
    · exact none
  obtain ⟨stored,clean⟩ := mirrors'.storeAll (h.mapEntries v) still (Or.inr rfl) present
    (fun entry member => ⟨(inner entry member).1.mono fun _ => Or.inl,Or.inl (entries_clear cleared within member),(inner entry member).2.mono fun _ => Or.inl⟩)
    fun some_ => by
      obtain ⟨u,free,held⟩ := some_
      exact absurd held (untouched u free)
  rw [Function.update_self,renamePair_within (fun p here => (grows p here).2) inner] at stored
  exact ⟨r,q,_,_,_,rfl,rfl,stored,grows,Or.inr rfl,Function.update_self _ _ _,clean,untouched,
    storeAll_open _ mirrors'.intact present rfl rfl⟩

theorem CopiedMap.alike (copied : CopiedMap f known v w s t) : Alike f known v w s t := by
  obtain ⟨r,q,f',known',_,rfl,rfl,mirrors,grows,here,rfl,_⟩ := copied
  exact ⟨f',known',mirrors,grows,rfl,fun p handle => by cases handle; exact here⟩

theorem mapCopy_alike (mirrors : Mirrors f known h k) (cleared : Clear known clear h) (within : v.Within known) :
    Tallies (Calm known h k) (Still f known) (Alike f known) (mapCopy v h) (mapCopy (v.rename f) k) :=
  (mapCopy_copied mirrors cleared within).mono (fun _ _ => id) fun _ _ _ _ => CopiedMap.alike

theorem setAll_plain {table : Table} (entries : List (Value × Value)) (intact : s.Intact) (present : s.object? r = some (.map table))
    (open_ : table.frozen = false) (plain : table.aliases = none) : setAll (.map r) entries s = .ok () (s.storeAll r entries) := by
  induction entries generalizing s table with
  | nil => rfl
  | cons entry rest ih =>
      obtain ⟨frozen,aliases⟩ := stored_parts (h := s) entry.1 entry.2 (intact.table present)
      have later := ih ((store_steps s r _ _).intact intact) (store_touched entry.1 entry.2 present).here (frozen.trans open_) (aliases.trans plain)
      simp only [setAll,Bind.bind,EStateM.bind,mapSet_plain present open_ plain]
      exact later

theorem filled_scope {out b : Value} (filled : setAll out ((s.pushScope.protect out).mapEntries b) (s.pushScope.protect out) = .ok () u) :
    (do
      inScope do
        modify (·.protect out)
        setAll out ((← get).mapEntries b)
      pure out : HeapM Value) s = .ok out u.popScope := by
  simp only [Bind.bind,EStateM.bind,Heap.inScope,modify_ok,get_ok,filled]
  rfl

theorem mapMerge_alike (mirrors : Mirrors f known h k) (cleared : Clear known clear h) (left : a.Within known) (right : b.Within known) :
    Tallies (Calm known h k) (Still f known) (Alike f known) (mapMerge a b h) (mapMerge (a.rename f) (b.rename f) k) := by
  have fills : ∀ out b : Value, Performs (fun _ => True) (do
      inScope do
        modify (·.protect out)
        setAll out ((← get).mapEntries b)
      pure out) := fun out b =>
    ((protecting_acts out).bind fun _ => Does.get_bind fun _ _ => setAll_acts (fun entry _ => entry.1.named_all) fun _ _ => trivial).inScope.bind
      fun _ => .pure out
  refine (mapCopy_copied mirrors cleared left).halves (fun out s done => (fills out b).later ((mapCopy_spared a mirrors.intact).ok done).1.intact)
    (fun out t done => (fills out _).later ((mapCopy_spared _ mirrors.image).ok done).1.intact) ?_
  rintro _ _ s t done done' ⟨r,q,f',known',_,rfl,rfl,mirrors',grows,here,rfl,clean,apart,table,present,open_,plain⟩
  have within : Value.Within known' (.map r) := fun p handle => by cases handle; exact here
  have other : b.Within known' := right.mono fun p known => (grows p known).1
  have opened := mirrors'.pushScope.protect within
  have entries := opened.mapEntries other
  rw [Mirrors.rename_within (fun p known => (grows p known).2) right] at entries
  have stored := (opened.storeAll ((s.pushScope.protect (.map r)).mapEntries b) (clean.registers rfl rfl) here present
    (fun entry member => ?_) fun some_ => ?_).1
  · have image : t.object? (f' r) = some (.map (table.rename f')) := by
      rw [mirrors'.object here,present]
      rfl
    have filled := setAll_plain ((s.pushScope.protect (.map r)).mapEntries b) opened.intact present open_ plain
    have filled' := setAll_plain ((t.pushScope.protect (.map (f' r))).mapEntries (b.rename f)) opened.image image open_ (by simp [plain])
    rw [filled_scope filled,filled_scope filled']
    rw [← entries] at stored
    exact .ok ⟨f',known',stored.popScope,grows,rfl,within⟩
  · obtain ⟨keyed,valued⟩ := opened.closed.entries other member
    exact ⟨keyed,entries_clear (clean.registers rfl rfl) other member,valued⟩
  · obtain ⟨u,free,held⟩ := some_
    exact absurd held (apart u free)

theorem add_other (other : ¬ (a.kind = b.kind ∧ (a.kind = .int ∨ a.kind = .list ∨ a.kind = .map))) : add a b =
    if a.isNumber && b.isNumber then pure (.double (a.asDouble.add b.asDouble))
    else if a.isString && b.isString then stringConcat a b
    else if a.isString && b.isNumber then newString b.asDouble.display >>= fun right => stringConcat a right
    else if a.isNumber && b.isString then newString a.asDouble.display >>= fun left => stringConcat left b
    else if a.isString && b.isNull then pure a
    else pure .null := by
  unfold add
  split
  · exact absurd ⟨rfl,Or.inl rfl⟩ other
  · exact absurd ⟨rfl,Or.inr (Or.inl rfl)⟩ other
  · exact absurd ⟨rfl,Or.inr (Or.inr rfl)⟩ other
  · rfl

theorem add_scalar (mirrors : Mirrors f known h k) (left : a.Within known) (right : b.Within known)
    (other : ¬ (a.kind = b.kind ∧ (a.kind = .int ∨ a.kind = .list ∨ a.kind = .map))) :
    Tallies (Calm known h k) (Still f known) (Alike f known) (add a b h) (add (a.rename f) (b.rename f) k) := by
  rw [add_other other,add_other (by rwa [Value.rename_kind,Value.rename_kind])]
  simp only [Value.rename_isNumber,Value.rename_isString,Value.rename_isNull,Value.rename_asDouble]
  split
  · exact .pure (mirrors.plain rfl)
  · split
    · exact stringConcat_alike mirrors left right
    · split
      · refine newString_concat mirrors _ (fun v => stringConcat_acts a v) (fun v => stringConcat_acts _ v)
          fun f' known' known'' s t v abreast mirrors' grows within => ?_
        rw [← Mirrors.rename_within (fun r here => (grows r here).2) left]
        exact stringConcat_abreast abreast mirrors' grows (left.mono fun r here => (grows r here).1) within
      · split
        · refine newString_concat mirrors _ (fun v => stringConcat_acts v b) (fun v => stringConcat_acts v _)
            fun f' known' known'' s t v abreast mirrors' grows within => ?_
          rw [← Mirrors.rename_within (fun r here => (grows r here).2) right]
          exact stringConcat_abreast abreast mirrors' grows within (right.mono fun r here => (grows r here).1)
        · split
          · exact .pure (mirrors.alike left)
          · exact .pure (mirrors.plain rfl)

theorem add_alike (mirrors : Mirrors f known h k) (cleared : Clear known clear h) (left : a.Within known) (right : b.Within known) :
    Tallies (Calm known h k) (Still f known) (Alike f known) (add a b h) (add (a.rename f) (b.rename f) k) := by
  cases a with
  | int x =>
      cases b with
      | int y => exact .pure (mirrors.plain (Value.ofInt_plain _))
      | null | double | short | str | list | map | funcRef => exact add_scalar mirrors left right (by simp [Value.kind])
  | list x =>
      cases b with
      | list y => exact listConcat_alike mirrors left right
      | null | int | double | short | str | map | funcRef => exact add_scalar mirrors left right (by simp [Value.kind])
  | map x =>
      cases b with
      | map y => exact mapMerge_alike mirrors cleared left right
      | null | int | double | short | str | list | funcRef => exact add_scalar mirrors left right (by simp [Value.kind])
  | null | double | short | str | funcRef => exact add_scalar mirrors left right (by simp [Value.kind])

theorem Mirrors.sortKey_within {key v : Value} (mirrors : Mirrors f known h k) (within : v.Within known) : (h.sortKey key v).Within known := by
  cases v with
  | null | int | double | short | str | funcRef => exact Value.within_plain rfl
  | map r => exact mirrors.closed.lookup within key
  | list r =>
      have got := mirrors.closed.listGet within key.asInt
      simp only [Heap.sortKey]
      split
      · cases found : h.listGet (.list r) key.asInt with
        | ok item =>
            rw [found] at got
            exact got
        | error e => exact Value.within_plain rfl
      · exact Value.within_plain rfl

theorem listSort_same (mirrors : Mirrors f known h k) (cleared : Clear known clear h) (within : v.Within known) (keyed : key.Within known)
    (free : clear key) : Tallies calm (Still f known) (Same f known) (listSort v key h) (listSort (v.rename f) (key.rename f) k) := by
  refine writableList_tallies mirrors within (fun e refused => by simp only [listSort,refused])
    (fun e refused => by simp only [listSort,refused]) fun r list same here present open_ accepted accepted' => ?_
  have items := mirrors.itemList within
  subst same
  have listed : ((h.items? (.list r)).getD #[]).toList = list.items.toList := by rw [items?_list present]; rfl
  rw [Value.rename_list,listed] at items
  have inner : ∀ item ∈ list.items.toList, item.Within known := fun item member =>
    mirrors.refers here present (.item (Array.mem_toList_iff.mp member))
  simp only [listSort,Value.rename_list,accepted,accepted',items,listed,Value.rename_isNull]
  split
  · have sorted : (list.items.toList.map (Value.rename f)).mergeSort k.notAfter = (list.items.toList.mergeSort h.notAfter).map (Value.rename f) :=
      (List.map_mergeSort fun a left b right => (mirrors.notAfter (inner a left) (inner b right)).symm).symm
    refine .ok ⟨rfl,(mirrors.modifyList here present ?_ fun item member => ?_).still⟩
    · simp [ListObject.rename,sorted]
    · exact inner item ((List.mergeSort_perm _ _).mem_iff.mp (List.mem_toArray.mp member))
  · -- The list is empty while the keys are read.
    have emptied : Mirrors f known (h.modifyList r fun l => { l with items := #[] }) (k.modifyList (f r) fun l => { l with items := #[] }) :=
      mirrors.modifyList here present (by simp [ListObject.rename]) fun item member => by simp at member
    have touched := modifyList_touched (h := h) (fun l => { l with items := #[] }) present
    have still : Clear known clear (h.modifyList r fun l => { l with items := #[] }) := by
      refine cleared.touched touched (fun _ w member => ?_) (fun _ same => by cases same) fun _ _ same => by cases same
      rw [contents_list touched.here] at member
      simp at member
    have keys : ∀ item ∈ list.items.toList, (k.modifyList (f r) fun l => { l with items := #[] }).sortKey (key.rename f) (item.rename f) =
        ((h.modifyList r fun l => { l with items := #[] }).sortKey key item).rename f := fun item member =>
      emptied.sortKey still keyed free (inner item member)
    generalize h.modifyList r (fun l => { l with items := #[] }) = h₁ at *
    generalize k.modifyList (f r) (fun l => { l with items := #[] }) = k₁ at *
    have pairs : (list.items.toList.map (Value.rename f)).map (fun item => (k₁.sortKey (key.rename f) item,item)) =
        (list.items.toList.map fun item => (h₁.sortKey key item,item)).map (renamePair f) := by
      simp only [List.map_map]
      exact List.map_congr_left fun item member => by simp only [Function.comp,renamePair,keys item member]
    have sorted := List.map_mergeSort (f := renamePair f) (r := fun a b => h₁.notAfter a.1 b.1) (s := fun a b => k₁.notAfter a.1 b.1)
      (l := list.items.toList.map fun item => (h₁.sortKey key item,item)) fun a left b right => ?_
    · rw [pairs,← sorted]
      generalize ordered : (list.items.toList.map fun item => (h₁.sortKey key item,item)).mergeSort (fun a b => h₁.notAfter a.1 b.1) = pairs'
      have listed' : ∀ pair ∈ pairs', pair.2 ∈ list.items.toList := by
        intro pair member
        rw [← ordered] at member
        obtain ⟨item,inside,rfl⟩ := List.mem_map.mp ((List.mergeSort_perm _ _).mem_iff.mp member)
        exact inside
      refine .ok ⟨rfl,(emptied.modifyList here touched.here ?_ fun item member => ?_).still⟩
      · simp [ListObject.rename]
      · obtain ⟨pair,inside,rfl⟩ := List.mem_map.mp (List.mem_toArray.mp member)
        exact inner _ (listed' pair inside)
    · obtain ⟨x,first,rfl⟩ := List.mem_map.mp left
      obtain ⟨y,second,rfl⟩ := List.mem_map.mp right
      exact (emptied.notAfter (emptied.sortKey_within (inner x first)) (emptied.sortKey_within (inner y second))).symm

end RegisterMachine.Heap
