import RegisterMachine.Proofs.Heap.Acts
import RegisterMachine.Proofs.Heap.Objects

namespace RegisterMachine.Heap

theorem allocate_acts {object : Object} (made : object.Made) : Does named written loose (allocate object) := by
  intro h _
  obtain ⟨s,swept,⟨_,failed⟩ | ⟨room,done⟩⟩ := allocate_parts object h
  · simp only [after,failed]
    exact Swept.acts swept
  · simp only [after,done]
    exact (Swept.acts swept).trans (.install made room)

theorem interning_acts (text : String) : Does named written loose (interning text) := fun _ _ => .intern

theorem newString_acts (text : String) : Does named written loose (newString text) := by
  unfold newString
  split
  · exact .pure _
  · split
    · exact interning_acts text
    · rename_i long
      exact (allocate_acts (.str (Nat.le_of_not_lt long))).map _

theorem newFuncRef_acts (function : Nat) (outer : Value) : Does named written loose (newFuncRef function outer) :=
  (allocate_acts .funcRef).map _

theorem newListOf_acts (items : Array Value) (capacity : Nat) : Does named written loose (newListOf items capacity) :=
  (allocate_acts .list).map _

-- An operation whose result is a map that was not there before.
def Makes (named : Handle → Prop) (operation : HeapM Value) : Prop := ∀ h, h.Names named → match operation h with
  | .ok v h' => ∃ r, v = .map r ∧ (h.Intact → h.object? r = none) ∧ ∀ written loose, Deeds named written loose h h'
  | .error _ h' => ∀ written loose, Deeds named written loose h h'

theorem Makes.performs {operation : HeapM Value} (makes : Makes named operation) : Does named written loose operation := by
  intro h names
  have made := makes h names
  unfold after
  cases result : operation h with
  | ok v s =>
      rw [result] at made
      obtain ⟨r,_,_,acts⟩ := made
      exact acts written loose
  | error e s =>
      rw [result] at made
      exact made written loose

theorem Makes.bind {operation : HeapM Value} {rest : Value → HeapM β} (makes : Makes named operation)
    (follows : ∀ r, Does named (fun q => written q ∨ q = r) loose (rest (.map r))) : Does named written loose (operation >>= rest) := by
  intro h names
  have made := makes h names
  cases result : operation h with
  | ok v s =>
      rw [result] at made
      obtain ⟨r,rfl,fresh,acts⟩ := made
      have later := follows r s ((acts written loose).names names)
      simp only [after,Bind.bind,EStateM.bind,result] at later ⊢
      exact .fresh ((acts _ _).trans later) fresh
  | error e s =>
      rw [result] at made
      simp only [after,Bind.bind,EStateM.bind,result]
      exact made written loose

theorem newMap_makes (capacity : Nat) : Makes named (newMap capacity) := by
  intro h names
  have acts : ∀ written loose, Deeds named written loose h (after (newMap capacity) h) := fun _ _ => (allocate_acts .map).map _ h names
  unfold after at acts
  cases result : newMap capacity h with
  | ok v s =>
      rw [result] at acts
      obtain ⟨r,made,rfl⟩ := map_ok result
      exact ⟨r,rfl,fun intact => allocate_fresh intact made,acts⟩
  | error e s =>
      rw [result] at acts
      exact acts

theorem writableList_parts {h : Heap} (accepted : h.writableList v = .ok r) :
    v = .list r ∧ h.isLive r = true ∧ ∃ list, h.object? r = some (.list list) := by
  cases v with
  | list q =>
      cases present : h.object? q with
      | none => simp [writableList,listHandle,isLive,present] at accepted
      | some object =>
          cases object with
          | list list =>
              simp only [writableList,listHandle,isLive,list?,present,Option.isSome_some,if_true] at accepted
              split at accepted
              · cases accepted
              · cases accepted
                exact ⟨rfl,by rw [isLive,present]; rfl,list,present⟩
          | str | map | funcRef => simp [writableList,listHandle,isLive,list?,present] at accepted
  | null | int | double | short | str | map | funcRef => cases accepted

theorem writableList_live {h : Heap} (accepted : h.writableList v = .ok r) : h.isLive r = true :=
  (writableList_parts accepted).2.1

theorem modifyList_acts {h : Heap} {change : ListObject → ListObject} (accepted : h.writableList v = .ok r)
    (room : ∀ l, (change l).capacity = l.capacity) : Deeds named written loose h (h.modifyList r change) :=
  .list (writableList_live accepted) fun l _ => Or.inr (room l)

theorem updateList_acts (v : Value) (change : ListObject → ListObject) : Does named written loose (updateList v change) := by
  intro h _
  simp only [after,updateList]
  cases accepted : h.writableList v with
  | error e => exact .refl
  | ok r =>
      obtain ⟨rfl,live,list,present⟩ := writableList_parts accepted
      simp only
      split
      · rename_i same
        refine .list live fun l found => Or.inr ?_
        simpa only [listCapacity,list?,found,(modifyList_touched change found).here] using same
      · exact .settle (.list live fun _ _ => Or.inl (Or.inr rfl))

theorem listSet_acts (v : Value) (index : Int32) (item : Value) : Does named written loose (listSet v index item) := by
  intro h _
  simp only [after,listSet]
  cases accepted : h.writableList v with
  | error e => exact .refl
  | ok r =>
      simp only
      cases resolve? index (h.listCount v) with
      | none => exact .refl
      | some i => exact modifyList_acts accepted fun _ => rfl

theorem listPop_acts (v : Value) : Does named written loose (listPop v) := by
  intro h _
  simp only [after,listPop]
  cases accepted : h.writableList v with
  | error e => exact .refl
  | ok r => exact modifyList_acts accepted fun _ => rfl

theorem listPull_acts (v : Value) : Does named written loose (listPull v) := by
  intro h _
  simp only [after,listPull]
  cases accepted : h.writableList v with
  | error e => exact .refl
  | ok r => exact modifyList_acts accepted fun _ => rfl

theorem listInsert_acts (v : Value) (index : Int32) (item : Value) : Does named written loose (listInsert v index item) := by
  intro h names
  simp only [after,listInsert]
  generalize (if index.toInt < 0 then index.toInt + h.listCount v + 1 else index.toInt) = i
  by_cases outside : i < 0 ∨ i > h.listCount v
  · simp only [if_pos outside]
    cases h.listHandle v with
    | error e => exact .refl
    | ok r => exact .refl
  · simp only [if_neg outside]
    exact updateList_acts v (·.insertAt i.toNat item) h names

theorem listRemove_acts (v : Value) (index : Int32) : Does named written loose (listRemove v index) := by
  intro h _
  simp only [after,listRemove]
  cases accepted : h.writableList v with
  | error e => exact .refl
  | ok r =>
      simp only
      cases resolve? index (h.listCount v) with
      | none => exact .refl
      | some i => exact modifyList_acts accepted fun _ => rfl

theorem listSlice_acts (v : Value) (start stop : Int32) : Does named written loose (listSlice v start stop) := by
  intro h names
  simp only [after,listSlice]
  cases h.expectItems v with
  | error e => exact .refl
  | ok items => exact newListOf_acts _ _ h names

theorem listConcat_acts (a b : Value) : Does named written loose (listConcat a b) := by
  intro h names
  simp only [after,listConcat]
  cases h.expectItems a with
  | error e => exact .refl
  | ok items => exact newListOf_acts _ _ h names

theorem listCopy_acts (v : Value) : Does named written loose (listCopy v) := by
  intro h names
  simp only [after,listCopy]
  cases h.expectItems v with
  | error e => exact .refl
  | ok items => exact newListOf_acts _ _ h names

theorem modifyList_live {h : Heap} (change : ListObject → ListObject) (live : h.isLive r = true) :
    (h.modifyList r change).isLive r = true := by
  obtain ⟨object,present⟩ := Option.isSome_iff_exists.mp live
  rw [isLive,modifyList,(modifyObject_touched _ present).here]
  rfl

-- A list sorted by keys takes the room that the sorted items came in, and keeps its charge.
theorem listSort_acts {v byKey : Value} (may : byKey.isNull = false → ∀ r, v = .list r → loose r) :
    Does named written loose (listSort v byKey) := by
  intro h _
  simp only [after,listSort]
  cases accepted : h.writableList v with
  | error e => exact .refl
  | ok r =>
      obtain ⟨rfl,live,_⟩ := writableList_parts accepted
      cases keyed : byKey.isNull with
      | true => exact modifyList_acts accepted fun _ => rfl
      | false =>
          have free : loose r := may keyed r rfl
          exact Deeds.trans (.list live fun _ _ => Or.inl free) (.list (modifyList_live _ live) fun _ _ => Or.inl free)

theorem store_acts {h : Heap} {key : Value} (value : Value) (granted : key.Named named) (live : h.isLive r = true) (may : written r) :
    Deeds named written loose h (h.store r key value) := by
  unfold store
  simp only
  split
  · exact .table live (fun t _ => ⟨.value,Or.inr (Table.charge_same (Table.size_setValue t _ _) rfl)⟩) may
  · rename_i absent
    have enters : ∀ t, h.object? r = some (.map t) →
        t.Edit named h (t.insertNew { key, value, hash := h.hash key }) := by
      intro t present
      refine .enter ?_ granted
      simpa only [findCell?,table?,present] using absent
    split
    · exact .settle (.table live (fun t present => ⟨enters t present,Or.inl (Or.inr rfl)⟩) may)
    · rename_i roomy
      refine .table live (fun t present => ⟨enters t present,Or.inr ?_⟩) may
      have stays : t.needsGrowth = false := by simpa only [growsOnInsert,table?,present,Bool.not_eq_true] using roomy
      exact Table.charge_same (Table.size_insertNew _ stays) (Table.insertNew_aliases t _)

theorem modifyTable_live {h : Heap} (change : Table → Table) (live : h.isLive r = true) :
    (h.modifyTable r change).isLive r = true := by
  obtain ⟨object,present⟩ := Option.isSome_iff_exists.mp live
  rw [isLive,modifyTable,(modifyObject_touched _ present).here]
  rfl

theorem store_live {h : Heap} (key value : Value) (live : h.isLive r = true) : (h.store r key value).isLive r = true := by
  unfold store
  simp only
  split
  · exact modifyTable_live _ live
  · split
    · rw [isLive,recharge_object]
      exact modifyTable_live _ live
    · exact modifyTable_live _ live

theorem storeAll_acts {entries : List (Value × Value)} {h : Heap} (granted : ∀ entry ∈ entries, entry.1.Named named)
    (live : h.isLive r = true) (may : written r) : Deeds named written loose h (h.storeAll r entries) := by
  induction entries generalizing h with
  | nil => exact .refl
  | cons entry rest ih =>
      exact (store_acts entry.2 (granted entry List.mem_cons_self) live may).trans
        (ih (fun other member => granted other (List.mem_cons_of_mem _ member)) (store_live entry.1 entry.2 live))

theorem writableMap_live {h : Heap} (accepted : h.writableMap v = .ok r) : h.isLive r = true := by
  obtain ⟨_,table,object,_⟩ := writableMap_parts accepted
  rw [isLive,object]
  rfl

theorem mapSet_acts {v key : Value} (value : Value) (granted : key.Named named) (may : ∀ r, v = .map r → written r) :
    Does named written loose (mapSet v key value) := by
  intro h _
  simp only [after,mapSet]
  cases accepted : h.writableMap v with
  | error e => exact .refl
  | ok r =>
      simp only
      cases h.aliasOf? v key with
      | some register => exact .register fun _ _ => granted
      | none => exact store_acts value granted (writableMap_live accepted) (may r (writableMap_parts accepted).1)

theorem unassign_acts (h : Heap) (register : Nat) : Deeds named written loose h (h.unassign register) :=
  .register fun _ _ => Value.named_other rfl

theorem mapRemove_acts {v : Value} (key : Value) (may : ∀ r, v = .map r → written r) : Does named written loose (mapRemove v key) := by
  intro h _
  simp only [after,mapRemove]
  cases accepted : h.writableMap v with
  | error e => exact .refl
  | ok r =>
      obtain ⟨rfl,table,object,_⟩ := writableMap_parts accepted
      simp only
      cases h.aliasOf? (.map r) key with
      | some register => exact unassign_acts h register
      | none =>
          simp only
          cases found : h.findCell? (.map r) (h.hash key) key with
          | none => exact .refl
          | some i =>
              obtain ⟨entry,present,_⟩ := findCell?_entry object found
              refine .table (writableMap_live accepted) (fun t same => ?_) (may r rfl)
              rw [object] at same
              cases same
              exact ⟨.remove present,Or.inr (Table.charge_same (Table.size_removeAt _ i) rfl)⟩

theorem unassignAll_acts (registers : List Nat) (h : Heap) : Deeds named written loose h (registers.foldl unassign h) := by
  induction registers generalizing h with
  | nil => exact .refl
  | cons register rest ih => exact (unassign_acts h register).trans (ih _)

theorem mapClear_acts {v : Value} (may : ∀ r, v = .map r → written r) : Does named written loose (mapClear v) := by
  intro h _
  simp only [after,mapClear]
  cases accepted : h.writableMap v with
  | error e => exact .refl
  | ok r =>
      have same : ∀ (registers : List Nat) (h : Heap), (registers.foldl unassign h).slots = h.slots := by
        intro registers
        induction registers with
        | nil => exact fun _ => rfl
        | cons register rest ih => exact fun h => ih (h.unassign register)
      refine (unassignAll_acts _ h).trans (.table ?_ (fun t _ => ⟨.clear,Or.inr (Table.charge_same (Table.size_clear t) rfl)⟩) ?_)
      · rw [isLive,object?_slots (same _ h)]
        exact writableMap_live accepted
      · exact may r (writableMap_parts accepted).1

theorem after_mapKeys (v : Value) (h : Heap) :
    after (mapKeys v) h = after (newListOf ((h.mapEntries v).map Prod.fst).toArray (h.entryRoom v)) h :=
  after_read (fun s => newListOf ((s.mapEntries v).map Prod.fst).toArray (s.entryRoom v)) h

theorem after_mapValues (v : Value) (h : Heap) :
    after (mapValues v) h = after (newListOf ((h.mapEntries v).map Prod.snd).toArray (h.entryRoom v)) h :=
  after_read (fun s => newListOf ((s.mapEntries v).map Prod.snd).toArray (s.entryRoom v)) h

theorem mapKeys_acts (v : Value) : Does named written loose (mapKeys v) := by
  intro h names
  rw [after_mapKeys]
  exact newListOf_acts _ _ h names

theorem mapValues_acts (v : Value) : Does named written loose (mapValues v) := by
  intro h names
  rw [after_mapValues]
  exact newListOf_acts _ _ h names

theorem mapCopy_makes (v : Value) : Makes named (mapCopy v) := by
  intro h names
  have made := newMap_makes (((h.mapEntries v).length * 4 + 2) / 3 + 1) h names
  simp only [mapCopy]
  cases result : newMap (((h.mapEntries v).length * 4 + 2) / 3 + 1) h with
  | error e s =>
      rw [result] at made
      exact made
  | ok copy s =>
      rw [result] at made
      obtain ⟨r,rfl,fresh,acts⟩ := made
      simp only
      cases accepted : s.mapHandle (.map r) with
      | error e => exact acts
      | ok q =>
          obtain ⟨same,live⟩ := mapHandle_parts accepted
          cases same
          exact ⟨r,rfl,fresh,fun written loose => .fresh ((acts _ _).trans (storeAll_acts names.entries live (Or.inr rfl))) fresh⟩

theorem aliases_object {h : Heap} {t : Table} {aliases : Aliases} (held : (h.table? (.map r)).bind Table.aliases = some aliases)
    (present : h.object? r = some (.map t)) : t.aliases = some aliases := by
  simpa only [table?,present,Option.bind_some] using held

theorem bindRegister_acts {name : Value} (v : Value) (register : Nat) (granted : name.Named named) :
    Does named written loose (bindRegister v name register) := by
  intro h _
  simp only [after,bindRegister]
  cases accepted : h.mapHandle v with
  | error e => exact .refl
  | ok r =>
      obtain ⟨rfl,live⟩ := mapHandle_parts accepted
      by_cases unbound : (h.isAliasMap (.map r) && (h.aliasOf? (.map r) name).isNone) = true
      · simp only [unbound,if_true]
        refine .besides (.settle (.table live (fun t _ => ⟨.bind granted,Or.inl (Or.inr rfl)⟩) (Or.inr rfl))) fun _ t present => ?_
        have aliased := (Bool.and_eq_true_iff.mp unbound).1
        simpa only [isAliasMap,table?,present] using aliased
      · simp only [unbound]
        exact .refl

theorem gather_acts (v : Value) : Does named written loose (gather v) := by
  intro h names
  simp only [after,gather]
  cases accepted : h.mapHandle v with
  | error e => exact .refl
  | ok r =>
      obtain ⟨rfl,live⟩ := mapHandle_parts accepted
      simp only
      cases held : (h.table? (.map r)).bind Table.aliases with
      | none => exact .refl
      | some aliases =>
          have detached : Deeds named (fun q => written q ∨ q = r) (fun q => loose q ∨ q = r) h (h.modifyTable r ({ · with aliases := none })) :=
            .table live (fun t _ => ⟨.detach,Or.inl (Or.inr rfl)⟩) (Or.inr rfl)
          have still : (h.modifyTable r ({ · with aliases := none })).isLive r = true := modifyTable_live _ live
          obtain ⟨table,found,some⟩ := Option.bind_eq_some_iff.mp held
          obtain ⟨_,⟨⟩,present⟩ := table?_object.mp found
          have granted := @assigned_named _ h _ _ (names.tables r table present) some
          refine .besides (.settle (detached.trans (storeAll_acts granted still (Or.inr rfl)))) fun _ t present => ?_
          rw [aliases_object held present]
          rfl

theorem textOf_acts (v : Value) : Does named written loose (textOf v) := by
  intro h _
  simp only [after,textOf,reading]
  cases h.expectText v with
  | error e => exact .refl
  | ok text => exact .refl

theorem stringConcat_acts (a b : Value) : Does named written loose (stringConcat a b) := by
  unfold stringConcat
  refine (textOf_acts a).bind fun left => (textOf_acts b).bind fun right => ?_
  split
  · exact .pure a
  · split
    · exact .pure b
    · exact newString_acts _

theorem stringSubstring_acts (v : Value) (start count : Int32) : Does named written loose (stringSubstring v start count) := by
  unfold stringSubstring
  refine (textOf_acts v).bind fun text => ?_
  simp only
  split
  · exact .pure v
  · exact newString_acts _

theorem stringSlice_acts (v : Value) (start stop : Int32) : Does named written loose (stringSlice v start stop) := by
  unfold stringSlice
  refine Does.get_bind fun h _ => ?_
  simp only
  split
  · exact newString_acts _
  · exact stringSubstring_acts _ _ _

theorem stringReplace_acts (v old new : Value) : Does named written loose (stringReplace v old new) := by
  unfold stringReplace
  refine (textOf_acts v).bind fun text => (textOf_acts old).bind fun pattern => (textOf_acts new).bind fun replacement => ?_
  split
  · exact .pure v
  · exact newString_acts _

theorem pushStrings_acts (out : Value) (pieces : List String) : Does named written loose (pushStrings out pieces) := by
  induction pieces with
  | nil => exact .pure ()
  | cons piece rest ih => exact (newString_acts piece).bind fun item => (updateList_acts out _).bind fun _ => ih

theorem protecting_acts (v : Value) : Does named written loose (modify (·.protect v)) := .modify fun h => protect_acts h v

theorem stringSplit_acts (v delimiter : Value) : Does named written loose (stringSplit v delimiter) := by
  unfold stringSplit
  refine (textOf_acts v).bind fun text => (textOf_acts delimiter).bind fun pattern => ?_
  refine (newListOf_acts _ _).bind fun out => ?_
  refine Does.bind ?_ fun _ => .pure out
  exact ((protecting_acts out).bind fun _ => pushStrings_acts out _).inScope

theorem mapText_acts (change : String → String) (v : Value) : Does named written loose (mapText change v) := by
  unfold mapText
  refine (textOf_acts v).bind fun text => ?_
  simp only
  split
  · exact .pure v
  · exact newString_acts _

theorem stringRepeat_acts (v : Value) (times : Double) : Does named written loose (stringRepeat v times) := by
  unfold stringRepeat
  refine (textOf_acts v).bind fun text => ?_
  split
  · exact newString_acts _
  · split
    · exact .pure v
    · refine Does.get_bind fun h _ => ?_
      simp only
      split
      · exact newString_acts _
      · exact .throw _

theorem toStringValue_acts (v : Value) : Does named written loose (toStringValue v) := by
  unfold toStringValue
  split
  · exact .pure v
  · exact Does.get_bind fun h _ => newString_acts _

theorem setAll_acts {out : Value} {entries : List (Value × Value)} (granted : ∀ entry ∈ entries, entry.1.Named named)
    (may : ∀ r, out = .map r → written r) : Does named written loose (setAll out entries) := by
  induction entries with
  | nil => exact .pure ()
  | cons entry rest ih =>
      exact (mapSet_acts entry.2 (granted entry List.mem_cons_self) may).bind fun _ =>
        ih fun other member => granted other (List.mem_cons_of_mem _ member)

theorem mapMerge_acts (a b : Value) : Does named written loose (mapMerge a b) := by
  unfold mapMerge
  refine (mapCopy_makes a).bind fun r => Does.bind ?_ fun _ => .pure _
  refine ((protecting_acts _).bind fun _ => Does.get_bind fun h names => setAll_acts names.entries ?_).inScope
  rintro _ ⟨⟩
  exact Or.inr rfl

theorem add_acts (a b : Value) : Does named written loose (add a b) := by
  unfold add
  split
  · exact .pure _
  · exact listConcat_acts _ _
  · exact mapMerge_acts _ _
  · split
    · exact .pure _
    · split
      · exact stringConcat_acts a b
      · split
        · exact (newString_acts _).bind fun right => stringConcat_acts a right
        · split
          · exact (newString_acts _).bind fun left => stringConcat_acts left b
          · split
            · exact .pure _
            · exact .pure _

theorem mult_acts (a b : Value) : Does named written loose (mult a b) := by
  unfold mult
  split
  · exact .pure _
  · split
    · exact .pure _
    · split
      · exact stringRepeat_acts _ _
      · exact .pure _

theorem div_acts (a b : Value) : Does named written loose (div a b) := by
  unfold div
  split
  · exact .pure _
  · split
    · exact mult_acts _ _
    · exact .pure _

-- Copies. The levels left decide how deep a copy goes; each container is copied item by item. What was
-- made for a value is no string, so that a string is its own copy and no copy of a key is a new name.
def Bare (copies : Copies) : Prop := ∀ pair ∈ copies, pair.2.isString = false

def Keeps (copy : Value → Copies → HeapM (Value × Copies)) : Prop := ∀ v copies, Bare copies →
  Delivers (copy v copies) fun result => (result.1 = v ∨ result.1.isString = false) ∧ Bare result.2

def Copying (named written loose : Handle → Prop) (copy : Value → Copies → HeapM (Value × Copies)) : Prop :=
  ∀ v copies, Bare copies → Does named written loose (copy v copies)

theorem Bare.cons (bare : Bare copies) (container : out.isString = false) : Bare ((r,out) :: copies) := by
  intro pair member
  rcases List.mem_cons.mp member with rfl | later
  · exact container
  · exact bare pair later

theorem Bare.lookup (bare : Bare copies) (found : copies.lookup r = some copy) : copy.isString = false :=
  bare _ (lookup_mem found)

theorem newListOf_delivers (items : Array Value) (capacity : Nat) : Delivers (newListOf items capacity) fun v => v.isString = false := by
  intro h v h' made
  obtain ⟨r,_,rfl⟩ := map_ok made
  rfl

theorem newMap_delivers (capacity : Nat) : Delivers (newMap capacity) fun v => v.isString = false := by
  intro h v h' made
  obtain ⟨r,_,rfl⟩ := map_ok made
  rfl

section

variable {copy : Value → Copies → HeapM (Value × Copies)} (keeps : Keeps copy)
include keeps

theorem copyItems_delivers (out : Value) (items : List Value) (bare : Bare copies) : Delivers (copyItems copy out items copies) Bare := by
  induction items generalizing copies with
  | nil => exact .pure bare
  | cons item rest ih => exact (keeps item copies bare).bind fun _ given => (Delivers.any _).bind fun _ _ => ih given.2

theorem copyEntries_delivers (out : Value) (entries : List (Value × Value)) (bare : Bare copies) :
    Delivers (copyEntries copy out entries copies) Bare := by
  induction entries generalizing copies with
  | nil => exact .pure bare
  | cons entry rest ih =>
      refine (keeps entry.1 copies bare).bind fun key given => (Delivers.any _).bind fun _ _ => ?_
      exact (keeps entry.2 key.2 given.2).bind fun _ kept => (Delivers.any _).bind fun _ _ => ih kept.2

variable (copying : Copying named written loose copy)
include copying

theorem copyItems_acts (out : Value) (items : List Value) (bare : Bare copies) : Does named written loose (copyItems copy out items copies) := by
  induction items generalizing copies with
  | nil => exact .pure copies
  | cons item rest ih =>
      exact (copying item copies bare).bind_given (keeps item copies bare) fun _ given => (updateList_acts out _).bind fun _ => ih given.2

theorem copyEntries_acts {out : Value} {entries : List (Value × Value)} (granted : ∀ entry ∈ entries, entry.1.Named named)
    (may : ∀ r, out = .map r → written r) (bare : Bare copies) : Does named written loose (copyEntries copy out entries copies) := by
  induction entries generalizing copies with
  | nil => exact .pure copies
  | cons entry rest ih =>
      refine (copying entry.1 copies bare).bind_given (keeps entry.1 copies bare) fun key given => (protecting_acts key.1).bind fun _ => ?_
      refine (copying entry.2 key.2 given.2).bind_given (keeps entry.2 key.2 given.2) fun value kept => ?_
      have name : key.1.Named named := by
        rcases given.1 with itself | other
        · rw [itself]
          exact granted entry List.mem_cons_self
        · exact Value.named_other other
      exact (mapSet_acts value.1 name may).bind fun _ => ih (fun other member => granted other (List.mem_cons_of_mem _ member)) kept.2

end

theorem copyDeep_keeps (levels : Nat) : Keeps (copyDeep levels) := by
  induction levels with
  | zero =>
      intro v copies bare
      rw [copyDeep_zero]
      exact .pure ⟨Or.inl rfl,bare⟩
  | succ levels ih =>
      intro v copies bare
      have listed : ∀ r, ((copies.lookup r).getD v = v ∨ ((copies.lookup r).getD v).isString = false) ∧ Bare copies := by
        intro r
        cases found : copies.lookup r with
        | some copy => exact ⟨Or.inr (bare.lookup found),bare⟩
        | none => exact ⟨Or.inl rfl,bare⟩
      cases v with
      | list r =>
          rw [copyDeep_list]
          cases found : copies.lookup r with
          | some copy => exact .pure ⟨Or.inr (bare.lookup found),bare⟩
          | none =>
              refine (Delivers.any _).bind fun h _ => (newListOf_delivers _ _).bind fun out container => (Delivers.any _).bind fun _ _ => ?_
              exact (copyItems_delivers ih out _ (bare.cons container)).bind fun _ kept => .pure ⟨Or.inr container,kept⟩
      | map r =>
          rw [copyDeep_map]
          cases found : copies.lookup r with
          | some copy => exact .pure ⟨Or.inr (bare.lookup found),bare⟩
          | none =>
              refine (Delivers.any _).bind fun h _ => (newMap_delivers _).bind fun out container => (Delivers.any _).bind fun _ _ => ?_
              exact (copyEntries_delivers ih out _ (bare.cons container)).bind fun _ kept => .pure ⟨Or.inr container,kept⟩
      | null | int | double | short => rw [copyDeep_plain _ _ rfl]; exact .pure ⟨Or.inl rfl,bare⟩
      | str r => rw [copyDeep_leaf _ _ (Or.inl rfl)]; exact .pure (listed r)
      | funcRef r => rw [copyDeep_leaf _ _ (Or.inr rfl)]; exact .pure (listed r)

-- A copy writes the maps it made and no others, at every level.
theorem copyDeep_acts (levels : Nat) : Copying named written loose (copyDeep levels) := by
  induction levels generalizing written with
  | zero =>
      intro v copies bare
      rw [copyDeep_zero]
      exact .pure _
  | succ levels ih =>
      intro v copies bare
      have keeps := copyDeep_keeps levels
      cases v with
      | list r =>
          rw [copyDeep_list]
          split
          · exact .pure _
          · refine Does.get_bind fun h _ => (newListOf_acts _ _).bind_given (newListOf_delivers _ _) fun out container => ?_
            exact (protecting_acts out).bind fun _ => (copyItems_acts keeps ih out _ (bare.cons container)).bind fun copies => .pure (out,copies)
      | map r =>
          rw [copyDeep_map]
          split
          · exact .pure _
          · refine Does.get_bind fun h names => (newMap_makes _).bind fun q => (protecting_acts _).bind fun _ => ?_
            refine (copyEntries_acts keeps ih names.entries ?_ (bare.cons rfl)).bind fun copies => .pure _
            rintro _ ⟨⟩
            exact Or.inr rfl
      | null | int | double | short => rw [copyDeep_plain _ _ rfl]; exact .pure _
      | str r => rw [copyDeep_leaf _ _ (Or.inl rfl)]; exact .pure _
      | funcRef r => rw [copyDeep_leaf _ _ (Or.inr rfl)]; exact .pure _

theorem frozenCopy_acts (v : Value) : Does named written loose (frozenCopy v) := by
  unfold frozenCopy
  refine Does.get_bind fun h _ => (copyDeep_acts _ v [] ?_).inScope.bind fun copied => ?_
  · intro pair member
    cases member
  · exact (Does.modify fun h => .freeze).bind fun _ => .pure copied.1

end RegisterMachine.Heap
