import RegisterMachine.Proofs.Heap.Sparing

namespace RegisterMachine

-- Objects that no operation changes: texts, references to functions, and what is frozen and bound to no register.
def Object.Fixed : Object → Prop
  | .list l => l.frozen = true
  | .map t => t.frozen = true ∧ t.aliases = none
  | .str _ | .funcRef _ => True

namespace Heap

-- What a value leads to through the items of lists and the keys and values of maps.
inductive Contains (h : Heap) (v : Value) : Handle → Prop where
  | self : v.handle? = some r → h.isLive r = true → Contains h v r
  | part : Contains h v q → w ∈ h.contents q → w.handle? = some r → h.isLive r = true → Contains h v r

theorem Contains.live (contains : Contains h v r) : h.isLive r = true := by
  cases contains with
  | self _ live => exact live
  | part _ _ _ live => exact live

-- The marks of a trace from the value are the least set that is closed under contents.
theorem insideOf_contains {h : Heap} (v : Value) (live : h.isLive r = true) :
    (h.insideOf v).getD r.index false = true ↔ Contains h v r := by
  have sized : (Marking.start h.slots).marks.size = h.slots.size := by simp [Marking.start]
  have unmarked : ∀ q, ¬ Marking.Marked h.slots (Marking.start h.slots) q := by
    intro q marked
    have set := marked.2
    rw [Marking.start,Array.getD_eq_getD_getElem?,Array.getElem?_replicate] at set
    split at set <;> cases set
  have spread := Marking.markValue_spread sized v
  have traced := Marking.trace_traced h.contents h.slots.size (spread.size.trans sized) ?_ ?_ ?_
  · have seen : ∀ q, Marking.Marked h.slots (Marking.trace h.slots h.contents h.slots.size
        (Marking.markValue h.slots (Marking.start h.slots) v)) q ↔ Contains h v q := by
      intro q
      constructor
      · apply traced.least
        · intro p marked
          rcases spread.source p marked with before | ⟨w,member,handle⟩
          · exact absurd before (unmarked p)
          · rw [List.mem_singleton.mp member] at handle
            exact .self handle (by rw [isLive_holds]; exact marked.1)
        · intro p contains w member q handle held
          exact .part contains member handle (by rw [isLive_holds]; exact held)
      · intro contains
        induction contains with
        | self handle live =>
            rw [isLive_holds] at live
            exact traced.kept _ (spread.covers v (List.mem_singleton.mpr rfl) _ handle live)
        | part _ member handle live ih =>
            rw [isLive_holds] at live
            exact traced.closed _ ih _ member _ handle live
    rw [← seen r]
    rw [isLive_holds] at live
    exact ⟨fun set => ⟨live,set⟩,fun marked => marked.2⟩
  · rw [spread.left]
    simp [Marking.left,Marking.start]
  · intro q member
    rcases spread.queued q member with before | marked
    · cases before
    · exact marked
  · intro q marked
    rcases spread.waits q marked with before | waiting
    · exact absurd before (unmarked q)
    · exact Or.inl waiting

theorem freeze_slot {h : Heap} (v : Value) (present : h.slots[i]? = some slot) :
    (Contains h v ⟨i,slot.generation⟩ → (h.freeze v).slots[i]? = some { slot with object := slot.object.map freezeObject }) ∧
      (¬ Contains h v ⟨i,slot.generation⟩ → (h.freeze v).slots[i]? = some slot) := by
  have frozen : (h.freeze v).slots[i]? =
      some (if (h.insideOf v).getD i false then { slot with object := slot.object.map freezeObject } else slot) := by
    simp only [freeze,Array.getElem?_mapIdx,present,Option.map_some]
  cases content : slot.object with
  | none =>
      have same : { slot with object := none } = slot := by rw [← content]
      refine ⟨fun contains => ?_,fun _ => ?_⟩
      · have live := contains.live
        simp [isLive,object?,present,content] at live
      · rw [frozen,content,Option.map_none,same,ite_self]
  | some object =>
      have live : h.isLive ⟨i,slot.generation⟩ = true := by
        rw [isLive,object?_slot.mpr ⟨slot,present,rfl,content⟩]
        rfl
      have inside := insideOf_contains v live
      refine ⟨fun contains => ?_,fun outside => ?_⟩
      · rw [frozen,if_pos (inside.mpr contains),content]
      · rw [frozen,if_neg fun marked => outside (inside.mp marked)]

theorem freeze_contained {h : Heap} {object : Object} (contains : Contains h v r) (present : h.object? r = some object) :
    (h.freeze v).object? r = some (freezeObject object) := by
  rw [freeze_object,present,Option.map_some,if_pos ((insideOf_contains v contains.live).mpr contains)]

def Leaves (h h' : Heap) : Prop := ∀ r object, h.object? r = some object → object.Fixed → h'.object? r = some object

theorem Leaves.refl (h : Heap) : Leaves h h := fun _ _ present _ => present

theorem Leaves.trans (first : Leaves h h') (second : Leaves h' h'') : Leaves h h'' :=
  fun r object present fixed => second r object (first r object present fixed) fixed

theorem Leaves.slots {h h' : Heap} (same : h'.slots = h.slots) : Leaves h h' := by
  intro r object present _
  rw [object?_slots same]
  exact present

theorem Leaves.recharge (leaves : Leaves h h') (q : Handle) : Leaves h (h'.recharge q) := by
  intro r object present fixed
  rw [recharge_object]
  exact leaves r object present fixed

theorem Touched.leaves {old object : Object} (touched : Touched h h' q object) (before : h.object? q = some old)
    (open_ : ¬ old.Fixed) : Leaves h h' := by
  intro r other present fixed
  by_cases same : r = q
  · subst r
    rw [before] at present
    cases present
    exact absurd fixed open_
  · rw [touched.others r same]
    exact present

theorem writableList_open {h : Heap} (accepted : h.writableList v = .ok q) :
    ∃ list, h.object? q = some (.list list) ∧ ¬ (Object.list list).Fixed := by
  obtain ⟨rfl,live,list,present⟩ := writableList_parts accepted
  refine ⟨list,present,fun frozen => ?_⟩
  simp [writableList,listHandle,live,list?,present,show list.frozen = true from frozen] at accepted

theorem writableMap_open {h : Heap} (accepted : h.writableMap v = .ok q) :
    ∃ table, h.object? q = some (.map table) ∧ ¬ (Object.map table).Fixed := by
  obtain ⟨_,table,present,open_⟩ := writableMap_parts accepted
  refine ⟨table,present,fun fixed => ?_⟩
  rw [fixed.1] at open_
  cases open_

theorem modifyList_leaves {h : Heap} (change : ListObject → ListObject) (accepted : h.writableList v = .ok q) :
    Leaves h (h.modifyList q change) := by
  obtain ⟨list,present,open_⟩ := writableList_open accepted
  exact (modifyList_touched change present).leaves present open_

theorem updateList_leaves (h : Heap) (v : Value) (change : ListObject → ListObject) : Leaves h (after (updateList v change) h) := by
  simp only [after,updateList]
  cases accepted : h.writableList v with
  | error e => exact .refl h
  | ok q =>
      have leaves := modifyList_leaves change accepted
      simp only
      split
      · exact leaves
      · exact leaves.recharge q

theorem listSet_leaves (h : Heap) (v : Value) (index : Int32) (item : Value) : Leaves h (after (listSet v index item) h) := by
  simp only [after,listSet]
  cases accepted : h.writableList v with
  | error e => exact .refl h
  | ok q =>
      simp only
      cases resolve? index (h.listCount v) with
      | none => exact .refl h
      | some i => exact modifyList_leaves _ accepted

theorem listPop_leaves (h : Heap) (v : Value) : Leaves h (after (listPop v) h) := by
  simp only [after,listPop]
  cases accepted : h.writableList v with
  | error e => exact .refl h
  | ok q => exact modifyList_leaves _ accepted

theorem listPull_leaves (h : Heap) (v : Value) : Leaves h (after (listPull v) h) := by
  simp only [after,listPull]
  cases accepted : h.writableList v with
  | error e => exact .refl h
  | ok q => exact modifyList_leaves _ accepted

theorem listInsert_leaves (h : Heap) (v : Value) (index : Int32) (item : Value) : Leaves h (after (listInsert v index item) h) := by
  simp only [after,listInsert]
  generalize (if index.toInt < 0 then index.toInt + h.listCount v + 1 else index.toInt) = i
  by_cases outside : i < 0 ∨ i > h.listCount v
  · rw [if_pos outside]
    cases h.listHandle v with
    | error e => exact .refl h
    | ok q => exact .refl h
  · rw [if_neg outside]
    exact updateList_leaves h v _

theorem listRemove_leaves (h : Heap) (v : Value) (index : Int32) : Leaves h (after (listRemove v index) h) := by
  simp only [after,listRemove]
  cases accepted : h.writableList v with
  | error e => exact .refl h
  | ok q =>
      simp only
      cases resolve? index (h.listCount v) with
      | none => exact .refl h
      | some i => exact modifyList_leaves _ accepted

-- A list that is sorted by keys is taken out of the heap and put back.
theorem listSort_leaves (h : Heap) (v byKey : Value) : Leaves h (after (listSort v byKey) h) := by
  simp only [after,listSort]
  cases accepted : h.writableList v with
  | error e => exact .refl h
  | ok q =>
      simp only
      cases byKey.isNull with
      | true => exact modifyList_leaves _ accepted
      | false =>
        obtain ⟨list,present,open_⟩ := writableList_open accepted
        have emptied := modifyList_touched (fun l => { l with items := #[] }) present
        exact (emptied.trans (modifyList_touched _ emptied.here)).leaves present open_

theorem mapSet_leaves (h : Heap) (v key value : Value) : Leaves h (after (mapSet v key value) h) := by
  simp only [after,mapSet]
  cases accepted : h.writableMap v with
  | error e => exact .refl h
  | ok q =>
      obtain ⟨table,present,open_⟩ := writableMap_open accepted
      simp only
      cases h.aliasOf? v key with
      | some register => exact .slots rfl
      | none => exact (store_touched key value present).leaves present open_

theorem mapRemove_leaves (h : Heap) (v key : Value) : Leaves h (after (mapRemove v key) h) := by
  simp only [after,mapRemove]
  cases accepted : h.writableMap v with
  | error e => exact .refl h
  | ok q =>
      obtain ⟨table,present,open_⟩ := writableMap_open accepted
      simp only
      cases h.aliasOf? v key with
      | some register => exact .slots rfl
      | none =>
          simp only
          cases h.findCell? v (h.hash key) key with
          | none => exact .refl h
          | some i => exact (modifyTable_touched _ present).leaves present open_

theorem unassignAll_slots (registers : List Nat) (h : Heap) : (registers.foldl unassign h).slots = h.slots := by
  induction registers generalizing h with
  | nil => rfl
  | cons register rest ih => exact ih _

theorem mapClear_leaves (h : Heap) (v : Value) : Leaves h (after (mapClear v) h) := by
  simp only [after,mapClear]
  cases accepted : h.writableMap v with
  | error e => exact .refl h
  | ok q =>
      obtain ⟨table,present,open_⟩ := writableMap_open accepted
      have same := unassignAll_slots (h.aliasRegisters v) h
      have still : ((h.aliasRegisters v).foldl unassign h).object? q = some (.map table) := by
        rw [object?_slots same]
        exact present
      exact (Leaves.slots same).trans ((modifyTable_touched Table.clear still).leaves still open_)

theorem storeAll_touched {h : Heap} {table : Table} (entries : List (Value × Value)) (present : h.object? r = some (.map table)) :
    ∃ table', Touched h (h.storeAll r entries) r (.map table') := by
  induction entries generalizing h table with
  | nil => exact ⟨table,.refl present⟩
  | cons entry rest ih =>
      have first := store_touched entry.1 entry.2 present
      obtain ⟨table',later⟩ := ih first.here
      exact ⟨table',first.trans later⟩

theorem aliased_open {h : Heap} {aliases : Aliases} (bound : (h.table? (.map r)).bind Table.aliases = some aliases) :
    ∃ table, h.object? r = some (.map table) ∧ ¬ (Object.map table).Fixed := by
  obtain ⟨table,found,named⟩ := Option.bind_eq_some_iff.mp bound
  obtain ⟨q,same,present⟩ := table?_object.mp found
  cases same
  refine ⟨table,present,fun fixed => ?_⟩
  rw [fixed.2] at named
  cases named

theorem gather_leaves (h : Heap) (v : Value) : Leaves h (after (gather v) h) := by
  simp only [after,gather]
  cases accepted : h.mapHandle v with
  | error e => exact .refl h
  | ok r =>
      obtain ⟨rfl,_⟩ := mapHandle_parts accepted
      simp only
      cases bound : (h.table? (.map r)).bind Table.aliases with
      | none => exact .refl h
      | some aliases =>
          obtain ⟨table,present,open_⟩ := aliased_open bound
          have detached := modifyTable_touched ({ · with aliases := none }) present
          obtain ⟨table',filled⟩ := storeAll_touched (h.assignedAliases aliases) detached.here
          exact ((detached.trans filled).leaves present open_).recharge r

theorem bindRegister_leaves (h : Heap) (v name : Value) (register : Nat) : Leaves h (after (bindRegister v name register) h) := by
  simp only [after,bindRegister]
  cases accepted : h.mapHandle v with
  | error e => exact .refl h
  | ok r =>
      obtain ⟨rfl,_⟩ := mapHandle_parts accepted
      simp only
      cases aliased : h.isAliasMap (.map r) && (h.aliasOf? (.map r) name).isNone with
      | false => exact .refl h
      | true =>
          have bound : ∃ aliases, (h.table? (.map r)).bind Table.aliases = some aliases := by
            simp only [Bool.and_eq_true,isAliasMap] at aliased
            cases found : h.table? (.map r) with
            | none => simp [found] at aliased
            | some table => exact Option.isSome_iff_exists.mp (by simpa [found] using aliased.1)
          obtain ⟨aliases,bound⟩ := bound
          obtain ⟨table,present,open_⟩ := aliased_open bound
          exact ((modifyTable_touched _ present).leaves present open_).recharge r

theorem freezeObject_fixed {object : Object} (fixed : object.Fixed) : freezeObject object = object := by
  cases object with
  | str | funcRef => rfl
  | list l =>
      have frozen : l.frozen = true := fixed
      simp [freezeObject,← frozen]
  | map t =>
      have frozen : t.frozen = true := fixed.1
      simp [freezeObject,← frozen]

theorem freeze_leaves (h : Heap) (v : Value) : Leaves h (h.freeze v) := by
  intro r object present fixed
  rw [freeze_object,present,Option.map_some,freezeObject_fixed fixed,ite_self]

def Preserves (h h' : Heap) : Prop := ∀ r object, h.Survives r → h.object? r = some object → object.Fixed → h'.object? r = some object

theorem Leaves.preserves (leaves : Leaves h h') : Preserves h h' := fun r object _ present fixed => leaves r object present fixed

theorem Spared.preserves (spared : Spared h h') : Preserves h h' := by
  intro r object survives present _
  rw [spared.extension.objects r survives]
  exact present

theorem Preserves.leaves (preserves : Preserves h h') (leaves : Leaves h' h'') : Preserves h h'' :=
  fun r object survives present fixed => leaves r object (preserves r object survives present fixed) fixed

theorem Spares.preserves {operation : HeapM α} (spares : Spares operation) (intact : h.Intact) : Preserves h (after operation h) :=
  (spares h intact).after.preserves

theorem frozenCopy_preserves {h : Heap} (v : Value) (intact : h.Intact) : Preserves h (after (frozenCopy v) h) := by
  have copied := (copyDeep_spares (h.slots.size + 2) v []).inScope h intact
  have concludes : Concludes (frozenCopy v) h (Preserves h) fun _ _ => True := by
    refine Concludes.get_bind ((copied.since fun _ spared => spared.preserves).bind ?_)
    intro result s preserves _
    exact Concludes.modify_bind (.pure (preserves.leaves (freeze_leaves s _)) trivial)
  exact concludes.after

theorem Call.preserves (call : Call) {h : Heap} (intact : h.Intact) : Preserves h (call.run h) := by
  cases call with
  | protect v => exact (Leaves.slots rfl).preserves
  | unprotect => exact (Leaves.slots (unprotect_apart h).slots).preserves
  | pushScope => exact (Leaves.slots rfl).preserves
  | popScope => exact (Leaves.slots (popScope_apart h).slots).preserves
  | addRoot v => exact (Leaves.slots (addRoot_apart h v).slots).preserves
  | removeRoot id => exact (Leaves.slots (removeRoot_apart h id).slots).preserves
  | unregisterCallback id => exact (Leaves.slots (unregisterCallback_apart h id).slots).preserves
  | setRoot | registerCallback | disable | enable | setStress | resizeRegisters | setRegisterValue | setRegisterName
  | assignRegister | unassign => exact (Leaves.slots rfl).preserves
  | collect => exact (Swept.spared (.single rfl) intact).preserves
  | intern text => exact (intern_spared text intact).preserves
  | newString text => exact (newString_spares text).preserves intact
  | newFuncRef function outer => exact (newFuncRef_spares function outer).preserves intact
  | newList capacity => exact (newListOf_spares #[] capacity).preserves intact
  | newListOf items capacity => exact (newListOf_spares items capacity).preserves intact
  | newMap capacity => exact (newMap_spares capacity).preserves intact
  | newAliasMap first count => exact (newAliasMap_spares first count).preserves intact
  | listSet v index item => exact (listSet_leaves h v index item).preserves
  | listPush v item => exact (updateList_leaves h v _).preserves
  | listPop v => exact (listPop_leaves h v).preserves
  | listPull v => exact (listPull_leaves h v).preserves
  | listInsert v index item => exact (listInsert_leaves h v index item).preserves
  | listRemove v index => exact (listRemove_leaves h v index).preserves
  | listClear v => exact (updateList_leaves h v _).preserves
  | listSlice v start stop => exact (expectItems_spares v fun items => newListOf_spares _ _).preserves intact
  | listConcat a b => exact (listConcat_spares a b).preserves intact
  | listCopy v => exact (expectItems_spares v fun items => newListOf_spares _ _).preserves intact
  | listSort v byKey => exact (listSort_leaves h v byKey).preserves
  | mapSet v key value => exact (mapSet_leaves h v key value).preserves
  | mapRemove v key => exact (mapRemove_leaves h v key).preserves
  | mapClear v => exact (mapClear_leaves h v).preserves
  | mapKeys v =>
      rw [run,after_mapKeys]
      exact (newListOf_spares _ _).preserves intact
  | mapValues v =>
      rw [run,after_mapValues]
      exact (newListOf_spares _ _).preserves intact
  | mapCopy v => exact (mapCopy_spared v intact).after.preserves
  | bindRegister v name register => exact (bindRegister_leaves h v name register).preserves
  | gather v => exact (gather_leaves h v).preserves
  | freeze v => exact (freeze_leaves h v).preserves
  | frozenCopy v => exact frozenCopy_preserves v intact
  | stringConcat a b => exact (stringConcat_spares a b).preserves intact
  | stringSubstring v start count => exact (stringSubstring_spares v start count).preserves intact
  | stringSlice v start stop => exact (stringSlice_spares v start stop).preserves intact
  | stringReplace v old new => exact (stringReplace_spares v old new).preserves intact
  | stringSplit v delimiter => exact (stringSplit_spares v delimiter).preserves intact
  | mapText change v => exact (mapText_spares change v).preserves intact
  | stringRepeat v times => exact (stringRepeat_spares v times).preserves intact
  | toStringValue v => exact (toStringValue_spares v).preserves intact
  | add a b => exact (add_spares a b).preserves intact
  | mult a b => exact (mult_spares a b).preserves intact
  | div a b => exact (div_spares a b).preserves intact

-- What changes a list or a map in place.
inductive Mutates (v : Value) : {α : Type} → HeapM α → Prop where
  | listSet : Mutates v (listSet v index item)
  | listPush : Mutates v (listPush v item)
  | listPop : Mutates v (listPop v)
  | listPull : Mutates v (listPull v)
  | listInsert : Mutates v (listInsert v index item)
  | listRemove : Mutates v (listRemove v index)
  | listClear : Mutates v (listClear v)
  | listSort : Mutates v (listSort v byKey)
  | mapSet : Mutates v (mapSet v key value)
  | mapRemove : Mutates v (mapRemove v key)
  | mapClear : Mutates v (mapClear v)

theorem writableList_fixed {h : Heap} {object : Object} (handle : v.handle? = some r) (present : h.object? r = some object)
    (fixed : object.Fixed) : ∃ e, h.writableList v = .error e := by
  cases accepted : h.writableList v with
  | error e => exact ⟨e,rfl⟩
  | ok q =>
      obtain ⟨rfl,_⟩ := writableList_parts accepted
      obtain ⟨list,listed,open_⟩ := writableList_open accepted
      cases handle
      rw [present] at listed
      cases listed
      exact absurd fixed open_

theorem writableMap_fixed {h : Heap} {object : Object} (handle : v.handle? = some r) (present : h.object? r = some object)
    (fixed : object.Fixed) : ∃ e, h.writableMap v = .error e := by
  cases accepted : h.writableMap v with
  | error e => exact ⟨e,rfl⟩
  | ok q =>
      obtain ⟨rfl,_⟩ := writableMap_parts accepted
      obtain ⟨table,mapped,open_⟩ := writableMap_open accepted
      cases handle
      rw [present] at mapped
      cases mapped
      exact absurd fixed open_

theorem Mutates.fails {operation : HeapM α} {h : Heap} {object : Object} (mutates : Mutates v operation) (handle : v.handle? = some r)
    (present : h.object? r = some object) (fixed : object.Fixed) : ∃ e, operation h = .error e h := by
  obtain ⟨e,list⟩ := writableList_fixed handle present fixed
  obtain ⟨e',map⟩ := writableMap_fixed handle present fixed
  cases mutates with
  | listSet | listPop | listPull | listRemove | listSort =>
      refine ⟨e,?_⟩
      simp only [Heap.listSet,Heap.listPop,Heap.listPull,Heap.listRemove,Heap.listSort,list]
  | listPush | listClear =>
      refine ⟨e,?_⟩
      simp only [Heap.listPush,Heap.listClear,updateList,list]
  | mapSet | mapRemove | mapClear =>
      refine ⟨e',?_⟩
      simp only [Heap.mapSet,Heap.mapRemove,Heap.mapClear,map]
  | @listInsert index =>
      -- The range of the index is looked at before the flag.
      simp only [Heap.listInsert]
      generalize (if index.toInt < 0 then index.toInt + h.listCount v + 1 else index.toInt) = i
      by_cases outside : i < 0 ∨ i > h.listCount v
      · rw [if_pos outside]
        cases h.listHandle v with
        | error e'' => exact ⟨e'',rfl⟩
        | ok q => exact ⟨_,rfl⟩
      · rw [if_neg outside]
        exact ⟨e,by simp only [updateList,list]⟩

-- A value whose object, if it has one, is kept by the roots.
def Rooted (h : Heap) (v : Value) : Prop := ∀ r, v.handle? = some r → h.isLive r = true → h.Survives r

-- No map inside the value is bound to registers.
def Unbound (h : Heap) (v : Value) : Prop := ∀ r table, Contains h v r → h.object? r = some (.map table) → table.aliases = none

-- Everything inside the value is as the value's freezing left it.
def Frozen (h : Heap) (v : Value) (s : Heap) : Prop :=
  ∀ r object, Contains h v r → h.object? r = some object → s.object? r = some (freezeObject object)

theorem Unbound.fixed {object : Object} (unbound : Unbound h v) (contains : Contains h v r) (present : h.object? r = some object) :
    (freezeObject object).Fixed := by
  cases object with
  | str | funcRef => trivial
  | list l => exact rfl
  | map t => exact ⟨rfl,unbound r t contains present⟩

theorem refers_freezeObject {object : Object} (refers : object.Refers w) : (freezeObject object).Refers w := by
  cases refers with
  | item member => exact .item member
  | key present => exact .key present
  | value present => exact .value present
  | aliased bound member => exact .aliased bound member
  | outer => exact .outer

theorem contents_refers {h : Heap} {object : Object} (present : h.object? q = some object)
    (plain : ∀ table, object = .map table → table.aliases = none) (member : w ∈ h.contents q) : object.Refers w := by
  cases object with
  | str | funcRef =>
      simp only [contents,present] at member
      cases member
  | list l =>
      simp only [contents,present] at member
      exact .item (Array.mem_toList_iff.mp member)
  | map t =>
      have found : h.table? (.map q) = some t := by simp only [table?,present]
      simp only [contents,present,mapEntries,found,aliasEntries,plain t rfl,List.nil_append] at member
      obtain ⟨⟨key,value⟩,entered,either⟩ := List.mem_flatMap.mp member
      obtain ⟨entry,listed,same⟩ := List.mem_map.mp entered
      cases same
      have cell := Table.mem_entries.mp listed
      rcases List.mem_cons.mp either with rfl | last
      · exact .key cell
      · rw [List.mem_singleton.mp last]
        exact .value cell

-- The roots lead through the value to what it contains.
theorem Contains.survives (contains : Contains h v r) (unbound : Unbound h v) (frozen : Frozen h v s) (intact : s.Intact)
    (rooted : s.Rooted v) : s.Survives r := by
  have still : ∀ r, Contains h v r → s.isLive r = true := by
    intro r inside
    obtain ⟨object,present⟩ := Option.isSome_iff_exists.mp inside.live
    rw [isLive,frozen r object inside present]
    rfl
  induction contains with
  | self handle live => exact rooted _ handle (still _ (.self handle live))
  | @part q w r inside member handle live ih =>
      obtain ⟨object,present⟩ := Option.isSome_iff_exists.mp inside.live
      have refers := refers_freezeObject (contents_refers present (fun t same => unbound q t inside (same ▸ present)) member)
      have here := frozen q object inside present
      rcases ih with ⟨slot,found,generation,immortal⟩ | reached
      · obtain ⟨text,content⟩ := intact.eternal _ slot found immortal
        rw [object?_slot.mpr ⟨slot,found,generation,content⟩] at here
        rw [← Option.some.inj here] at refers
        cases refers
      · exact Or.inr (.refers reached here refers handle (still r (.part inside member handle live)))

theorem freeze_frozen (h : Heap) (v : Value) : Frozen h v (h.freeze v) := fun _ _ contains present => freeze_contained contains present

theorem Frozen.call (frozen : Frozen h v s) (unbound : Unbound h v) (intact : s.Intact) (rooted : s.Rooted v) (call : Call) :
    Frozen h v (call.run s) := by
  intro r object contains present
  exact call.preserves intact r _ (contains.survives unbound frozen intact rooted) (frozen r object contains present)
    (unbound.fixed contains present)

theorem Frozen.calls (frozen : Frozen h v s) (unbound : Unbound h v) (reachable : Reachable s) (calls : List Call)
    (rooted : ∀ before, before <+: calls → (before.foldl Call.run s).Rooted v) : Frozen h v (calls.foldl Call.run s) := by
  induction calls generalizing s with
  | nil => exact frozen
  | cons call rest ih =>
      have first := frozen.call unbound reachable.intact (rooted [] List.nil_prefix) call
      refine ih first (.call call reachable) fun before isPrefix => ?_
      exact rooted (call :: before) (List.cons_prefix_cons.mpr ⟨rfl,isPrefix⟩)

-- Freezing reaches everything inside the value, cycles included, touches nothing else, and lasts.
theorem freeze_lasts {h : Heap} (reachable : Reachable h) (unbound : Unbound h v) :
    (∃ slots, h.freeze v = { h with slots } ∧ slots.size = h.slots.size ∧
      ∀ (i : Nat) slot, h.slots[i]? = some slot →
        (Contains h v ⟨i,slot.generation⟩ → slots[i]? = some { slot with object := slot.object.map freezeObject }) ∧
        (¬ Contains h v ⟨i,slot.generation⟩ → slots[i]? = some slot)) ∧
      ∀ calls : List Call, (∀ before, before <+: calls → (before.foldl Call.run (h.freeze v)).Rooted v) →
        ∀ r object, Contains h v r → h.object? r = some object →
          (calls.foldl Call.run (h.freeze v)).object? r = some (freezeObject object) ∧
            ∀ w, w.handle? = some r → ∀ α (operation : HeapM α), Mutates w operation →
              ∃ e, operation (calls.foldl Call.run (h.freeze v)) = .error e (calls.foldl Call.run (h.freeze v)) := by
  refine ⟨⟨(h.freeze v).slots,rfl,?_,fun i slot present => freeze_slot v present⟩,?_⟩
  · simp only [freeze,Array.size_mapIdx]
  · intro calls rooted r object contains present
    have lasting := (freeze_frozen h v).calls unbound (.call (.freeze v) reachable) calls rooted r object contains present
    refine ⟨lasting,fun w handle α operation mutates => ?_⟩
    exact mutates.fails handle lasting (unbound.fixed contains present)

-- Maps checked slot by slot.
def unboundContent (content : Option Object) : Bool :=
  match content with
  | some (.map table) => table.aliases.isNone
  | _ => true

theorem unbound_slots {h : Heap} (unbound : ∀ slot ∈ h.slots, unboundContent slot.object = true) (v : Value) : h.Unbound v := by
  intro r table _ present
  obtain ⟨slot,there,_,content⟩ := object?_slot.mp present
  have checked := unbound slot (Array.mem_of_getElem? there)
  simpa [unboundContent,content] using checked

-- A map and a list that hold each other, and attempts to change both.
def mutualPair : Heap :=
  [.newMap 4,.newList 0,.mapSet (.map ⟨0,0⟩) (.shortText "pair") (.list ⟨1,0⟩),.listPush (.list ⟨1,0⟩) (.map ⟨0,0⟩),
    .protect (.map ⟨0,0⟩)].foldl Call.run (.new {})

def attempts : List Call :=
  [.collect,.listPush (.list ⟨1,0⟩) .null,.mapClear (.map ⟨0,0⟩),.frozenCopy (.list ⟨1,0⟩),.listSort (.list ⟨1,0⟩) (.shortText "pair"),
    .newList 0,.listPop (.list ⟨1,0⟩),.collect]

theorem freeze_lasts_cycle :
    let h := attempts.foldl Call.run (mutualPair.freeze (.map ⟨0,0⟩))
    h.object? ⟨1,0⟩ = some (.list ⟨#[.map ⟨0,0⟩],4,true⟩) ∧ (h.history.size = 2) ∧
      ∃ e, listPull (.list ⟨1,0⟩) h = .error e h := by
  have whole : Contains mutualPair (.map ⟨0,0⟩) ⟨0,0⟩ := .self rfl (by decide +kernel)
  have item : Contains mutualPair (.map ⟨0,0⟩) ⟨1,0⟩ :=
    .part whole (show Value.list ⟨1,0⟩ ∈ mutualPair.contents ⟨0,0⟩ by decide +kernel) rfl (by decide +kernel)
  have unbound : Unbound mutualPair (.map ⟨0,0⟩) := unbound_slots (by decide +kernel) _
  have held : ∀ n ≤ attempts.length, Value.map ⟨0,0⟩ ∈ ((attempts.take n).foldl Call.run (mutualPair.freeze (.map ⟨0,0⟩))).shadow ∧
      ((attempts.take n).foldl Call.run (mutualPair.freeze (.map ⟨0,0⟩))).isLive ⟨0,0⟩ = true := by
    decide +kernel
  obtain ⟨_,lasting⟩ := freeze_lasts (Reachable.calls _ (.new {})) unbound
  have kept := lasting attempts (fun before isPrefix r handle _ => ?_) ⟨1,0⟩ (.list ⟨#[.map ⟨0,0⟩],4,false⟩) item (by decide +kernel)
  · exact ⟨kept.1,by decide +kernel,kept.2 (.list ⟨1,0⟩) rfl _ _ .listPull⟩
  · obtain ⟨shadow,live⟩ := held before.length isPrefix.length_le
    rw [← List.prefix_iff_eq_take.mp isPrefix] at shadow live
    cases handle
    exact Or.inr (.root (.shadow shadow) rfl live)

end Heap

end RegisterMachine
