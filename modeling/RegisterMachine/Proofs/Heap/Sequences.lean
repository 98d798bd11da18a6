import RegisterMachine.Proofs.Heap.Shortage

namespace RegisterMachine.Heap

-- Indices that fall on one of a number of places.
def InRange (places : Nat) (index : Int32) : Prop := -places ≤ index.toInt ∧ index.toInt < places

-- The place that an index denotes, counted from the front or from the end.
def Denotes (places : Nat) (index : Int32) (k : Nat) : Prop := k < places ∧ (index.toInt = k ∨ index.toInt = k - places)

-- Where a bound of a slice falls. Before the first item is at the first, and after the last is behind it.
def bound (length : Nat) (index : Int32) : Nat :=
  if 0 ≤ index.toInt then min index.toInt.toNat length else length - index.toInt.natAbs

theorem Denotes.unique (first : Denotes places index j) (second : Denotes places index k) : j = k := by
  obtain ⟨_,first⟩ := first
  obtain ⟨_,second⟩ := second
  omega

theorem resolve?_denotes (within : InRange length index) : ∃ k, Denotes length index k ∧ resolve? index length = some k := by
  obtain ⟨low,high⟩ := within
  simp only [resolve?,Denotes]
  by_cases negative : index.toInt < 0
  · refine ⟨(index.toInt + length).toNat,by omega,?_⟩
    simp only [if_pos negative]
    rw [if_pos (by omega)]
  · refine ⟨index.toInt.toNat,by omega,?_⟩
    simp only [if_neg negative]
    rw [if_pos (by omega)]

theorem resolve?_outside (outside : ¬ InRange length index) : resolve? index length = none := by
  simp only [InRange] at outside
  simp only [resolve?]
  rw [if_neg]
  split <;> omega

theorem clampIndex_bound (index : Int32) (length : Nat) : clampIndex index length = bound length index := by
  simp only [clampIndex,bound]
  split <;> split <;> omega

-- What is seen of a list. A position that is looked for is the first one of an item of equal content.
structure ReadsAs (h : Heap) (v : Value) (items : List Value) : Prop where
  get : ∀ index, InRange items.length index →
    ∃ k item, Denotes items.length index k ∧ items[k]? = some item ∧ h.listGet v index = .ok item
  getOutside : ∀ index, ¬ InRange items.length index → h.listGet v index = .error (.indexOutOfRange index.toInt items.length)
  found : ∀ item start k, h.listIndexOf? v item start = some k ↔ start ≤ k ∧ (∃ other, items[k]? = some other ∧ h.equal other item = true) ∧
    ∀ j other, start ≤ j → j < k → items[j]? = some other → h.equal other item = false
  missing : ∀ item start, h.listIndexOf? v item start = none ↔ ∀ j other, start ≤ j → items[j]? = some other → h.equal other item = false

-- An operation that makes a list of some items, unless memory runs out. What is in use stays as it is either way.
def Creates (operation : HeapM Value) (h : Heap) (items : List Value) : Prop :=
  match operation h with
  | .ok v s => Unharmed h s ∧ ∃ r list, v = .list r ∧ ¬ h.Survives r ∧ s.object? r = some (.list list) ∧
      list.items.toList = items ∧ list.frozen = false
  | .error e s => Unharmed h s ∧ ∃ bytes limit, e = .outOfMemory bytes ∧ h.config.maxBytes = some limit ∧ limit < s.bytes + bytes

-- The lists that are made of a list.
structure MakesFrom (h : Heap) (v : Value) (items : List Value) : Prop where
  slice : ∀ start stop, Creates (listSlice v start stop) h
    (if bound items.length stop ≤ bound items.length start then []
      else (items.take (bound items.length stop)).drop (bound items.length start))
  concat : ∀ r other, h.object? r = some (.list other) → Creates (listConcat v (.list r)) h (items ++ other.items.toList)
  copy : Creates (listCopy v) h items

-- An operation that has an answer and changes nothing but the items of one list.
def Resequences (operation : HeapM α) (h : Heap) (r : Handle) (answer : α) (items : List Value) : Prop :=
  ∃ h' list, operation h = .ok answer h' ∧ Touched h h' r (.list list) ∧ list.items.toList = items ∧ list.frozen = false

-- What changes a list that is not frozen. An insertion has a place before each item and one behind the last.
structure EditsAs (h : Heap) (r : Handle) (items : List Value) : Prop where
  set : ∀ index item, InRange items.length index →
    ∃ k, Denotes items.length index k ∧ Resequences (listSet (.list r) index item) h r () (items.set k item)
  setOutside : ∀ index item, ¬ InRange items.length index →
    listSet (.list r) index item h = .error (.indexOutOfRange index.toInt items.length) h
  push : ∀ item, Resequences (listPush (.list r) item) h r () (items ++ [item])
  pop : Resequences (listPop (.list r)) h r (items.getLast?.getD .null) items.dropLast
  pull : Resequences (listPull (.list r)) h r (items.head?.getD .null) items.tail
  insert : ∀ index item, InRange (items.length + 1) index →
    ∃ k, Denotes (items.length + 1) index k ∧ Resequences (listInsert (.list r) index item) h r () (items.insertIdx k item)
  insertOutside : ∀ index item, ¬ InRange (items.length + 1) index →
    listInsert (.list r) index item h = .error (.indexOutOfRange index.toInt items.length) h
  remove : ∀ index, InRange items.length index →
    ∃ k, Denotes items.length index k ∧ Resequences (listRemove (.list r) index) h r true (items.eraseIdx k)
  removeOutside : ∀ index, ¬ InRange items.length index → listRemove (.list r) index h = .ok false h
  clear : Resequences (listClear (.list r)) h r () []

-- What changes lists refuses one that is frozen, and the heap stays as it is. An insertion looks at its index before.
structure RefusesEdits (h : Heap) (v : Value) (length : Nat) : Prop where
  set : ∀ index item, listSet v index item h = .error (.frozenMutation "list") h
  push : ∀ item, listPush v item h = .error (.frozenMutation "list") h
  pop : listPop v h = .error (.frozenMutation "list") h
  pull : listPull v h = .error (.frozenMutation "list") h
  insert : ∀ index item, InRange (length + 1) index → listInsert v index item h = .error (.frozenMutation "list") h
  insertOutside : ∀ index item, ¬ InRange (length + 1) index → listInsert v index item h = .error (.indexOutOfRange index.toInt length) h
  remove : ∀ index, listRemove v index h = .error (.frozenMutation "list") h
  clear : listClear v h = .error (.frozenMutation "list") h
  sort : ∀ byKey, listSort v byKey h = .error (.frozenMutation "list") h

theorem newListOf_creates {h : Heap} (items : Array Value) (capacity : Nat) (intact : h.Intact) :
    Creates (newListOf items capacity) h items.toList := by
  unfold Creates
  cases done : newListOf items capacity h with
  | ok v s =>
      obtain ⟨spared,q,rfl,made,fresh,roots⟩ := (newListOf_spared items capacity intact).ok done
      exact ⟨spared.unharmed roots.balanced,q,_,rfl,fresh,made,rfl,rfl⟩
  | error e s =>
      have failed : allocate (.list (.ofItems items capacity)) h = .error e s := by
        simp only [newListOf,Functor.map,EStateM.map] at done
        split at done
        · cases done
        · cases done
          assumption
      obtain ⟨rfl,rfl,limit,bounded,full⟩ := allocate_error.mp failed
      exact ⟨Swept.unharmed ((collectIfDue_swept h).tail rfl) intact,_,limit,rfl,bounded,full⟩

theorem extract_slice (items : Array Value) (start stop : Nat) :
    (items.extract start stop).toList = if stop ≤ start then [] else (items.toList.take stop).drop start := by
  rw [Array.toList_extract,List.extract_eq_take_drop]
  split
  · rename_i backwards
    rw [Nat.sub_eq_zero_of_le backwards,List.take_zero]
  · rw [List.drop_take]

theorem Resequences.modify {h : Heap} {list : ListObject} {operation : HeapM α} {change : ListObject → ListObject}
    (present : h.object? r = some (.list list)) (open_ : list.frozen = false) (done : operation h = .ok answer (h.modifyList r change))
    (same : (change list).items.toList = items) (still : (change list).frozen = list.frozen) : Resequences operation h r answer items :=
  ⟨_,_,done,modifyList_touched change present,same,still.trans open_⟩

theorem Resequences.update {h : Heap} {list : ListObject} {change : ListObject → ListObject}
    (present : h.object? r = some (.list list)) (open_ : list.frozen = false) (same : (change list).items.toList = items)
    (still : (change list).frozen = list.frozen) : Resequences (updateList (.list r) change) h r () items := by
  obtain ⟨h',done,touched,_⟩ := updateList_result change present open_
  exact ⟨h',_,done,touched,same,still.trans open_⟩

theorem Resequences.outcome {operation operation' : HeapM α} (resequences : Resequences operation h r answer items)
    (same : operation' h = operation h) : Resequences operation' h r answer items := by
  rwa [Resequences,same]

theorem listInsert_place {h : Heap} (counted : h.listCount v = length) (item : Value) (within : InRange (length + 1) index) :
    ∃ k, Denotes (length + 1) index k ∧ listInsert v index item h = updateList v (·.insertAt k item) h := by
  obtain ⟨low,high⟩ := within
  simp only [listInsert,counted,Denotes]
  by_cases negative : index.toInt < 0
  · refine ⟨(index.toInt + length + 1).toNat,by omega,?_⟩
    simp only [if_pos negative]
    rw [if_neg (by omega)]
  · refine ⟨index.toInt.toNat,by omega,?_⟩
    simp only [if_neg negative]
    rw [if_neg (by omega)]

theorem listInsert_outside {h : Heap} (counted : h.listCount v = length) (item : Value) (outside : ¬ InRange (length + 1) index)
    (live : h.listHandle v = .ok r) : listInsert v index item h = .error (.indexOutOfRange index.toInt length) h := by
  simp only [InRange] at outside
  simp only [listInsert,counted,live]
  rw [if_pos]
  split <;> omega

theorem insertAt_items {list : ListObject} (item : Value) (within : k ≤ list.items.size) :
    (list.insertAt k item).items.toList = list.items.toList.insertIdx k item := by
  simp only [ListObject.insertAt,Array.insertIdxIfInBounds]
  rw [dif_pos within,Array.toList_insertIdx]

theorem removeAt_items (list : ListObject) (k : Nat) : (list.removeAt k).items.toList = list.items.toList.eraseIdx k :=
  Array.toList_eraseIdxIfInBounds

section

variable {h : Heap} {list : ListObject} (present : h.object? r = some (.list list))
include present

theorem expectItems_list : h.expectItems (.list r) = .ok list.items := by simp only [expectItems,items?_list present]

theorem listCount_list : h.listCount (.list r) = list.items.toList.length := by simp [listCount,list?,present]

theorem listHandle_list : h.listHandle (.list r) = .ok r := by simp [listHandle,isLive,present]

theorem writableList_unfrozen (open_ : list.frozen = false) : h.writableList (.list r) = .ok r := by
  simp [writableList,listHandle,isLive,list?,present,open_]

theorem writableList_frozen (frozen : list.frozen = true) : h.writableList (.list r) = .error (.frozenMutation "list") := by
  simp [writableList,listHandle,isLive,list?,present,frozen]

theorem listIndexOf?_eq (item : Value) (start : Nat) :
    h.listIndexOf? (.list r) item start = ((list.items.toList.drop start).findIdx? (h.equal · item)).map (start + ·) := by
  simp only [listIndexOf?,items?_list present,Option.bind_some]

theorem listIndexOf?_found (item : Value) (start k : Nat) : h.listIndexOf? (.list r) item start = some k ↔
    start ≤ k ∧ (∃ other, list.items.toList[k]? = some other ∧ h.equal other item = true) ∧
      ∀ j other, start ≤ j → j < k → list.items.toList[j]? = some other → h.equal other item = false := by
  rw [listIndexOf?_eq present,Option.map_eq_some_iff]
  constructor
  · rintro ⟨i,found,rfl⟩
    obtain ⟨inside,equal,before⟩ := List.findIdx?_eq_some_iff_getElem.mp found
    rw [List.getElem_drop] at equal
    refine ⟨Nat.le_add_right _ _,⟨_,List.getElem?_eq_getElem _,equal⟩,?_⟩
    intro j other late early there
    obtain ⟨_,rfl⟩ := List.getElem?_eq_some_iff.mp there
    have unequal := before (j - start) (by omega)
    rw [List.getElem_drop] at unequal
    simpa only [Nat.add_sub_cancel' late,Bool.not_eq_true] using unequal
  · rintro ⟨late,⟨other,there,equal⟩,before⟩
    obtain ⟨inside,rfl⟩ := List.getElem?_eq_some_iff.mp there
    refine ⟨k - start,List.findIdx?_eq_some_iff_getElem.mpr ⟨?_,?_,?_⟩,Nat.add_sub_cancel' late⟩
    · rw [List.length_drop]
      omega
    · simpa only [List.getElem_drop,Nat.add_sub_cancel' late] using equal
    · intro j early
      rw [List.getElem_drop,Bool.not_eq_true]
      exact before (start + j) _ (Nat.le_add_right _ _) (by omega) (List.getElem?_eq_getElem _)

theorem listIndexOf?_missing (item : Value) (start : Nat) : h.listIndexOf? (.list r) item start = none ↔
    ∀ j other, start ≤ j → list.items.toList[j]? = some other → h.equal other item = false := by
  rw [listIndexOf?_eq present,Option.map_eq_none_iff,List.findIdx?_eq_none_iff]
  constructor
  · intro unequal j other late there
    refine unequal other (List.mem_of_getElem? (i := j - start) ?_)
    rw [List.getElem?_drop,Nat.add_sub_cancel' late,there]
  · intro unequal other member
    obtain ⟨j,there⟩ := List.mem_iff_getElem?.mp member
    rw [List.getElem?_drop] at there
    exact unequal (start + j) other (Nat.le_add_right _ _) there

theorem list_reads : ReadsAs h (.list r) list.items.toList where
  get := by
    intro index within
    obtain ⟨k,denotes,resolved⟩ := resolve?_denotes within
    have inside := denotes.1
    have there : list.items[k]? = some list.items.toList[k] := by rw [← Array.getElem?_toList,List.getElem?_eq_getElem inside]
    refine ⟨k,_,denotes,List.getElem?_eq_getElem inside,?_⟩
    rw [Array.length_toList] at resolved
    simp only [listGet,expectItems_list present,bind,Except.bind,resolved,Option.bind_some,there]
  getOutside := by
    intro index outside
    have unresolved := resolve?_outside outside
    rw [Array.length_toList] at unresolved
    simp only [listGet,expectItems_list present,bind,Except.bind,unresolved,Option.bind_none,Array.length_toList]
  found := listIndexOf?_found present
  missing := listIndexOf?_missing present

theorem list_makes (intact : h.Intact) : MakesFrom h (.list r) list.items.toList where
  slice := by
    intro start stop
    have made := newListOf_creates (h := h) (list.items.extract (clampIndex start list.items.size) (clampIndex stop list.items.size))
      (list.items.extract (clampIndex start list.items.size) (clampIndex stop list.items.size)).size intact
    rw [extract_slice,clampIndex_bound,clampIndex_bound] at made
    simpa only [Creates,listSlice,expectItems_list present,listOfItems,clampIndex_bound,Array.length_toList] using made
  concat := by
    intro q other there
    have made := newListOf_creates (h := h) (list.items ++ other.items)
      (Capacity.grown list.items.size (list.items.size + other.items.size)) intact
    rw [Array.toList_append] at made
    simpa only [Creates,listConcat,expectItems_list present,items?_list there,Option.getD_some] using made
  copy := by
    have made := newListOf_creates list.items list.items.size intact
    simpa only [Creates,listCopy,expectItems_list present,listOfItems] using made

theorem list_edits (open_ : list.frozen = false) : EditsAs h r list.items.toList where
  set := by
    intro index item within
    obtain ⟨k,denotes,resolved⟩ := resolve?_denotes within
    have done : listSet (.list r) index item h = .ok () (h.modifyList r fun l => { l with items := l.items.setIfInBounds k item }) := by
      simp only [listSet,writableList_unfrozen present open_,listCount_list present,resolved]
    exact ⟨k,denotes,.modify present open_ done Array.toList_setIfInBounds rfl⟩
  setOutside := by
    intro index item outside
    simp only [listSet,writableList_unfrozen present open_,listCount_list present,resolve?_outside outside]
  push := fun item => .update present open_ Array.toList_push rfl
  pop := by
    have done : listPop (.list r) h = .ok (list.items.toList.getLast?.getD .null) (h.modifyList r fun l => { l with items := l.items.pop }) := by
      simp only [listPop,writableList_unfrozen present open_,items?_list present,Option.bind_some,Array.getLast?_toList]
    exact .modify present open_ done Array.toList_pop rfl
  pull := by
    have done : listPull (.list r) h = .ok (list.items.toList.head?.getD .null) (h.modifyList r (·.removeAt 0)) := by
      simp only [listPull,writableList_unfrozen present open_,items?_list present,Option.bind_some,List.head?_eq_getElem?,
        Array.getElem?_toList]
    exact .modify present open_ done ((removeAt_items list 0).trans List.eraseIdx_zero) rfl
  insert := by
    intro index item within
    obtain ⟨k,denotes,placed⟩ := listInsert_place (listCount_list present) item within
    exact ⟨k,denotes,.outcome (.update present open_ (insertAt_items item (Nat.le_of_lt_succ denotes.1)) rfl) placed⟩
  insertOutside := fun index item outside => listInsert_outside (listCount_list present) item outside (listHandle_list present)
  remove := by
    intro index within
    obtain ⟨k,denotes,resolved⟩ := resolve?_denotes within
    have done : listRemove (.list r) index h = .ok true (h.modifyList r (·.removeAt k)) := by
      simp only [listRemove,writableList_unfrozen present open_,listCount_list present,resolved]
    exact ⟨k,denotes,.modify present open_ done (removeAt_items list k) rfl⟩
  removeOutside := by
    intro index outside
    simp only [listRemove,writableList_unfrozen present open_,listCount_list present,resolve?_outside outside]
  clear := .update present open_ rfl rfl

theorem list_refuses (frozen : list.frozen = true) : RefusesEdits h (.list r) list.items.toList.length where
  set := by simp only [listSet,writableList_frozen present frozen,implies_true]
  push := by simp only [listPush,updateList,writableList_frozen present frozen,implies_true]
  pop := by simp only [listPop,writableList_frozen present frozen]
  pull := by simp only [listPull,writableList_frozen present frozen]
  insert := by
    intro index item within
    obtain ⟨k,_,placed⟩ := listInsert_place (listCount_list present) item within
    simp only [placed,updateList,writableList_frozen present frozen]
  insertOutside := fun index item outside => listInsert_outside (listCount_list present) item outside (listHandle_list present)
  remove := by simp only [listRemove,writableList_frozen present frozen,implies_true]
  clear := by simp only [listClear,updateList,writableList_frozen present frozen]
  sort := by simp only [listSort,writableList_frozen present frozen,implies_true]

end

-- Lists are sequences.
theorem list_sequence {h : Heap} {list : ListObject} (intact : h.Intact) (present : h.object? r = some (.list list)) :
    ReadsAs h (.list r) list.items.toList ∧ MakesFrom h (.list r) list.items.toList ∧
      (list.frozen = false → EditsAs h r list.items.toList) ∧
      (list.frozen = true → RefusesEdits h (.list r) list.items.toList.length) :=
  ⟨list_reads present,list_makes present intact,list_edits present,list_refuses present⟩

-- A list of three and a frozen one of one item, at the outermost indices and beyond them.
theorem list_sequence_three : ∃ h, Reachable h ∧
    h.object? ⟨0,0⟩ = some (.list ⟨#[.int 40],1,true⟩) ∧ h.object? ⟨1,0⟩ = some (.list ⟨#[.int 10,.int 20,.int 30],3,false⟩) ∧
    h.listGet (.list ⟨1,0⟩) (-3) = .ok (.int 10) ∧ h.listGet (.list ⟨1,0⟩) (-4) = .error (.indexOutOfRange (-4) 3) ∧
    Resequences (listInsert (.list ⟨1,0⟩) (-4) (.int 5)) h ⟨1,0⟩ () [.int 5,.int 10,.int 20,.int 30] ∧
    listRemove (.list ⟨1,0⟩) Int32.minValue h = .ok false h ∧
    Creates (listSlice (.list ⟨1,0⟩) (-2) Int32.maxValue) h [.int 20,.int 30] ∧
    Creates (listConcat (.list ⟨1,0⟩) (.list ⟨0,0⟩)) h [.int 10,.int 20,.int 30,.int 40] ∧
    listPush (.list ⟨0,0⟩) .null h = .error (.frozenMutation "list") h := by
  have frozen := Reachable.call (.freeze (.list ⟨0,0⟩)) (.call (.newListOf #[.int 40] 1) (.new {}))
  have reachable := Reachable.call (.newListOf #[.int 10,.int 20,.int 30] 3) frozen
  generalize whole : Call.run _ _ = h at reachable
  have first : h.object? ⟨0,0⟩ = some (.list ⟨#[.int 40],1,true⟩) := by
    rw [← whole]
    decide +kernel
  have second : h.object? ⟨1,0⟩ = some (.list ⟨#[.int 10,.int 20,.int 30],3,false⟩) := by
    rw [← whole]
    decide +kernel
  obtain ⟨reads,makes,edits,_⟩ := list_sequence reachable.intact second
  obtain ⟨_,_,_,refuses⟩ := list_sequence reachable.intact first
  obtain ⟨k,item,denotes,there,got⟩ := reads.get (-3) ⟨by decide,by decide⟩
  obtain ⟨j,denotes',inserted⟩ := (edits rfl).insert (-4) (.int 5) ⟨by decide,by decide⟩
  cases denotes.unique (k := 0) ⟨by decide,by decide⟩
  cases denotes'.unique (k := 0) ⟨by decide,by decide⟩
  cases there
  exact ⟨h,reachable,first,second,got,reads.getOutside (-4) (by simp [InRange]),inserted,
    (edits rfl).removeOutside Int32.minValue (by simp [InRange]),makes.slice (-2) Int32.maxValue,makes.concat _ _ first,
    (refuses rfl).push .null⟩

end RegisterMachine.Heap
