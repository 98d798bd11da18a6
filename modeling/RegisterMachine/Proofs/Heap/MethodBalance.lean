import RegisterMachine.Proofs.Heap.Balance
import RegisterMachine.Proofs.Heap.Receivers

namespace RegisterMachine.Heap

theorem removeText_tends (v pattern : Value) : Tends level (removeText v pattern) := by
  unfold removeText
  apply Tends.get_bind
  intro h
  split
  · exact .pure v
  · apply Tends.inScope
    refine (stringSubstring_tends _ _ _).bind fun head => (protecting_tends head).bind fun _ => ?_
    refine (stringSlice_tends _ _ _).bind fun tail => (protecting_tends tail).bind fun _ => ?_
    exact stringConcat_tends head tail

theorem removeFrom_tends (v key : Value) : Tends level (removeFrom v key) := by
  unfold removeFrom
  split
  · exact (listRemove_tends _ _).map _
  · exact (mapRemove_tends _ key).map _
  · exact removeText_tends _ _
  · exact removeText_tends _ _
  · exact .throw _

theorem pushOnto_tends (v item : Value) : Tends level (pushOnto v item) := by
  unfold pushOnto
  split
  · exact (updateList_tends _ _).bind fun _ => .pure _
  · exact (mapSet_tends _ item _).bind fun _ => .pure _
  · exact .throw _

-- The key that is taken out is protected until it is gone from the map, and released also when
-- removing it fails.
theorem takeFirstKey_tends (v : Value) : Tends level (takeFirstKey v) := by
  intro h
  simp only [after,takeFirstKey]
  cases h.nthEntry? v 0 with
  | none => exact .refl h
  | some entry =>
      have removed : Tended True (h.protect entry.1) (after (mapRemove v entry.1) (h.protect entry.1)) := mapRemove_tends _ _ _
      simp only [after] at removed ⊢
      cases result : mapRemove v entry.1 (h.protect entry.1) with
      | ok flag s =>
          rw [result] at removed
          exact removed.unprotect
      | error e s =>
          rw [result] at removed
          exact removed.unprotect

theorem popFrom_tends (v : Value) : Tends level (popFrom v) := by
  unfold popFrom
  split
  · exact listPop_tends _
  · exact takeFirstKey_tends _
  · exact .pure _

theorem pullFrom_tends (v : Value) : Tends level (pullFrom v) := by
  unfold pullFrom
  split
  · exact listPull_tends _
  · exact takeFirstKey_tends _
  · exact .pure _

theorem insertText_tends (v index inserted : Value) : Tends level (insertText v index inserted) := by
  unfold insertText
  apply Tends.get_bind
  intro h
  simp only
  generalize (if index.asInt.toInt < 0 then index.asInt.toInt + h.stringLength v + 1 else index.asInt.toInt) = i
  split
  · exact .throw _
  · exact newString_tends _

theorem insertInto_tends (v index inserted : Value) : Tends level (insertInto v index inserted) := by
  unfold insertInto
  split
  · exact (listInsert_tends _ _ _).bind fun _ => .pure _
  · exact insertText_tends _ _ _
  · exact insertText_tends _ _ _
  · exact .throw _

theorem indexesOf_tends (v : Value) : Tends level (indexesOf v) := by
  unfold indexesOf
  split
  · exact Tends.get_bind fun h => newListOf_tends _ _
  · exact Tends.get_bind fun h => newListOf_tends _ _
  · exact Tends.get_bind fun h => newListOf_tends _ _
  · exact mapKeys_tends _
  · exact .throw _

theorem valuesOf_tends (v : Value) : Tends level (valuesOf v) := by
  unfold valuesOf
  split
  · exact mapValues_tends _
  · exact stringSplit_tends _ _
  · exact stringSplit_tends _ _
  · exact .pure _

theorem joinItems_tends (v delimiter : Value) : Tends level (joinItems v delimiter) := by
  unfold joinItems
  apply Tends.get_bind
  intro h
  split
  · exact .throw _
  · exact newString_tends _

theorem splitAt_tends (v delimiter : Value) : Tends level (splitAt v delimiter) := by
  unfold splitAt
  split
  · apply (toStringValue_tends delimiter).bind
    intro text h
    have pieces : Tended True (h.protect text) (after (stringSplit v text) (h.protect text)) := stringSplit_tends _ _ _
    simp only [after] at pieces ⊢
    cases result : stringSplit v text (h.protect text) with
    | ok out s =>
        rw [result] at pieces
        exact pieces.unprotect
    | error e s =>
        rw [result] at pieces
        exact pieces.unprotect
  · exact .throw _

theorem replaceItems_tends (v old new : Value) (items : List (Value × Nat)) : Tends level (replaceItems v old new items) := by
  induction items with
  | nil => exact .pure ()
  | cons item rest ih =>
      unfold replaceItems
      apply Tends.get_bind
      intro h
      simp only
      split
      · exact (listSet_tends _ _ _).bind fun _ => ih
      · exact ih

theorem replaceEntries_tends (v old new : Value) (entries : List (Value × Value)) :
    Tends level (replaceEntries v old new entries) := by
  induction entries with
  | nil => exact .pure ()
  | cons entry rest ih =>
      unfold replaceEntries
      apply Tends.get_bind
      intro h
      simp only
      split
      · exact (mapSet_tends _ _ _).bind fun _ => ih
      · exact ih

theorem replaceIn_tends (v old new : Value) : Tends level (replaceIn v old new) := by
  have inText : Tends level (inScope do
      let old ← toStringValue old
      modify (·.protect old)
      let new ← toStringValue new
      modify (·.protect new)
      stringReplace v old new) :=
    ((toStringValue_tends _).bind fun _ => (protecting_tends _).bind fun _ => (toStringValue_tends _).bind fun _ =>
      (protecting_tends _).bind fun _ => stringReplace_tends _ _ _).inScope
  unfold replaceIn
  split
  · exact inText
  · exact inText
  · exact Tends.get_bind fun h => (replaceItems_tends _ _ _ _).bind fun _ => .pure _
  · exact Tends.get_bind fun h => (replaceEntries_tends _ _ _ _).bind fun _ => .pure _
  · exact .throw _

theorem sliceOf_tends (v : Value) (start : Int32) (stop : Value) (refused : Heap → Error) : Tends level (sliceOf v start stop refused) := by
  unfold sliceOf
  apply Tends.get_bind
  intro h
  split
  · exact listSlice_tends _ _ _
  · exact stringSlice_tends _ _ _
  · exact stringSlice_tends _ _ _
  · exact .throw _

theorem entryPair_tends (container : Value) (index : Int32) : Tends level (Machine.entryPair container index) := by
  unfold Machine.entryPair
  apply Tends.get_bind
  intro h
  split
  · exact .pure _
  · refine ((newMap_tends 2).bind fun pair => (protecting_tends pair).bind fun _ => ?_).inScope
    exact (mapSet_tends pair _ _).bind fun _ => (mapSet_tends pair _ _).bind fun _ => .pure pair

theorem newChild_tends (parent : Value) : Tends level (Machine.newChild parent) :=
  ((newMap_tends 2).bind fun child => (protecting_tends child).bind fun _ => (mapSet_tends child _ _).bind fun _ => .pure child).inScope

end RegisterMachine.Heap
