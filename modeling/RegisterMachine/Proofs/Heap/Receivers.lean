import RegisterMachine.Machine.Step
import RegisterMachine.Proofs.Heap.Actions

namespace RegisterMachine.Heap

theorem removeText_acts (v pattern : Value) : Performs written (removeText v pattern) := by
  unfold removeText
  refine Does.get_bind fun h _ => ?_
  split
  · exact .pure v
  · refine Does.inScope ?_
    refine (stringSubstring_acts _ _ _).bind fun head => (protecting_acts head).bind fun _ => ?_
    refine (stringSlice_acts _ _ _).bind fun tail => (protecting_acts tail).bind fun _ => ?_
    exact stringConcat_acts head tail

section

variable {written : Handle → Prop} {v : Value} (may : ∀ r, v = .map r → written r)
include may

theorem removeFrom_acts (key : Value) : Performs written (removeFrom v key) := by
  unfold removeFrom
  split
  · exact (listRemove_acts _ _).map _
  · exact (mapRemove_acts key may).map _
  · exact removeText_acts _ _
  · exact removeText_acts _ _
  · exact .throw _

theorem pushOnto_acts (item : Value) : Performs written (pushOnto v item) := by
  unfold pushOnto
  split
  · exact (updateList_acts _ _).bind fun _ => .pure _
  · exact (mapSet_acts _ (Value.named_all item) may).bind fun _ => .pure _
  · exact .throw _

theorem takeFirstKey_acts : Performs written (takeFirstKey v) := by
  intro h names
  simp only [after,takeFirstKey]
  cases h.nthEntry? v 0 with
  | none => exact .refl
  | some entry =>
      have removed : Acts written h (after (mapRemove v entry.1) (h.protect entry.1)) :=
        (protect_acts h entry.1).trans (mapRemove_acts entry.1 may _ (.all _))
      simp only [after] at removed ⊢
      cases result : mapRemove v entry.1 (h.protect entry.1) with
      | ok flag s =>
          rw [result] at removed
          exact removed.trans (unprotect_acts s)
      | error e s =>
          rw [result] at removed
          exact removed.trans (unprotect_acts s)

theorem popFrom_acts : Performs written (popFrom v) := by
  unfold popFrom
  split
  · exact listPop_acts _
  · exact takeFirstKey_acts may
  · exact .pure _

theorem pullFrom_acts : Performs written (pullFrom v) := by
  unfold pullFrom
  split
  · exact listPull_acts _
  · exact takeFirstKey_acts may
  · exact .pure _

theorem replaceEntries_acts (old new : Value) (entries : List (Value × Value)) :
    Performs written (replaceEntries v old new entries) := by
  induction entries with
  | nil => exact .pure ()
  | cons entry rest ih =>
      unfold replaceEntries
      refine Does.get_bind fun h _ => ?_
      simp only
      split
      · exact (mapSet_acts new (Value.named_all _) may).bind fun _ => ih
      · exact ih

end

theorem insertText_acts (v index inserted : Value) : Performs written (insertText v index inserted) := by
  unfold insertText
  refine Does.get_bind fun h _ => ?_
  simp only
  generalize (if index.asInt.toInt < 0 then index.asInt.toInt + h.stringLength v + 1 else index.asInt.toInt) = i
  split
  · exact .throw _
  · exact newString_acts _

theorem insertInto_acts (v index inserted : Value) : Performs written (insertInto v index inserted) := by
  unfold insertInto
  split
  · exact (listInsert_acts _ _ _).bind fun _ => .pure _
  · exact insertText_acts _ _ _
  · exact insertText_acts _ _ _
  · exact .throw _

theorem indexesOf_acts (v : Value) : Performs written (indexesOf v) := by
  unfold indexesOf
  split
  · exact Does.get_bind fun h _ => newListOf_acts _ _
  · exact Does.get_bind fun h _ => newListOf_acts _ _
  · exact Does.get_bind fun h _ => newListOf_acts _ _
  · exact mapKeys_acts _
  · exact .throw _

theorem valuesOf_acts (v : Value) : Performs written (valuesOf v) := by
  unfold valuesOf
  split
  · exact mapValues_acts _
  · exact stringSplit_acts _ _
  · exact stringSplit_acts _ _
  · exact .pure _

theorem joinItems_acts (v delimiter : Value) : Performs written (joinItems v delimiter) := by
  unfold joinItems
  refine Does.get_bind fun h _ => ?_
  split
  · exact .throw _
  · exact newString_acts _

theorem splitAt_acts (v delimiter : Value) : Performs written (splitAt v delimiter) := by
  unfold splitAt
  split
  · refine (toStringValue_acts delimiter).bind fun text h _ => ?_
    have pieces : Acts written h (after (stringSplit v text) (h.protect text)) :=
      (protect_acts h text).trans (stringSplit_acts v text _ (.all _))
    simp only [after] at pieces ⊢
    cases result : stringSplit v text (h.protect text) with
    | ok out s =>
        rw [result] at pieces
        exact pieces.trans (unprotect_acts s)
    | error e s =>
        rw [result] at pieces
        exact pieces.trans (unprotect_acts s)
  · exact .throw _

theorem replaceItems_acts (v old new : Value) (items : List (Value × Nat)) : Performs written (replaceItems v old new items) := by
  induction items with
  | nil => exact .pure ()
  | cons item rest ih =>
      unfold replaceItems
      refine Does.get_bind fun h _ => ?_
      simp only
      split
      · exact (listSet_acts _ _ _).bind fun _ => ih
      · exact ih

theorem replaceIn_acts {v : Value} (old new : Value) (may : ∀ r, v = .map r → written r) : Performs written (replaceIn v old new) := by
  have inText : Performs written (inScope do
      let old ← toStringValue old
      modify (·.protect old)
      let new ← toStringValue new
      modify (·.protect new)
      stringReplace v old new) :=
    ((toStringValue_acts _).bind fun _ => (protecting_acts _).bind fun _ => (toStringValue_acts _).bind fun _ =>
      (protecting_acts _).bind fun _ => stringReplace_acts _ _ _).inScope
  unfold replaceIn
  split
  · exact inText
  · exact inText
  · exact Does.get_bind fun h _ => (replaceItems_acts _ _ _ _).bind fun _ => .pure _
  · exact Does.get_bind fun h _ => (replaceEntries_acts may _ _ _).bind fun _ => .pure _
  · exact .throw _

theorem sliceOf_acts (v : Value) (start : Int32) (stop : Value) (refused : Heap → Error) :
    Performs written (sliceOf v start stop refused) := by
  unfold sliceOf
  refine Does.get_bind fun h _ => ?_
  split
  · exact listSlice_acts _ _ _
  · exact stringSlice_acts _ _ _
  · exact stringSlice_acts _ _ _
  · exact .throw _

theorem entryPair_acts (container : Value) (index : Int32) : Performs written (Machine.entryPair container index) := by
  unfold Machine.entryPair
  refine Does.get_bind fun h _ => ?_
  split
  · exact .pure _
  · refine ((newMap_makes 2).bind fun r => (protecting_acts _).bind fun _ => ?_).inScope
    have may : ∀ q, Value.map r = .map q → written q ∨ q = r := by rintro _ ⟨⟩; exact Or.inr rfl
    exact (mapSet_acts _ (Value.named_all _) may).bind fun _ => (mapSet_acts _ (Value.named_all _) may).bind fun _ => .pure _

theorem newChild_acts (parent : Value) : Performs written (Machine.newChild parent) := by
  refine ((newMap_makes 2).bind fun r => (protecting_acts _).bind fun _ => ?_).inScope
  exact (mapSet_acts _ (Value.named_all _) (by rintro _ ⟨⟩; exact Or.inr rfl)).bind fun _ => .pure _

end RegisterMachine.Heap
