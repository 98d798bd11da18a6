import RegisterMachine.Proofs.Heap.Balance
import RegisterMachine.Proofs.Heap.Limit
import RegisterMachine.Proofs.Heap.Scripts

namespace RegisterMachine.Heap

-- A later heap in which nothing that was in use has changed.
structure Unharmed (h s : Heap) : Prop where
  objects : ∀ r, h.Survives r → s.object? r = h.object? r
  registers : s.registers = h.registers
  roots : s.roots = h.roots
  freeRoots : s.freeRoots = h.freeRoots
  callbacks : s.callbacks = h.callbacks
  shadow : s.shadow = h.shadow
  scopes : s.scopes = h.scopes

theorem Spared.unharmed (spared : Spared h s) (balanced : Balanced h s) : Unharmed h s :=
  ⟨spared.extension.objects,spared.extension.registers,spared.extension.roots,spared.extension.freeRoots,spared.extension.callbacks,
    balanced.shadow,balanced.scopes⟩

theorem Swept.unharmed (swept : Swept h s) (intact : h.Intact) : Unharmed h s :=
  (Swept.spared swept intact).unharmed (Swept.roots swept).balanced

theorem frozenCopy_failed {h s : Heap} (intact : h.Intact) (failed : frozenCopy v h = .error e s) : Spared h s := by
  have copying : Spared h (after (inScope (copyDeep (h.slots.size + 2) v [])) h) :=
    (Spares.inScope (copyDeep_spares (h.slots.size + 2) v []) h intact).after
  simp only [frozenCopy,bind,EStateM.bind,get_ok] at failed
  -- Freezing the finished copy cannot fail.
  cases done : inScope (copyDeep (h.slots.size + 2) v []) h with
  | ok copied t =>
      rw [done] at failed
      cases failed
  | error e' t =>
      rw [done] at failed
      cases failed
      simpa only [after,done] using copying

theorem listPop_failed {h s : Heap} (failed : listPop v h = .error e s) : s = h := by
  simp only [listPop] at failed
  split at failed
  · cases failed
    rfl
  · cases failed

theorem listPull_failed {h s : Heap} (failed : listPull v h = .error e s) : s = h := by
  simp only [listPull] at failed
  split at failed
  · cases failed
    rfl
  · cases failed

theorem Making.perform_failed {making : Making} {operands : List Value} {h s : Heap} (intact : h.Intact)
    (failed : making.perform operands h = .error e s) : Spared h s := by
  cases making with
  | null | int | double => cases failed
  | newString text => exact (newString_spares text h intact).failed failed
  | intern text => cases failed
  | newList capacity => exact (newListOf_spares #[] capacity h intact).failed failed
  | listOf => exact (newListOf_spares _ _ h intact).failed failed
  | newMap capacity => exact (newMap_spares capacity h intact).failed failed
  | newAliasMap first count => exact (newAliasMap_spares first count h intact).failed failed
  | newFuncRef function => exact (newFuncRef_spares function _ h intact).failed failed
  | add => exact (add_spares _ _ h intact).failed failed
  | mult => exact (mult_spares _ _ h intact).failed failed
  | div => exact (div_spares _ _ h intact).failed failed
  | toStringValue => exact (toStringValue_spares _ h intact).failed failed
  | stringConcat => exact (stringConcat_spares _ _ h intact).failed failed
  | stringSubstring start count => exact (stringSubstring_spares _ start count h intact).failed failed
  | stringSlice start stop => exact (stringSlice_spares _ start stop h intact).failed failed
  | stringCharAt index => exact (reading_spares (·.stringCharAt _ index) h intact).failed failed
  | listGet index => exact (reading_spares (·.listGet _ index) h intact).failed failed
  | stringReplace => exact (stringReplace_spares _ _ _ h intact).failed failed
  | stringSplit => exact (stringSplit_spares _ _ h intact).failed failed
  | mapText change => exact (mapText_spares change _ h intact).failed failed
  | stringRepeat times => exact (stringRepeat_spares _ times h intact).failed failed
  | listPop =>
      rw [listPop_failed failed]
      exact .refl intact
  | listPull =>
      rw [listPull_failed failed]
      exact .refl intact
  | listSlice | listCopy => exact (expectItems_spares _ (fun items => newListOf_spares _ _) h intact).failed failed
  | listConcat => exact (listConcat_spares _ _ h intact).failed failed
  | mapKeys | mapValues => exact (newListOf_spares _ _ h intact).failed failed
  | mapCopy => exact (mapCopy_spared _ intact).failed failed
  | frozenCopy => exact frozenCopy_failed intact failed

theorem Making.perform_tends (making : Making) (operands : List Value) : Tends level (making.perform operands) := by
  cases making with
  | null | int | double => exact .pure _
  | newString text => exact newString_tends text
  | intern text => exact interning_tends text
  | newList capacity => exact newListOf_tends #[] capacity
  | listOf => exact newListOf_tends _ _
  | newMap capacity => exact newMap_tends capacity
  | newAliasMap first count => exact newAliasMap_tends first count
  | newFuncRef function => exact newFuncRef_tends function _
  | add => exact add_tends _ _
  | mult => exact mult_tends _ _
  | div => exact div_tends _ _
  | toStringValue => exact toStringValue_tends _
  | stringConcat => exact stringConcat_tends _ _
  | stringSubstring start count => exact stringSubstring_tends _ start count
  | stringSlice start stop => exact stringSlice_tends _ start stop
  | stringCharAt | listGet => exact reading_tends _
  | stringReplace => exact stringReplace_tends _ _ _
  | stringSplit => exact stringSplit_tends _ _
  | mapText change => exact mapText_tends change _
  | stringRepeat times => exact stringRepeat_tends _ times
  | listPop => exact listPop_tends _
  | listPull => exact listPull_tends _
  | listSlice start stop => exact listSlice_tends _ start stop
  | listConcat => exact listConcat_tends _ _
  | listCopy => exact listCopy_tends _
  | mapKeys => exact mapKeys_tends _
  | mapValues => exact mapValues_tends _
  | mapCopy => exact mapCopy_tends _
  | frozenCopy => exact frozenCopy_tends _

-- An operation that fails, at whatever object, has changed nothing that was in use; and an object is refused only when it does
-- not fit after a collection, or in the heap as it is while collection is disabled.
theorem shortage_harmless {h : Heap} (reachable : Reachable h) :
    (∀ object e s, allocate object h = .error e s → e = .outOfMemory object.charge ∧ s = h.collectIfDue.collect.2 ∧ (0 < h.disabled → s = h) ∧
      (∃ limit, h.config.maxBytes = some limit ∧ limit < s.bytes + object.charge) ∧ Unharmed h s) ∧
    ∀ (making : Making) (operands : List Value) e s, making.perform operands h = .error e s → Unharmed h s := by
  have intact := reachable.intact
  refine ⟨fun object e s failed => ?_,fun making operands e s failed => ?_⟩
  · obtain ⟨refused,rfl,full⟩ := allocate_error.mp failed
    exact ⟨refused,rfl,forced_disabled,full,Swept.unharmed ((collectIfDue_swept h).tail rfl) intact⟩
  · have tended : Tended True h (after (making.perform operands) h) := making.perform_tends operands h
    simp only [after,failed] at tended
    exact (Making.perform_failed intact failed).unharmed (tended.balanced reachable.grounded)

-- The error that an operation ends with, if it fails.
def error? (operation : HeapM α) (h : Heap) : Option Error :=
  match operation h with
  | .ok _ _ => none
  | .error e _ => some e

theorem error?_some {operation : HeapM α} (failed : error? operation h = some e) : operation h = .error e (after operation h) := by
  unfold error? at failed
  unfold after
  cases result : operation h with
  | ok a s =>
      rw [result] at failed
      cases failed
  | error e' s =>
      rw [result] at failed
      cases failed
      rfl

-- The frozen copy of a list of two lists fails at the second of them. Two objects were made until then, and a collection has
-- run; the three lists are as they were.
theorem shortage_harmless_half_way : ∃ h s, Reachable h ∧ Making.frozenCopy.perform [.list ⟨2,0⟩] h = .error (.outOfMemory 88) s ∧
    h.live = 3 ∧ s.live = 5 ∧ s.history.size = 1 ∧ Unharmed h s ∧ s.object? ⟨2,0⟩ = some (.list ⟨#[.list ⟨0,0⟩,.list ⟨1,0⟩],2,false⟩) := by
  have inner := Reachable.call (.newList 0) (.call (.newList 0) (.new { maxBytes := some 520 }))
  have reachable := Reachable.call (.protect (.list ⟨2,0⟩)) (.call (.newListOf #[.list ⟨0,0⟩,.list ⟨1,0⟩] 2) inner)
  generalize whole : Call.run _ _ = h at reachable
  have failed : error? (Making.frozenCopy.perform [.list ⟨2,0⟩]) h = some (.outOfMemory 88) := by
    rw [← whole]
    decide +kernel
  have unharmed := (shortage_harmless reachable).2 _ _ _ _ (error?_some failed)
  have held : h.Survives ⟨2,0⟩ := by
    refine Or.inr (.root (.shadow (v := .list ⟨2,0⟩) ?_) rfl ?_)
    · rw [← whole]
      decide +kernel
    · rw [← whole]
      decide +kernel
  refine ⟨h,_,reachable,error?_some failed,?_,?_,?_,unharmed,?_⟩
  · rw [← whole]
    decide +kernel
  · rw [← whole]
    decide +kernel
  · rw [← whole]
    decide +kernel
  · rw [unharmed.objects _ held,← whole]
    decide +kernel

end RegisterMachine.Heap
