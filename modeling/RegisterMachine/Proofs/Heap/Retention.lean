import RegisterMachine.Proofs.Heap.Balance
import RegisterMachine.Proofs.Heap.Freezing

namespace RegisterMachine.Heap

-- Live objects that the roots lead to are live still.
def Retains (h h' : Heap) : Prop := ∀ r, h.Survives r → h.isLive r = true → h'.isLive r = true

theorem Abides.retains (abides : Abides h h') : Retains h h' := fun r _ live => abides.live r live

theorem Spared.retains (spared : Spared h h') : Retains h h' := by
  intro r survives live
  rw [isLive,spared.extension.objects r survives]
  exact live

theorem Spares.retains {operation : HeapM α} (spares : Spares operation) (intact : h.Intact) : Retains h (after operation h) :=
  (spares h intact).after.retains

theorem retains_slots {h h' : Heap} (same : h'.slots = h.slots) : Retains h h' := by
  intro r _ live
  rwa [isLive,object?_slots same]

theorem frozenCopy_retains {h : Heap} (v : Value) (intact : h.Intact) : Retains h (after (frozenCopy v) h) := by
  have copied := (copyDeep_spares (h.slots.size + 2) v []).inScope h intact
  have concludes : Concludes (frozenCopy v) h (Retains h) fun _ _ => True := by
    refine Concludes.get_bind ((copied.since fun _ spared => spared.retains).bind ?_)
    intro result s retains _
    refine Concludes.modify_bind (.pure (fun r survives live => ?_) trivial)
    exact (freeze_abides s result.1).live r (retains r survives live)
  exact concludes.after

theorem Call.retains (call : Call) {h : Heap} (intact : h.Intact) : Retains h (call.run h) := by
  cases call with
  | unprotect => exact retains_slots (unprotect_apart h).slots
  | popScope => exact retains_slots (popScope_apart h).slots
  | addRoot v => exact retains_slots (addRoot_apart h v).slots
  | removeRoot id => exact retains_slots (removeRoot_apart h id).slots
  | unregisterCallback id => exact retains_slots (unregisterCallback_apart h id).slots
  | protect | pushScope | setRoot | registerCallback | disable | enable | setStress | resizeRegisters | setRegisterValue
  | setRegisterName | assignRegister | unassign => exact retains_slots rfl
  | collect => exact (Swept.spared (.single rfl) intact).retains
  | intern text => exact (intern_spared text intact).retains
  | newString text => exact (newString_spares text).retains intact
  | newFuncRef function outer => exact (newFuncRef_spares function outer).retains intact
  | newList capacity => exact (newListOf_spares #[] capacity).retains intact
  | newListOf items capacity => exact (newListOf_spares items capacity).retains intact
  | newMap capacity => exact (newMap_spares capacity).retains intact
  | newAliasMap first count => exact (newAliasMap_spares first count).retains intact
  | listSet v index item => exact (listSet_abides v index item h).retains
  | listPush v item => exact (updateList_abides v _ h).retains
  | listPop v => exact (listPop_abides v h).retains
  | listPull v => exact (listPull_abides v h).retains
  | listInsert v index item => exact (listInsert_abides v index item h).retains
  | listRemove v index => exact (listRemove_abides v index h).retains
  | listClear v => exact (updateList_abides v _ h).retains
  | listSlice | listCopy => exact (expectItems_spares _ fun items => newListOf_spares _ _).retains intact
  | listConcat a b => exact (listConcat_spares a b).retains intact
  | listSort v byKey => exact (listSort_abides v byKey h).retains
  | mapSet v key value => exact (mapSet_abides v key value h).retains
  | mapRemove v key => exact (mapRemove_abides v key h).retains
  | mapClear v => exact (mapClear_abides v h).retains
  | mapKeys v =>
      rw [run,after_mapKeys]
      exact (newListOf_spares _ _).retains intact
  | mapValues v =>
      rw [run,after_mapValues]
      exact (newListOf_spares _ _).retains intact
  | mapCopy v => exact (mapCopy_spared v intact).after.retains
  | bindRegister v name register => exact (bindRegister_abides v name register h).retains
  | gather v => exact (gather_abides v h).retains
  | freeze v => exact (freeze_abides h v).retains
  | frozenCopy v => exact frozenCopy_retains v intact
  | stringConcat a b => exact (stringConcat_spares a b).retains intact
  | stringSubstring v start count => exact (stringSubstring_spares v start count).retains intact
  | stringSlice v start stop => exact (stringSlice_spares v start stop).retains intact
  | stringReplace v old new => exact (stringReplace_spares v old new).retains intact
  | stringSplit v delimiter => exact (stringSplit_spares v delimiter).retains intact
  | mapText change v => exact (mapText_spares change v).retains intact
  | stringRepeat v times => exact (stringRepeat_spares v times).retains intact
  | toStringValue v => exact (toStringValue_spares v).retains intact
  | add a b => exact (add_spares a b).retains intact
  | mult a b => exact (mult_spares a b).retains intact
  | div a b => exact (div_spares a b).retains intact

end RegisterMachine.Heap
