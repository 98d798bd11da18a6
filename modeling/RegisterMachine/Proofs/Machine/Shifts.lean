import RegisterMachine.Proofs.Machine.Stepping

namespace RegisterMachine

namespace Heap

-- An object that was put into a heap under a handle that led nowhere before.
structure Adds (h : Heap) (object : Object) (r : Handle) (h' : Heap) : Prop where
  fresh : h.object? r = none
  present : h'.object? r = some object
  evolves : Evolves (fun _ => False) h h'
  aliased : ∀ q, h'.Aliased q → q = r ∨ h.Aliased q

theorem allocate_adds {h h' : Heap} (intact : h.Intact) (made : allocate object h = .ok r h') : Adds h object r h' := by
  have fresh := allocate_fresh intact made
  obtain ⟨s,swept,⟨_,refused⟩ | ⟨_,done⟩⟩ := allocate_parts object h
  · rw [refused] at made
    cases made
  · rw [done] at made
    cases made
    have acts : Acts (fun _ => False) h s := Swept.acts swept
    have installed := allocated_installed (acts.intact intact) object
    refine ⟨fresh,installed.object,(acts.evolves intact).trans (allocated_altered (acts.intact intact) object).evolves,?_⟩
    rintro q ⟨table,there,bound⟩
    rcases installed.object_cases there with ⟨same,_⟩ | before
    · exact Or.inl same
    · exact Or.inr (acts.unaliased intact ⟨table,before,bound⟩)

theorem gather_unaliased {h h' : Heap} (intact : h.Intact) (gathered : gather (.map r) h = .ok () h') : ¬ h'.Aliased r := by
  simp only [gather] at gathered
  cases accepted : h.mapHandle (.map r) with
  | error e =>
      rw [accepted] at gathered
      cases gathered
  | ok q =>
      obtain ⟨same,live⟩ := mapHandle_parts accepted
      cases same
      cases held : (h.table? (.map r)).bind Table.aliases with
      | none =>
          simp only [accepted,held] at gathered
          cases gathered
          rintro ⟨table,here,bound⟩
          simp only [table?,here,Option.bind_some] at held
          rw [held] at bound
          cases bound
      | some aliases =>
          simp only [accepted,held] at gathered
          cases gathered
          obtain ⟨table,found,_⟩ := Option.bind_eq_some_iff.mp held
          obtain ⟨q,same,present⟩ := table?_object.mp found
          cases same
          have detached := modifyTable_touched ({ · with aliases := none }) present
          have still : (h.modifyTable r ({ · with aliases := none })).isLive r = true := modifyTable_live _ live
          have kept : Acts (fun _ => True) h (h.modifyTable r ({ · with aliases := none })) :=
            .table live (fun t _ => ⟨.detach,Or.inl trivial⟩) trivial
          have stored : Acts (fun _ => True) (h.modifyTable r ({ · with aliases := none }))
              (((h.modifyTable r ({ · with aliases := none })).storeAll r (h.assignedAliases aliases)).recharge r) :=
            .settle (storeAll_acts (fun _ _ => Value.named_all _) still trivial)
          intro aliased
          obtain ⟨table',here,bound⟩ := stored.unaliased (kept.intact intact) aliased
          rw [detached.here] at here
          cases here
          cases bound

end Heap

namespace Machine

variable {m m' : Machine} {written : Handle → Prop}

theorem localsMap_allocates {frame : Frame} {h : Heap} (made : m.localsMap frame m.heap = .ok v h) :
    ∃ r table, v = .map r ∧ Heap.allocate (.map table) m.heap = .ok r h := by
  unfold localsMap at made
  split at made
  · obtain ⟨r,done,rfl⟩ := Heap.map_ok made
    exact ⟨r,_,rfl,done⟩
  · obtain ⟨r,done,rfl⟩ := Heap.map_ok made
    exact ⟨r,_,rfl,done⟩

theorem set_acts (p : Pinned) (h : Heap) (v : Value) : Heap.Acts written h (p.set h v).2 := by
  unfold Pinned.set
  split
  · exact .reroot
  · split
    · simp only [Heap.addRoot]
      split <;> exact .reroot
    · exact .refl

theorem setFrameLocals_acts (m : Machine) (index : Nat) (v : Value) : Heap.Acts written m.heap (m.setFrameLocals index v).heap := by
  unfold setFrameLocals
  split
  · exact .refl
  · exact set_acts _ _ _

theorem pushFrame_acts (m : Machine) (frame : Frame) (outer : Value) (pending : Option (Value × Value)) :
    Heap.Acts written m.heap (m.pushFrame frame outer pending).heap := by
  unfold pushFrame
  cases pending with
  | none => exact set_acts _ _ _
  | some pair => exact ((set_acts _ _ _).trans (set_acts _ _ _)).trans (set_acts _ _ _)

theorem gathered_acts {frame : Frame} {h : Heap} (gathered : frame.locals.value.isMap = true → Heap.gather frame.locals.value m.heap = .ok () h)
    (plain : frame.locals.value.isMap = false → h = m.heap) : Heap.Acts written m.heap h := by
  cases map : frame.locals.value.isMap with
  | false =>
      rw [plain map]
      exact .refl
  | true =>
      have acts : Heap.Acts written m.heap (Heap.after (Heap.gather frame.locals.value) m.heap) := Heap.gather_acts _ m.heap (.all _)
      rwa [Heap.after,gathered map] at acts

theorem Shift.registers (shift : Shift written m m') : m'.heap.registers.size = m.heap.registers.size := by
  cases shift with
  | stay => rfl
  | @bind i v h m frame found null made =>
      obtain ⟨r,table,rfl,done⟩ := localsMap_allocates made
      have acts : Heap.Acts (fun _ => False) h (setFrameLocals { m with heap := h } i (.map r)).heap :=
        setFrameLocals_acts { m with heap := h } i (.map r)
      rw [acts.registers,(Heap.allocate_roots done).registers]
  | call aside => exact (aside.acts.trans (pushFrame_acts _ _ _ _)).registers
  | ret deep top gathered plain =>
      exact ((@gathered_acts m (fun _ => False) _ _ gathered plain).trans (release_acts _ _)).registers

theorem localsMap_intact {frame : Frame} {h : Heap} (intact : m.heap.Intact) (made : m.localsMap frame m.heap = .ok v h) : h.Intact := by
  have moves : Heap.Moves (m.localsMap frame) := by
    unfold localsMap
    split
    · exact (Heap.newMap_moves 4)
    · exact Heap.newAliasMap_moves _ _
  have steps := moves m.heap
  rw [Heap.after,made] at steps
  exact steps.intact intact

theorem Shift.intact (shift : Shift written m m') (intact : m.heap.Intact) : m'.heap.Intact := by
  cases shift with
  | stay => exact intact
  | @bind i v h m frame found null made =>
      exact (@setFrameLocals_acts (fun _ => False) { m with heap := h } i v).intact (localsMap_intact intact made)
  | call aside => exact (aside.acts.trans (pushFrame_acts _ _ _ _)).intact intact
  | ret deep top gathered plain =>
      exact ((@gathered_acts m (fun _ => False) _ _ gathered plain).trans (release_acts _ _)).intact intact

theorem Shift.evolves (shift : Shift written m m') (intact : m.heap.Intact) : Heap.Evolves written m.heap m'.heap := by
  cases shift with
  | stay => exact .refl _
  | @bind i v h m frame found null made =>
      obtain ⟨r,table,rfl,done⟩ := localsMap_allocates made
      have added : Heap.Evolves written m.heap h := (Heap.allocate_adds intact done).evolves.mono fun _ => False.elim
      exact added.trans ((setFrameLocals_acts { m with heap := h } i (.map r)).evolves (localsMap_intact intact made))
  | call aside => exact (aside.acts.trans (pushFrame_acts _ _ _ _)).evolves intact
  | ret deep top gathered plain => exact ((gathered_acts gathered plain).trans (release_acts _ _)).evolves intact

theorem Turn.evolves (turn : Turn written m m') (intact : m.heap.Intact) : Heap.Evolves written m.heap m'.heap := by
  obtain ⟨s,s',first,same,shift,last⟩ := turn
  have shifted := shift.evolves (same ▸ intact)
  rw [same] at shifted
  exact shifted.trans (last.acts.evolves (shift.intact (same ▸ intact)))

end Machine

end RegisterMachine
