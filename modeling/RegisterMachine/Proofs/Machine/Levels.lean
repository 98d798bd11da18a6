import RegisterMachine.Proofs.Machine.Runs

namespace RegisterMachine

theorem Pinned.set_level (p : Pinned) (h : Heap) (v : Value) : Heap.Level h (p.set h v).2 := by
  unfold set
  split
  · exact Heap.setRoot_level h _ v
  · split
    · exact Heap.addRoot_level h v
    · exact .refl h

theorem Pinned.release_level (p : Pinned) (h : Heap) : Heap.Level h (p.release h) := by
  unfold release
  split
  · exact Heap.removeRoot_level h _
  · exact .refl h

namespace Machine

variable {m m' : Machine}

theorem release_level (frame : Frame) (h : Heap) : Heap.Level h (frame.release h) :=
  (((frame.locals.release_level h).trans (frame.outer.release_level _)).trans (frame.receiver.release_level _)).trans
    (frame.parent.release_level _)

theorem setPending_level (m : Machine) (pending : Option (Value × Value)) : Heap.Level m.heap (m.setPending pending).heap :=
  (Heap.setRoot_level m.heap _ _).trans (Heap.setRoot_level _ _ _)

theorem setFrameLocals_level (m : Machine) (index : Nat) (v : Value) : Heap.Level m.heap (m.setFrameLocals index v).heap := by
  unfold setFrameLocals
  split
  · exact .refl m.heap
  · exact Pinned.set_level _ _ _

theorem pushFrame_level (m : Machine) (frame : Frame) (outer : Value) (pending : Option (Value × Value)) :
    Heap.Level m.heap (m.pushFrame frame outer pending).heap := by
  have first := frame.outer.set_level m.heap outer
  cases pending with
  | none => exact first
  | some pair => exact (first.trans (frame.receiver.set_level _ pair.1)).trans (frame.parent.set_level _ pair.2)

theorem Deeds.level (deeds : Deeds (fun _ _ => False) m m') (grounded : m.heap.Grounded) : Heap.Level m.heap m'.heap := by
  induction deeds with
  | refl => exact .refl _
  | trans _ _ first second => exact (first grounded).trans (second ((first grounded).grounded grounded))
  | heap tended => exact tended.level grounded
  | tools | raise | lose => exact .refl _
  | pending pending => exact setPending_level _ pending
  | @locals v h i m frame made =>
      exact ((localsMap_tended made).level grounded).trans (setFrameLocals_level { m with heap := h } i v)
  | push => exact pushFrame_level _ _ _ _
  | pop => exact release_level _ _
  | native impossible => exact impossible.elim

end Machine

end RegisterMachine
