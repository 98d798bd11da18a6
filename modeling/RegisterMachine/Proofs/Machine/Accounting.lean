import RegisterMachine.Proofs.Machine.Accounts
import RegisterMachine.Proofs.Machine.Deeds
import RegisterMachine.Proofs.Machine.Shifts

namespace RegisterMachine.Machine

structure Accounted (m : Machine) : Prop where
  intact : m.heap.Intact
  account : Account m.heap m.pinned
  locals : ∀ frame ∈ m.frames, frame.locals.value = .null ∨ ∃ r, frame.locals.value = .map r ∧ m.heap.isLive r = true

variable {m m' : Machine}

theorem pinned_member {frame : Frame} {p : Pinned} (member : frame ∈ m.frames) (part : p ∈ frame.pinned) : p ∈ m.pinned :=
  List.mem_append_right _ (List.mem_flatMap.mpr ⟨frame,Array.mem_toList_iff.mpr member,part⟩)

theorem Accounted.anchored {frame : Frame} (accounted : m.Accounted) (member : frame ∈ m.frames) (map : frame.locals.value = .map r) :
    m.heap.Anchored r := by
  constructor
  · rcases accounted.locals frame member with null | ⟨q,there,live⟩
    · rw [map] at null
      cases null
    · rw [map] at there
      cases there
      exact live
  · have holds := accounted.account.held frame.locals (pinned_member member List.mem_cons_self)
    unfold Pinned.Holds at holds
    split at holds
    · exact ⟨frame.locals.value,Array.mem_of_getElem? holds,by rw [map]; rfl⟩
    · rw [map] at holds
      cases holds

theorem Accounted.same (accounted : m.Accounted) (heap : m'.heap = m.heap) (frames : m'.frames = m.frames)
    (pending : m'.pending = m.pending) : m'.Accounted := by
  obtain ⟨intact,account,locals⟩ := accounted
  refine ⟨heap ▸ intact,?_,?_⟩
  · rw [pinned,waiting,heap,frames,pending]
    exact account
  · rw [frames,heap]
    exact locals

theorem Accounted.onHeap {h : Heap} (accounted : m.Accounted) (intact : h.Intact) (roots : h.roots = m.heap.roots)
    (freeRoots : h.freeRoots = m.heap.freeRoots) (anchored : ∀ r, m.heap.Anchored r → h.Anchored r) : { m with heap := h }.Accounted where
  intact := intact
  account := accounted.account.steady roots freeRoots
  locals := by
    intro frame member
    rcases accounted.locals frame member with null | ⟨r,map,_⟩
    · exact Or.inl null
    · exact Or.inr ⟨r,map,(anchored r (accounted.anchored member map)).1⟩

theorem Accounted.tended {h : Heap} (accounted : m.Accounted) (tended : Heap.Tended level m.heap h) : { m with heap := h }.Accounted :=
  accounted.onHeap (tended.intact accounted.intact) tended.roots tended.freeRoots (tended.anchored accounted.intact)

theorem Accounted.rebooked (accounted : m.Accounted) (apart : Heap.Apart m.heap m'.heap) (account : Account m'.heap m'.pinned)
    (locals : ∀ frame ∈ m'.frames, frame.locals.value = .null ∨
      ∃ r, frame.locals.value = .map r ∧ m.heap.isLive r = true) : m'.Accounted where
  intact := (Heap.Step.apart apart).intact accounted.intact
  account := account
  locals := by
    intro frame member
    rcases locals frame member with null | ⟨r,map,live⟩
    · exact Or.inl null
    · exact Or.inr ⟨r,map,by rwa [Heap.isLive,Heap.object?_slots apart.slots]⟩

theorem Accounted.setPending (accounted : m.Accounted) (pending : Option (Value × Value)) : (m.setPending pending).Accounted :=
  accounted.rebooked (m.setPending_apart pending) (pending_books Account.bookkeeping pending accounted.account) accounted.locals

theorem setFrameLocals_apart (m : Machine) (index : Nat) (v : Value) : Heap.Apart m.heap (m.setFrameLocals index v).heap := by
  unfold setFrameLocals
  split
  · constructor <;> rfl
  · exact Pinned.set_apart _ _ _

theorem Accounted.setFrameLocals (accounted : m.Accounted) (index : Nat) (live : m.heap.isLive r = true) :
    (m.setFrameLocals index (.map r)).Accounted := by
  refine accounted.rebooked (m.setFrameLocals_apart index _) (locals_books Account.bookkeeping index _ accounted.account) ?_
  intro frame member
  unfold Machine.setFrameLocals at member
  split at member
  · exact accounted.locals frame member
  · rcases Array.mem_or_eq_of_mem_setIfInBounds member with before | new
    · exact accounted.locals frame before
    · rw [new]
      exact Or.inr ⟨r,Pinned.set_value _ _ _,live⟩

theorem pushFrame_apart (m : Machine) (frame : Frame) (outer : Value) (pending : Option (Value × Value)) :
    Heap.Apart m.heap (m.pushFrame frame outer pending).heap := by
  have first := frame.outer.set_apart m.heap outer
  cases pending with
  | none => exact first
  | some pair => exact (first.trans (frame.receiver.set_apart _ pair.1)).trans (frame.parent.set_apart _ pair.2)

theorem Accounted.pushFrame (accounted : m.Accounted) (function base : Nat) (call : CallInfo) (outer : Value)
    (pending : Option (Value × Value)) : (m.pushFrame { function,base,call } outer pending).Accounted := by
  refine accounted.rebooked (m.pushFrame_apart _ outer pending) (push_books Account.bookkeeping _ _ _ _ _ accounted.account) ?_
  intro frame member
  rcases Array.mem_push.mp member with before | new
  · exact accounted.locals frame before
  · rw [new]
    cases pending <;> exact Or.inl rfl

theorem Accounted.popFrame {frame : Frame} (accounted : m.Accounted) (top : m.topFrame? = some frame) :
    { m with frames := m.frames.pop,heap := frame.release m.heap }.Accounted := by
  refine accounted.rebooked (release_apart frame m.heap) ?_ fun other member => ?_
  · exact release_books Account.bookkeeping frame (accounted.account.perm (pinned_pop top))
  · exact accounted.locals other (Heap.mem_of_mem_pop member)

theorem localsMap_live {frame : Frame} {h : Heap} (intact : m.heap.Intact) (made : m.localsMap frame m.heap = .ok v h) :
    ∃ r, v = .map r ∧ h.isLive r = true := by
  obtain ⟨r,table,same,done⟩ := localsMap_allocates made
  obtain ⟨s,_,_,installed⟩ := Heap.allocate_ok intact done
  refine ⟨r,same,?_⟩
  rw [Heap.isLive,installed.object]
  rfl

theorem Deeds.accounted (deeds : Deeds (fun _ _ => False) m m') (accounted : m.Accounted) : m'.Accounted := by
  induction deeds with
  | refl => exact accounted
  | trans _ _ first second => exact second (first accounted)
  | heap tended => exact accounted.tended tended
  | tools | raise => exact accounted.same rfl rfl rfl
  | pending pending => exact accounted.setPending pending
  | @locals v h i m frame made =>
      obtain ⟨r,rfl,live⟩ := localsMap_live accounted.intact made
      exact (accounted.tended (localsMap_tended made)).setFrameLocals i live
  | push => exact accounted.pushFrame _ _ _ _ _
  | pop top => exact (accounted.popFrame top).same rfl rfl rfl
  | lose top map lost =>
      rw [(accounted.anchored (topFrame_mem top) map).1] at lost
      cases lost
  | native impossible => exact impossible.elim

end RegisterMachine.Machine
