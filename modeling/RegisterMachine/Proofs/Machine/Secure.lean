import RegisterMachine.Proofs.Heap.Methods
import RegisterMachine.Proofs.Machine.Pins

namespace RegisterMachine

def Frame.pinned (f : Frame) : List Pinned := [f.locals,f.outer,f.receiver,f.parent]

-- Constants and parameters that no collection frees.
structure Function.Lasting (h : Heap) (f : Function) : Prop where
  constants : ∀ v ∈ f.constants, h.Permanent v
  parameters : ∀ p ∈ f.parameters, h.Permanent p.name ∧ h.Permanent p.default

theorem Function.Lasting.later {h h' : Heap} {f : Function} (lasting : f.Lasting h) (immortal : ∀ r, h.Immortal r → h'.Immortal r) :
    f.Lasting h' where
  constants := fun v member => (lasting.constants v member).later immortal
  parameters := fun p member =>
    ⟨(lasting.parameters p member).1.later immortal,(lasting.parameters p member).2.later immortal⟩

namespace Machine

-- The pending receiver and its parent, each with the root that is set aside for it.
def waiting (m : Machine) : List Pinned :=
  [{ value := (m.pending.getD (.null,.null)).1,pin := some pendingRoot },
    { value := (m.pending.getD (.null,.null)).2,pin := some pendingParentRoot }]

def pinned (m : Machine) : List Pinned := m.waiting ++ m.frames.toList.flatMap Frame.pinned

structure Secure (m : Machine) : Prop where
  safe : m.heap.Safe
  ledger : Ledger m.heap m.pinned
  functions : ∀ f ∈ m.functions, f.Lasting m.heap

variable {m : Machine}

theorem Secure.same {m' : Machine} (secure : m.Secure) (heap : m'.heap = m.heap) (frames : m'.frames = m.frames)
    (pending : m'.pending = m.pending) (functions : m'.functions = m.functions) : m'.Secure := by
  obtain ⟨safe,ledger,lasting⟩ := secure
  refine ⟨heap ▸ safe,?_,?_⟩
  · rw [pinned,waiting,heap,frames,pending]
    exact ledger
  · rw [functions,heap]
    exact lasting

theorem Secure.onHeap {h : Heap} (secure : m.Secure) (safe : h.Safe) (steady : Heap.Steady m.heap h) :
    { m with heap := h }.Secure where
  safe := safe
  ledger := secure.ledger.steady steady.roots steady.freeRoots
  functions := fun f member => (secure.functions f member).later steady.immortal

theorem Secure.pinned_kept {frame : Frame} {p : Pinned} (secure : m.Secure) (member : frame ∈ m.frames) (part : p ∈ frame.pinned) :
    m.heap.Kept p.value :=
  have listed := List.mem_flatMap.mpr ⟨frame,Array.mem_toList_iff.mpr member,part⟩
  (secure.ledger.held p (List.mem_append_right _ listed)).kept secure.safe

theorem Secure.pending_kept (secure : m.Secure) (pending : m.pending = some (receiver,parent)) :
    m.heap.Kept receiver ∧ m.heap.Kept parent := by
  have held : ∀ p ∈ m.waiting, m.heap.Kept p.value := fun p member =>
    (secure.ledger.held p (List.mem_append_left _ member)).kept secure.safe
  simp only [waiting,pending,Option.getD_some,List.forall_mem_cons] at held
  exact ⟨held.1,held.2.1⟩

theorem Secure.lasting {f : Function} {i : Nat} (secure : m.Secure) (found : m.functions[i]? = some f) :
    f.Lasting m.heap :=
  secure.functions f (Array.mem_of_getElem? found)

theorem Secure.register (secure : m.Secure) (i : Nat) : m.heap.Kept (m.heap.registerValue i) :=
  secure.safe.closed_kept.registerValue i

theorem onHeap_parts {operation : HeapM α} {always : Heap → Prop} {post : α → Heap → Prop}
    (meets : Meets operation m.heap always post) :
    Meets (onHeap operation) m (fun m' => ∃ h, m' = { m with heap := h } ∧ always h)
      fun a m' => ∃ h, m' = { m with heap := h } ∧ always h ∧ post a h := by
  unfold Meets Machine.onHeap
  unfold Meets at meets
  cases result : operation m.heap with
  | ok a h =>
      simp only [result] at meets ⊢
      exact ⟨⟨h,rfl,meets.1⟩,h,rfl,meets⟩
  | error e h =>
      simp only [result] at meets ⊢
      exact ⟨meets.1,h,rfl,meets.2⟩

theorem onHeap_outcome {operation : HeapM α} {always : Heap → Prop} {post : α → Heap → Prop} (secure : m.Secure)
    (meets : Meets operation m.heap always post) (steady : ∀ h, always h → h.Safe ∧ Heap.Steady m.heap h) :
    Meets (onHeap operation) m Secure fun a m' => ∃ h, m' = { m with heap := h } ∧ always h ∧ post a h := by
  refine (onHeap_parts meets).mono ?_ fun _ _ _ holds => holds
  rintro _ ⟨h,rfl,holds⟩
  exact secure.onHeap (steady h holds).1 (steady h holds).2

theorem onHeap_meets {operation : HeapM α} {post : α → Heap → Prop} (secure : m.Secure)
    (meets : Meets operation m.heap (Heap.Continues m.heap) post) :
    Meets (onHeap operation) m Secure fun a m' => ∃ h, m' = { m with heap := h } ∧ Heap.Continues m.heap h ∧ post a h :=
  onHeap_outcome secure meets fun _ continues => ⟨continues.safe,continues.steady⟩

theorem onHeap_edited {operation : HeapM α} {post : α → Heap → Prop} (secure : m.Secure)
    (meets : Meets operation m.heap (Heap.Edited m.heap) post) :
    Meets (onHeap operation) m Secure fun a m' => ∃ h, m' = { m with heap := h } ∧ Heap.Edited m.heap h ∧ post a h :=
  onHeap_outcome secure meets fun _ edited => ⟨edited.safe,edited.steady⟩

theorem onHeap_sound {operation : HeapM Value} (secure : m.Secure)
    (meets : Meets operation m.heap (Heap.Continues m.heap) fun v h => h.Sound v) :
    Meets (onHeap operation) m Secure fun v m' => m'.heap.Sound v := by
  refine (onHeap_meets secure meets).imp ?_
  rintro v m' _ ⟨h,rfl,_,sound⟩
  exact sound

theorem modifyHeap_meets {change : Heap → Heap} (secure : m.Secure) (edited : Heap.Edited m.heap (change m.heap)) :
    Meets (modifyHeap change) m Secure fun _ m' => m' = { m with heap := change m.heap } :=
  ⟨secure.onHeap edited.safe edited.steady,rfl⟩

theorem modifyHeap_bind {change : Heap → Heap} {rest : PUnit → MachineM β} {always : Machine → Prop} {post : β → Machine → Prop}
    (follows : Meets (rest ⟨⟩) { m with heap := change m.heap } always post) : Meets (modifyHeap change >>= rest) m always post :=
  follows

theorem readHeap_meets {read : Heap → Except Error α} {post : α → Prop} (secure : m.Secure) (gives : Gives (read m.heap) post) :
    Meets (readHeap read) m Secure fun a m' => m' = m ∧ post a := by
  unfold Meets readHeap
  cases result : read m.heap with
  | ok a =>
      rw [result] at gives
      exact ⟨secure,rfl,gives⟩
  | error e =>
      rw [result] at gives
      exact ⟨gives,secure⟩

theorem readHeap_sound {read : Heap → Except Error Value} (secure : m.Secure) (gives : Gives (read m.heap) m.heap.Sound) :
    Meets (readHeap read) m Secure fun v m' => m'.heap.Sound v := by
  refine (readHeap_meets secure gives).imp ?_
  rintro v _ _ ⟨rfl,sound⟩
  exact sound

theorem reg_bind {rest : Value → MachineM β} {always : Machine → Prop} {post : β → Machine → Prop}
    (follows : Meets (rest (m.heap.registerValue (m.base + r))) m always post) : Meets (reg r >>= rest) m always post := follows

theorem setReg_meets (secure : m.Secure) (sound : m.heap.Sound v) :
    Meets (setReg r v) m Secure fun _ m' => m' = { m with heap := m.heap.setRegisterValue (m.base + r) v } :=
  have edited := Heap.setRegisterValue_edited (m.base + r) secure.safe sound
  ⟨secure.onHeap edited.safe edited.steady,rfl⟩

theorem setRegName_meets (secure : m.Secure) (sound : m.heap.Sound v) :
    Meets (setRegName r v) m Secure fun _ m' => m' = { m with heap := m.heap.setRegisterName (m.base + r) v } :=
  have edited := Heap.setRegisterName_edited (m.base + r) secure.safe sound
  ⟨secure.onHeap edited.safe edited.steady,rfl⟩

theorem store_meets {operation : MachineM Value} (meets : Meets operation m Secure fun v m' => m'.heap.Sound v) :
    Meets (operation >>= setReg r) m Secure fun _ _ => True :=
  meets.bind fun _ _ secure sound => (setReg_meets secure sound).done

theorem ensureWindow_meets (base size : Nat) (secure : m.Secure) :
    Meets (ensureWindow base size) m Secure fun _ m' => m' = m := by
  unfold Meets ensureWindow
  by_cases beyond : base + size > m.heap.registers.size
  · simp only [if_pos beyond]
    exact ⟨Error.noConfusion,secure⟩
  · simp only [if_neg beyond]
    exact ⟨secure,trivial⟩

theorem setPending_apart (m : Machine) (pending : Option (Value × Value)) :
    Heap.Apart m.heap (m.setPending pending).heap := by
  unfold setPending
  split
  constructor <;> rfl

theorem pending_books {books : Heap → List Pinned → Prop} (keeping : Bookkeeping books) (pending : Option (Value × Value))
    (kept : books m.heap m.pinned) : books (m.setPending pending).heap (m.setPending pending).pinned := by
  have first := keeping.set (pending.getD (.null,.null)).1 kept
  exact keeping.perm (keeping.set (pending.getD (.null,.null)).2 (keeping.perm first (.swap _ _ _))) (.swap _ _ _)

theorem Secure.setPending (secure : m.Secure) (pending : Option (Value × Value))
    (sound : ∀ receiver parent, pending = some (receiver,parent) → m.heap.Sound receiver ∧ m.heap.Sound parent) :
    (m.setPending pending).Secure := by
  have both : m.heap.Sound (pending.getD (.null,.null)).1 ∧ m.heap.Sound (pending.getD (.null,.null)).2 := by
    cases pending with
    | none => exact ⟨Heap.sound_plain _ rfl,Heap.sound_plain _ rfl⟩
    | some pair => exact sound pair.1 pair.2 rfl
  have same : m.setPending pending = { m with
      pending
      heap := (m.heap.setRoot pendingRoot (pending.getD (.null,.null)).1).setRoot pendingParentRoot
        (pending.getD (.null,.null)).2 } := rfl
  have ledger := pending_books Ledger.bookkeeping pending secure.ledger
  have safe := Heap.setRoot_safe pendingRoot secure.safe both.1
  rw [same] at ledger ⊢
  exact ⟨Heap.setRoot_safe pendingParentRoot safe (both.2.move fun _ => rfl),ledger,
    fun f member => (secure.functions f member).later fun _ immortal => immortal⟩

end Machine

end RegisterMachine
