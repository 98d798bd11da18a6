import RegisterMachine.Proofs.Heap.Evolution
import RegisterMachine.Proofs.Heap.Receivers
import RegisterMachine.Proofs.Machine.Calls

namespace RegisterMachine

namespace Machine

structure Aside (written : Handle → Prop) (m m' : Machine) : Prop where
  frames : m'.frames = m.frames
  base : m'.base = m.base
  function : m'.function = m.function
  functions : m'.functions = m.functions
  config : m'.config = m.config
  state : m'.state = m.state ∨ m'.state = .faulted
  acts : Heap.Acts written m.heap m'.heap

-- The map that a frame gets for its locals.
def localsMap (m : Machine) (frame : Frame) : HeapM Value :=
  if m.windowSize frame.function = 0 then Heap.newMap 4 else Heap.newAliasMap frame.base (m.windowSize frame.function)

-- A call prepares the window of the callee before it pushes the frame.
inductive Shift (written : Handle → Prop) : Machine → Machine → Prop where
  | stay : Shift written m m
  | bind {m : Machine} {frame : Frame} : m.frames[i]? = some frame → frame.locals.value = .null →
      m.localsMap frame m.heap = .ok v h → Shift written m (setFrameLocals { m with heap := h } i v)
  | call {m s : Machine} {request : CallRequest} {callee : Function} {pending : Option (Value × Value)} :
      Aside written m s → s.functions[request.function]? = some callee →
      s.frames.size < s.config.callSlots → request.base + callee.registers ≤ s.heap.registers.size →
      Shift written m (s.pushFrame
        { function := request.function
          base := request.base
          call :=
            { returnPc := request.returnPc
              returnBase := s.base
              returnFunction := s.function
              destination := request.destination } }
        request.outer pending)
  | ret {m : Machine} {frame : Frame} : 1 < m.frames.size → m.topFrame? = some frame →
      (frame.locals.value.isMap = true → Heap.gather frame.locals.value m.heap = .ok () h) →
      (frame.locals.value.isMap = false → h = m.heap) →
      Shift written m { m with
        frames := m.frames.pop
        heap := frame.release h
        pc := frame.call.returnPc
        base := frame.call.returnBase
        function := frame.call.returnFunction }

-- The heap is as it was when the stack shifts.
def Turn (written : Handle → Prop) (m m' : Machine) : Prop :=
  ∃ s s', Aside written m s ∧ s.heap = m.heap ∧ Shift written s s' ∧ Aside written s' m'

theorem Aside.refl (m : Machine) : Aside written m m := ⟨rfl,rfl,rfl,rfl,rfl,Or.inl rfl,.refl⟩

theorem Aside.trans (first : Aside written m m') (second : Aside written m' m'') : Aside written m m'' where
  frames := second.frames.trans first.frames
  base := second.base.trans first.base
  function := second.function.trans first.function
  functions := second.functions.trans first.functions
  config := second.config.trans first.config
  state := by
    rcases second.state with same | stopped
    · rw [same]
      exact first.state
    · exact Or.inr stopped
  acts := first.acts.trans second.acts

theorem Aside.heap {m : Machine} (acts : Heap.Acts written m.heap h) : Aside written m { m with heap := h } :=
  ⟨rfl,rfl,rfl,rfl,rfl,Or.inl rfl,acts⟩

theorem Aside.turn (aside : Aside written m m') : Turn written m m' := ⟨m,m,.refl m,rfl,.stay,aside⟩

theorem Shift.turn (shift : Shift written m m') : Turn written m m' := ⟨m,m',.refl m,rfl,shift,.refl m'⟩

theorem Turn.before (aside : Aside written m m') (same : m'.heap = m.heap) (turn : Turn written m' m'') : Turn written m m'' := by
  obtain ⟨s,s',first,still,shift,last⟩ := turn
  exact ⟨s,s',aside.trans first,still.trans same,shift,last⟩

theorem Turn.after (turn : Turn written m m') (aside : Aside written m' m'') : Turn written m m'' := by
  obtain ⟨s,s',first,still,shift,last⟩ := turn
  exact ⟨s,s',first,still,shift,last.trans aside⟩

-- Operations that work aside, and operations that may shift the stack. A failed one may shift it
-- too, unless it came upon a stale reference.
def Works (written : Handle → Prop) (operation : MachineM α) (m : Machine) : Prop :=
  match operation m with
  | .ok _ m' => Aside written m m'
  | .error _ m' => Aside written m m'

def Turns (written : Handle → Prop) (operation : MachineM α) (m : Machine) : Prop :=
  match operation m with
  | .ok _ m' => Turn written m m'
  | .error e m' => e ≠ .staleReference → Turn written m m'

variable {m : Machine} {written : Handle → Prop}

theorem Works.turns {operation : MachineM α} (works : Works written operation m) : Turns written operation m := by
  unfold Works at works
  unfold Turns
  split at works
  · exact works.turn
  · exact fun _ => works.turn

theorem Works.pure (a : α) : Works written (Pure.pure a) m := .refl m

theorem Works.throw (e : Error) : Works written (MonadExcept.throw e : MachineM α) m := .refl m

theorem Works.get_bind {rest : Machine → MachineM β} (follows : Works written (rest m) m) :
    Works written (MonadState.get >>= rest) m := follows

theorem Works.bind {first : MachineM α} {rest : α → MachineM β} (works : Works written first m)
    (follows : ∀ a m', first m = .ok a m' → Works written (rest a) m') : Works written (first >>= rest) m := by
  unfold Works at works
  cases result : first m with
  | ok a m' =>
      rw [result] at works
      have later := follows a m' result
      simp only [Works,Bind.bind,EStateM.bind,result] at later ⊢
      split at later
      · exact works.trans later
      · exact works.trans later
  | error e m' =>
      rw [result] at works
      simpa only [Works,Bind.bind,EStateM.bind,result] using works

theorem Turns.get_bind {rest : Machine → MachineM β} (follows : Turns written (rest m) m) :
    Turns written (MonadState.get >>= rest) m := follows

theorem Works.bindTurns {first : MachineM α} {rest : α → MachineM β} (works : Works written first m)
    (follows : ∀ a m', first m = .ok a m' → m'.heap = m.heap ∧ Turns written (rest a) m') : Turns written (first >>= rest) m := by
  unfold Works at works
  cases result : first m with
  | ok a m' =>
      rw [result] at works
      obtain ⟨same,later⟩ := follows a m' result
      simp only [Turns,Bind.bind,EStateM.bind,result] at later ⊢
      split at later
      · exact .before works same later
      · exact fun fresh => .before works same (later fresh)
  | error e m' =>
      rw [result] at works
      simp only [Turns,Bind.bind,EStateM.bind,result]
      exact fun _ => works.turn

theorem Turns.bind {first : MachineM α} {rest : α → MachineM β} (turns : Turns written first m)
    (follows : ∀ a m', Works written (rest a) m') : Turns written (first >>= rest) m := by
  unfold Turns at turns
  cases result : first m with
  | ok a m' =>
      rw [result] at turns
      have later := follows a m'
      simp only [Works,Turns,Bind.bind,EStateM.bind,result] at later ⊢
      split at later
      · exact turns.after later
      · exact fun _ => turns.after later
  | error e m' =>
      rw [result] at turns
      simpa only [Turns,Bind.bind,EStateM.bind,result] using turns

theorem onHeap_works {operation : HeapM α} (performs : Heap.Performs written operation) : Works written (onHeap operation) m := by
  have acts := performs m.heap (.all _)
  unfold Heap.after at acts
  unfold Works onHeap
  cases result : operation m.heap with
  | ok a h =>
      simp only [result] at acts ⊢
      exact .heap acts
  | error e h =>
      simp only [result] at acts ⊢
      exact .heap acts

theorem modifyHeap_works {change : Heap → Heap} (acts : Heap.Acts written m.heap (change m.heap)) :
    Works written (modifyHeap change) m := Aside.heap acts

theorem readHeap_works (read : Heap → Except Error α) : Works written (readHeap read) m := by
  unfold Works readHeap
  cases read m.heap with
  | ok a => exact .refl m
  | error e => exact .refl m

theorem setReg_works (r : Nat) (v : Value) : Works written (setReg r v) m := Aside.heap .register

theorem setRegName_works (r : Nat) (name : Value) : Works written (setRegName r name) m := Aside.heap .register

theorem setPending_aside (m : Machine) (pending : Option (Value × Value)) : Aside written m (m.setPending pending) := by
  unfold setPending
  split
  exact ⟨rfl,rfl,rfl,rfl,rfl,Or.inl rfl,.reroot⟩

theorem ensureWindow_works (base size : Nat) : Works written (ensureWindow base size) m := by
  unfold Works ensureWindow
  by_cases beyond : base + size > m.heap.registers.size
  · simp only [if_pos beyond]
    exact .refl m
  · simp only [if_neg beyond]
    exact .refl m

theorem constant_works (index : Nat) : Works written (constant index) m := by
  unfold Works constant
  split
  · rename_i done
    split at done
    · cases done
      exact .refl _
    · cases done
  · rename_i failed
    split at failed
    · cases failed
    · cases failed
      exact .refl _

theorem namedRegister_works (r k : Nat) : Works written (namedRegister r k) m := by
  refine (constant_works k).bind fun name m' _ => ?_
  simp only [Works]
  split
  · rename_i done
    split at done
    · cases done
      exact .refl _
    · split at done
      · cases done
        exact .refl _
      · cases done
  · rename_i failed
    split at failed
    · cases failed
    · split at failed
      · cases failed
      · cases failed
        exact .refl _

theorem Aside.mono (aside : Aside written m m') (wider : ∀ r, written r → may r) : Aside may m m' :=
  ⟨aside.frames,aside.base,aside.function,aside.functions,aside.config,aside.state,aside.acts.mono wider⟩

theorem Shift.mono (shift : Shift written m m') (wider : ∀ r, written r → may r) : Shift may m m' := by
  cases shift with
  | stay => exact .stay
  | bind found null made => exact .bind found null made
  | call aside found room window => exact .call (aside.mono wider) found room window
  | ret deep top gathered plain => exact .ret deep top gathered plain

theorem Turns.mono {operation : MachineM α} (turns : Turns written operation m) (wider : ∀ r, written r → may r) :
    Turns may operation m := by
  have each : ∀ {m'}, Turn written m m' → Turn may m m' := by
    rintro m' ⟨s,s',first,same,shift,last⟩
    exact ⟨s,s',first.mono wider,same,shift.mono wider,last.mono wider⟩
  unfold Turns at turns ⊢
  split at turns
  · exact each turns
  · exact fun fresh => each (turns fresh)

end Machine

end RegisterMachine
