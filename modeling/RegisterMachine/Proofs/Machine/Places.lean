import RegisterMachine.Proofs.Machine.Operands

namespace RegisterMachine.Machine

structure Place where
  pc : Nat
  function : Nat
  functions : Array Function
  errors : Array String
  log : Array LogLine

def place (m : Machine) : Place := { pc := m.pc,function := m.function,functions := m.functions,errors := m.errors,log := m.log }

def moved (m : Machine) (p : Place) : Machine :=
  { m with pc := p.pc,function := p.function,functions := p.functions,errors := p.errors,log := p.log }

@[simp] theorem moved_heap (m : Machine) (p : Place) : (m.moved p).heap = m.heap := rfl

-- An outcome in another place.
def relocate (p : Place) : EStateM.Result Error Machine α → EStateM.Result Error Machine α
  | .ok a m => .ok a (m.moved p)
  | .error e m => .error e (m.moved p)

-- Operations that do the same in every place.
def Local (operation : MachineM α) : Prop := ∀ m p, operation (m.moved p) = relocate p (operation m)

-- Operations that leave the machine where it stands, however they end.
def Rests (operation : MachineM α) : Prop := ∀ m, (left (operation m)).place = m.place

namespace Local

theorem pure (a : α) : Local (Pure.pure a) := fun _ _ => rfl

theorem throw (e : Error) : Local (MonadExcept.throw e : MachineM α) := fun _ _ => rfl

theorem get_bind {rest : Machine → MachineM β} (same : ∀ m p, rest (m.moved p) = rest m) (follows : ∀ m, Local (rest m)) :
    Local (MonadState.get >>= rest) := by
  intro m p
  change rest (m.moved p) (m.moved p) = relocate p (rest m m)
  rw [same]
  exact follows m m p

theorem bind {first : MachineM α} {rest : α → MachineM β} (first_local : Local first) (follows : ∀ a, Local (rest a)) :
    Local (first >>= rest) := by
  intro m p
  simp only [Bind.bind,EStateM.bind,first_local m p]
  cases first m with
  | ok a s => exact follows a s p
  | error e s => rfl

theorem rests {operation : MachineM α} (sited : Local operation) : Rests operation := by
  intro m
  have here : operation m = relocate m.place (operation m) := sited m m.place
  rw [here]
  cases operation m <;> rfl

end Local

theorem onHeap_local (operation : HeapM α) : Local (onHeap operation) := by
  intro m p
  simp only [onHeap,moved_heap]
  cases operation m.heap <;> rfl

theorem modifyHeap_local (change : Heap → Heap) : Local (modifyHeap change) := fun _ _ => rfl

theorem readHeap_local (read : Heap → Except Error α) : Local (readHeap read) := by
  intro m p
  simp only [readHeap,moved_heap]
  cases read m.heap <;> rfl

theorem reg_local (r : Nat) : Local (reg r) := fun _ _ => rfl

theorem setReg_local (r : Nat) (v : Value) : Local (setReg r v) := fun _ _ => rfl

theorem setRegName_local (r : Nat) (name : Value) : Local (setRegName r name) := fun _ _ => rfl

theorem pending_local (pending : Option (Value × Value)) : Local (modify (·.setPending pending)) := fun _ _ => rfl

theorem ensureWindow_local (base size : Nat) : Local (ensureWindow base size) :=
  fun m p => (apply_ite (relocate p) (base + size > m.heap.registers.size)
    (.error (.stackOverflow (base + size) m.heap.registers.size) m) (.ok () m)).symm

theorem runIntrinsic_local (intrinsic : Intrinsic) (arg : Nat → Value) : Local (runIntrinsic intrinsic arg) := by
  cases intrinsic with
  | print | val | isFrozen | hasIndex | number | string | list | map | funcRef => exact fun _ _ => rfl
  | input =>
      refine Local.get_bind (fun _ _ => rfl) fun m => ?_
      have asked : Local (modifyGet (·.askLine (if (arg 0).isNull then "" else m.heap.display (arg 0)))) := fun _ _ => rfl
      exact asked.bind fun line => onHeap_local (Heap.newString line)
  | str => exact onHeap_local _
  | len =>
      refine Local.get_bind (fun _ _ => rfl) fun m => ?_
      simp only
      split
      · exact .pure _
      · exact .throw _
  | remove | frozenCopy | push | pop | pull | insert | indexes | values | join | split | replace | slice => exact onHeap_local _
  | freeze => exact (modifyHeap_local _).bind fun _ => .pure _
  | indexOf => exact readHeap_local (·.indexIn (arg 0) (arg 1))
  | sort =>
      simp only [runIntrinsic]
      split
      · exact (onHeap_local _).bind fun _ => .pure _
      · exact .pure _
  | upper | lower | trim =>
      simp only [runIntrinsic]
      split
      · exact onHeap_local _
      · exact .pure _

-- A step takes a word and carries it out.
def dispatch (word : Word) : MachineM Progress := do
  match word.opcode? with
  | none => throw (.unknownOpcode word.opcodeByte)
  | some .ret =>
    match ← leave with
    | some result => pure (.finished result)
    | none => pure .next
  | some op =>
    perform op word
    pure .next

theorem step_parts : step = fetch >>= dispatch := rfl

def traced (m : Machine) (word : Word) : Machine :=
  { m with log := if m.config.trace then (m.addLog .trace (m.traceLine (m.functionName m.function) m.pc word)).log else m.log }

theorem step_traced (next : m.nextWord? = some word) : step m = dispatch word { m.traced word with pc := m.pc + 1 } := by
  obtain ⟨f,found,read⟩ := Option.bind_eq_some_iff.mp next
  have named : m.functionName m.function = f.name := by rw [functionName,found]
  rw [step_parts,traced,named]
  simp only [bind,EStateM.bind,fetch,found,read]
  cases m.config.trace <;> rfl

theorem step_dispatches (next : m.nextWord? = some word) :
    ∃ log, step m = dispatch word { m with pc := m.pc + 1,log } ∧ (m.config.trace = false → log = m.log) := by
  refine ⟨_,step_traced next,fun quiet => ?_⟩
  simp only [traced,quiet,Bool.false_eq_true,if_false]

end RegisterMachine.Machine
