import RegisterMachine.Proofs.Machine.Reachable
import RegisterMachine.Proofs.Machine.Stepping

namespace RegisterMachine.Machine

-- What a native function does in a window of registers.
abbrev Bodies := Function → Nat → MachineM Value

def own : Bodies := fun callee base =>
  match callee.native with
  | some native => runNative native base
  | none => pure .null

def launchWith (bodies : Bodies) (request : CallRequest) (callee : Function) (pending : Option (Value × Value)) : MachineM Unit :=
  if callee.native.isSome then do
    let result ← bodies callee request.base
    let m ← get
    let slot := match request.destination with
      | some d => m.base + d
      | none => request.base
    modifyHeap (·.setRegisterValue slot result)
    modify ({ · with pc := request.returnPc })
  else launch request callee pending

def enterWith (bodies : Bodies) (request : CallRequest) : MachineM Unit := do
  let m ← get
  match m.functions[request.function]? with
  | none => throw (.invalidFunction request.function)
  | some callee =>
    if callee.native.isNone && m.frames.size ≥ m.config.callSlots then throw .callStackOverflow
    seat request callee (m.bindsReceiver callee) m.pending
    launchWith bodies request callee m.pending

def callRefWith (bodies : Bodies) (f : FuncRef) (base destination : Nat) : MachineM Unit := do
  let m ← get
  enterWith bodies (m.refRequest f base destination)

def callAboveWith (bodies : Bodies) (f : FuncRef) (destination : Nat) : MachineM Unit := do
  let m ← get
  callRefWith bodies f (m.base + m.windowSize m.function) destination

def argumentBlockWith (bodies : Bodies) (count : Int) : MachineM Unit := do
  if count < 0 then throw (.sequencing "ARGBLK: negative argument count")
  let m ← get
  let callPc := m.pc + count.toNat
  match m.functions[m.function]?.bind (·.code[callPc]?) with
  | none => throw (.sequencing "ARGBLK: CALL instruction out of range")
  | some word =>
    if word.opcode? ≠ some .call then throw (.sequencing "ARGBLK must be followed by CALL")
    let target := m.heap.registerValue (m.base + word.c)
    match m.heap.funcRef? target with
    | none => throw (.typeMismatch "funcRef" target.kindName)
    | some f =>
      enterWith bodies
        { function := f.function, outer := f.outer, base := m.base + word.b
          arguments := some count.toNat, destination := some word.a, returnPc := callPc + 1 }

-- Six instructions call functions; the others do as always.
def performWith (bodies : Bodies) (op : Opcode) (word : Word) : MachineM Unit := do
  match op with
  | .loadCall =>
    let v ← namedRegister word.b word.c
    match (← get).heap.funcRef? v with
    | some f => callAboveWith bodies f word.a
    | none => setReg word.a v
  | .argumentBlock => argumentBlockWith bodies word.abcSigned
  | .callFunction =>
    let m ← get
    enterWith bodies
      { function := word.bc, outer := .null, base := m.base + word.a, arguments := none
        destination := none, returnPc := m.pc }
  | .callNamed =>
    let name ← constant word.bc
    let m ← get
    let name := m.heap.display name
    match m.functionIndex? name with
    | none => throw (.unknownFunction name)
    | some function =>
      enterWith bodies
        { function, outer := .null, base := m.base + word.a, arguments := none
          destination := none, returnPc := m.pc }
  | .call =>
    let target ← reg word.c
    let m ← get
    match m.heap.funcRef? target with
    | some f => callRefWith bodies f (m.base + word.b) word.a
    | none =>
      modify (·.setPending none)
      setReg word.a target
  | .callIfRef =>
    let v ← reg word.a
    let m ← get
    match m.heap.funcRef? v, m.pending with
    | some f, some _ => callAboveWith bodies f word.a
    | _, _ => modify (·.setPending none)
  | op => perform op word

def stepWith (bodies : Bodies) : MachineM Progress := do
  let word ← fetch
  match word.opcode? with
  | none => throw (.unknownOpcode word.opcodeByte)
  | some .ret =>
    match ← leave with
    | some result => pure (.finished result)
    | none => pure .next
  | some op =>
    performWith bodies op word
    pure .next

def executeWith (bodies : Bodies) : Nat → MachineM (Option Value)
  | 0 => pure none
  | budget + 1 => fun m =>
    if m.state ≠ .running then .ok none m
    else match stepWith bodies m with
      | .ok (.finished result) m => .ok (some result) m
      | .ok .next m => executeWith bodies budget m
      | .error e m => .error e m

def runWith (bodies : Bodies) (m : Machine) (budget : Nat) : Value × Machine :=
  if !m.isRunning then (.null, m)
  else match executeWith bodies budget { m with state := .running } with
    | .ok (some result) m =>
      (result, { m with state := .returned, heap := m.heap.setRoot resultRoot result })
    | .ok none m =>
      (.null, if m.state = .running then { m with state := .suspended } else m)
    | .error e m => (.null, m.raise e)

theorem launchWith_own (request : CallRequest) (callee : Function) (pending : Option (Value × Value)) :
    launchWith own request callee pending = launch request callee pending := by
  unfold launchWith launch own
  cases callee.native with
  | none => rfl
  | some native => rfl

theorem enterWith_own : enterWith own = enter := by
  funext request
  rw [enter_seats]
  refine bind_congr fun m => ?_
  cases m.functions[request.function]? with
  | none => rfl
  | some callee => simp only [launchWith_own]

theorem performWith_own (op : Opcode) (word : Word) : performWith own op word = perform op word := by
  cases op with
  | loadCall | callFunction | callNamed | call | callIfRef =>
      simp only [performWith,callAboveWith,callRefWith,enterWith_own]
      rfl
  | argumentBlock =>
      simp only [performWith,argumentBlockWith,enterWith_own]
      rfl
  | _ => rfl

theorem stepWith_own : stepWith own = step := by
  simp only [stepWith,performWith_own]
  rfl

theorem executeWith_own (budget : Nat) : executeWith own budget = execute budget := by
  induction budget with
  | zero => rfl
  | succ budget ih =>
      funext m
      simp only [executeWith,execute,stepWith_own]
      split
      · rfl
      · cases step m with
        | error e s => rfl
        | ok progress s =>
            cases progress with
            | finished v => rfl
            | next => exact congrFun ih s

theorem runWith_own (m : Machine) (budget : Nat) : m.runWith own budget = m.run budget := by
  unfold runWith run
  split
  · rfl
  · have same := congrFun (executeWith_own budget) { m with state := .running }
    cases outcome : execute budget { m with state := .running } with
    | error e s => simp only [same,outcome]
    | ok result s => cases result <;> simp only [same,outcome]

end RegisterMachine.Machine
