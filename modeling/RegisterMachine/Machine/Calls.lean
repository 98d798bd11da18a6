import RegisterMachine.Machine.Intrinsics
import RegisterMachine.Machine.Variables

namespace RegisterMachine.Machine

def argumentValue (m : Machine) (word : Word) : Except Error Value :=
  match word.opcode? with
  | some .argument => .ok (m.heap.registerValue (m.base + word.a))
  | some .argumentInt => .ok (.int (Int32.ofInt word.abcSigned))
  | _ => .error (.sequencing "Expected ARG opcode in ARGBLK")

-- The operands of the next `count` instructions from `pc` on.
def argumentValues (m : Machine) (code : Array Word) : Nat → Nat → Except Error (List Value)
  | 0, _ => .ok []
  | count + 1, pc =>
    match code[pc]? with
    | none => .error (.sequencing "ARGBLK: CALL instruction out of range")
    | some word => do
      let v ← argumentValue m word
      let rest ← argumentValues m code count (pc + 1)
      .ok (v :: rest)

def fillParameters (callee : Function) (base : Nat) : Nat → List Value → Heap → Heap
  | _, [], h => h
  | p, v :: rest, h =>
    let name := (callee.parameters.getD p default).name
    fillParameters callee base (p + 1) rest (h.assignRegister (base + 1 + p) name v)

def fillDefaults (callee : Function) (filled base : Nat) (h : Heap) : Heap :=
  (List.range' filled (callee.parameters.size - filled)).foldl
    (fun h p =>
      let parameter := callee.parameters.getD p default
      h.assignRegister (base + 1 + p) parameter.name parameter.default) h

def clearWindow (callee : Function) (base : Nat) (h : Heap) : Heap :=
  let first := callee.parameters.size + 1
  (List.range' first (callee.registers - first)).foldl
    (fun h r => h.assignRegister (base + r) .null .null) (h.assignRegister base .null .null)

-- Reads the arguments, all before the first is stored, and sets up the window of the callee.
def passArguments (callee : Function) (count first base : Nat) : MachineM Unit := fun m =>
  let expected := callee.parameters.size - first
  if count > expected then .error (.tooManyArguments count expected) m
  else
    let code := match m.functions[m.function]? with
      | some f => f.code
      | none => #[]
    match argumentValues m code count m.pc with
    | .error e => .error e m
    | .ok values =>
      modifyHeap (fun h => clearWindow callee base
        (fillDefaults callee (first + count) base (fillParameters callee base first values h))) m

def pushFrame (m : Machine) (frame : Frame) (outer : Value) (pending : Option (Value × Value)) :
    Machine :=
  let (outer, heap) := frame.outer.set m.heap outer
  let (receiver, parent, heap) := match pending with
    | some (receiver, parent) =>
      let (receiver, heap) := frame.receiver.set heap receiver
      let (parent, heap) := frame.parent.set heap parent
      (receiver, parent, heap)
    | none => (frame.receiver, frame.parent, heap)
  { m with
    heap
    frames := m.frames.push { frame with outer, receiver, parent }
    base := frame.base
    function := frame.function
    pc := 0 }

def bindsReceiver (m : Machine) (callee : Function) : Bool :=
  m.pending.isSome && match callee.parameters[0]? with
    | some parameter => m.heap.sameName parameter.name selfName
    | none => false

-- A call: where the callee's window starts, how many argument instructions follow (none of the
-- parameters is touched when there is no such number), and how to resume.
structure CallRequest where
  function : Nat
  outer : Value
  base : Nat
  arguments : Option Nat
  destination : Option Nat
  returnPc : Nat

-- Enters a function. A pending receiver is used up either way.
def enter (request : CallRequest) : MachineM Unit := do
  let m ← get
  match m.functions[request.function]? with
  | none => throw (.invalidFunction request.function)
  | some callee =>
    let binds := m.bindsReceiver callee
    if callee.native.isNone && m.frames.size ≥ m.config.callSlots then throw .callStackOverflow
    ensureWindow request.base callee.registers
    let first := if binds then 1 else 0
    match request.arguments with
    | some count => passArguments callee count first request.base
    | none => pure ()
    let pending := m.pending
    modify (·.setPending none)
    match binds, pending with
    | true, some (receiver, _) =>
      modifyHeap (·.assignRegister (request.base + 1) selfName receiver)
    | _, _ => pure ()
    match callee.native with
    | some native =>
      let result ← runNative native request.base
      let m ← get
      let slot := match request.destination with
        | some d => m.base + d
        | none => request.base
      modifyHeap (·.setRegisterValue slot result)
      modify ({ · with pc := request.returnPc })
    | none =>
      modify fun m =>
        m.pushFrame
          { function := request.function
            base := request.base
            call :=
              { returnPc := request.returnPc
                returnBase := m.base
                returnFunction := m.function
                destination := request.destination } }
          request.outer pending

def callRef (f : FuncRef) (base : Nat) (destination : Nat) : MachineM Unit := do
  let m ← get
  enter
    { function := f.function, outer := f.outer, base, arguments := some 0
      destination := some destination, returnPc := m.pc }

def argumentBlock (count : Int) : MachineM Unit := do
  if count < 0 then throw (.sequencing "ARGBLK: negative argument count")
  let m ← get
  let callPc := m.pc + count.toNat
  match m.functions[m.function]?.bind (·.code[callPc]?) with
  | none => throw (.sequencing "ARGBLK: CALL instruction out of range")
  | some word =>
    if word.opcode? ≠ some .call then throw (.sequencing "ARGBLK must be followed by CALL")
    let target := m.heap.registerValue (m.base + word.c)
    match m.heap.funcRef? target with
    | none => throw (.typeMismatch "funcRef" target.kindName)
    | some f =>
      enter
        { function := f.function, outer := f.outer, base := m.base + word.b
          arguments := some count.toNat, destination := some word.a, returnPc := callPc + 1 }

-- Leaves the current frame. The entry function's frame stays, and its result ends the run.
def leave : MachineM (Option Value) := do
  let m ← get
  let result := m.heap.registerValue m.base
  if m.frames.size ≤ 1 then pure (some result)
  else match m.topFrame? with
    | none => pure (some result)
    | some frame =>
      modify fun m => { m with frames := m.frames.pop }
      if frame.locals.value.isMap then onHeap (Heap.gather frame.locals.value)
      modifyHeap frame.release
      modify ({ · with
        pc := frame.call.returnPc
        base := frame.call.returnBase
        function := frame.call.returnFunction })
      match frame.call.destination with
      | some d => setReg d result
      | none => pure ()
      pure none

end RegisterMachine.Machine
