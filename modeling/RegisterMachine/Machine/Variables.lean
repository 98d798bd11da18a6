import RegisterMachine.Machine.Basic

namespace RegisterMachine.Machine

def constant (index : Nat) : MachineM Value := fun m =>
  match m.functions[m.function]?.bind (·.constants[index]?) with
  | some v => .ok v m
  | none => .error (.sequencing "constant index out of range") m

def topFrame? (m : Machine) : Option Frame := m.frames.back?

-- The first register of a window that carries a name.
def namedSlot? (m : Machine) (first size : Nat) (name : Value) : Option Nat :=
  (List.range' first size).find? fun slot => m.heap.sameName name (m.heap.registerName slot)

def lookupGlobal? (m : Machine) (name : Value) : Option Value :=
  m.frames[0]?.bind fun globals =>
    match m.namedSlot? globals.base (m.windowSize globals.function) name with
    | some slot => some (m.heap.registerValue slot)
    | none => m.heap.lookup? globals.locals.value name

def lookupReceiver? (m : Machine) (name : Value) : Option Value :=
  if m.heap.sameName name selfName then
    some (m.topFrame?.elim .null (·.receiver.value))
  else if m.heap.sameName name superName then
    some (m.topFrame?.elim .null (·.parent.value))
  else none

def lookupVariable (m : Machine) (name : Value) : Except Error Value :=
  let captured := m.topFrame?.bind fun frame => m.heap.lookup? frame.outer.value name
  let found := captured
    |>.or (m.lookupGlobal? name)
    |>.or (m.heap.lookup? (m.heap.root intrinsicsRoot) name)
    |>.or (m.lookupReceiver? name)
  match found with
  | some v => .ok v
  | none => .error (.undefinedIdentifier (m.heap.display name))

def namedRegister (r k : Nat) : MachineM Value := do
  let name ← constant k
  fun m =>
    let slot := m.base + r
    if m.heap.sameName name (m.heap.registerName slot) then .ok (m.heap.registerValue slot) m
    else match m.lookupVariable name with
      | .ok v => .ok v m
      | .error e => .error e m

-- Names a register; the map of the frame's locals, if it exists, learns of it.
def nameRegister (r : Nat) (name : Value) : MachineM Unit := do
  setRegName r name
  let m ← get
  match m.topFrame? with
  | some frame =>
    if m.heap.isAliasMap frame.locals.value then
      let slot := m.base + r
      onHeap (Heap.bindRegister frame.locals.value name slot)
    else pure ()
  | none => pure ()

def setFrameLocals (m : Machine) (index : Nat) (v : Value) : Machine :=
  match m.frames[index]? with
  | none => m
  | some frame =>
    let (locals, heap) := frame.locals.set m.heap v
    { m with heap, frames := m.frames.setIfInBounds index { frame with locals } }

-- The map of a frame's locals, made on first use.
def frameLocals (index : Nat) : MachineM Value := do
  let m ← get
  match m.frames[index]? with
  | none => pure .null
  | some frame =>
    if !frame.locals.value.isNull then pure frame.locals.value
    else
      let size := m.windowSize frame.function
      let map ← onHeap (if size = 0 then Heap.newMap 4 else Heap.newAliasMap frame.base size)
      modify (·.setFrameLocals index map)
      pure map

def currentLocals : MachineM Value := do
  frameLocals ((← get).frames.size - 1)

def outerVariables : MachineM Value := do
  let m ← get
  match m.topFrame? with
  | some frame =>
    if !frame.outer.value.isNull && m.frames.size > 1 then pure frame.outer.value
    else frameLocals 0
  | none => frameLocals 0

end RegisterMachine.Machine
