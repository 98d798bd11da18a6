import RegisterMachine.Function.Basic
import RegisterMachine.Heap.AliasMaps

namespace RegisterMachine

structure MachineConfig where
  stackSlots : Nat := 1024
  callSlots : Nat := 256
  trace : Bool := false
  entry : String := "@main"
  heap : HeapConfig := {}

inductive RunState where
  | idle
  | running
  -- The budget ran out; running goes on from here.
  | suspended
  | returned
  | faulted
deriving DecidableEq, Repr

-- How to resume the caller when a frame returns.
structure CallInfo where
  returnPc : Nat := 0
  returnBase : Nat := 0
  returnFunction : Nat := 0
  destination : Option Nat := none
deriving DecidableEq

-- A value that a frame holds on to, with the persistent root that keeps it alive.
structure Pinned where
  value : Value := .null
  pin : Option Nat := none
deriving DecidableEq

structure Frame where
  function : Nat
  base : Nat
  call : CallInfo := {}
  locals : Pinned := {}
  outer : Pinned := {}
  receiver : Pinned := {}
  parent : Pinned := {}
deriving DecidableEq

structure Fault where
  error : Error
  function : String
  pc : Nat
deriving DecidableEq

inductive ConsoleEvent where
  | printed (text : String)
  | asked (prompt : String)
deriving DecidableEq

inductive LogLevel where
  | error | warn | debug | trace
deriving DecidableEq

structure LogLine where
  level : LogLevel
  text : String
  collections : Nat
deriving DecidableEq

structure Machine where
  config : MachineConfig
  heap : Heap
  functions : Array Function := #[]
  -- Functions from here on are the intrinsics and what was added later.
  intrinsicBase : Nat := 0
  frames : Array Frame := #[]
  pc : Nat := 0
  base : Nat := 0
  function : Nat := 0
  state : RunState := .idle
  fault : Option Fault := none
  errors : Array String := #[]
  -- The receiver of a method that was found and not called yet, with its parent.
  pending : Option (Value × Value) := none
  console : Array ConsoleEvent := #[]
  inputs : List String := []
  log : Array LogLine := #[]

abbrev MachineM := EStateM Error Machine

namespace Machine

def pendingRoot : Nat := 0
def pendingParentRoot : Nat := 1
def typeRoot (i : Nat) : Nat := 2 + i
def typeRootCount : Nat := 5
def intrinsicsRoot : Nat := 7
def resultRoot : Nat := 8
def fixedRoots : Nat := 9

def selfName : Value := .shortText "self"
def superName : Value := .shortText "super"

def new (config : MachineConfig) : Machine :=
  let heap := (Heap.new config.heap).resizeRegisters config.stackSlots
  { config, heap := { heap with roots := Array.replicate fixedRoots (some .null) } }

def onHeap (operation : HeapM α) : MachineM α := fun m =>
  let h := m.heap
  let m := { m with heap := default }
  match operation h with
  | .ok result h => .ok result { m with heap := h }
  | .error e h => .error e { m with heap := h }

def modifyHeap (change : Heap → Heap) : MachineM Unit := fun m =>
  let h := m.heap
  let m := { m with heap := default }
  .ok () { m with heap := change h }

def readHeap (read : Heap → Except Error α) : MachineM α := fun m =>
  match read m.heap with
  | .ok result => .ok result m
  | .error e => .error e m

def inScope (operation : MachineM α) : MachineM α := fun m =>
  match operation { m with heap := m.heap.pushScope } with
  | .ok result m => .ok result { m with heap := m.heap.popScope }
  | .error e m => .error e { m with heap := m.heap.popScope }

def reg (r : Nat) : MachineM Value := fun m => .ok (m.heap.registerValue (m.base + r)) m

def setReg (r : Nat) (v : Value) : MachineM Unit := fun m =>
  let slot := m.base + r
  modifyHeap (·.setRegisterValue slot v) m

def setRegName (r : Nat) (name : Value) : MachineM Unit := fun m =>
  let slot := m.base + r
  modifyHeap (·.setRegisterName slot name) m

def addLog (m : Machine) (level : LogLevel) (text : String) : Machine :=
  { m with log := m.log.push { level, text, collections := m.heap.history.size } }

def functionName (m : Machine) (index : Nat) : String :=
  match m.functions[index]? with
  | some f => f.name
  | none => "???"

def functionIndex? (m : Machine) (name : String) : Option Nat :=
  m.functions.findIdx? (·.name == name)

def windowSize (m : Machine) (index : Nat) : Nat :=
  match m.functions[index]? with
  | some f => f.registers
  | none => 0

def isRunning (m : Machine) : Bool := m.state == .running || m.state == .suspended

-- Records an error against the current function and instruction, and stops.
def raise (m : Machine) (e : Error) : Machine :=
  let function := m.functionName m.function
  let pc := m.pc - 1
  let message := e.message
  let m := m.addLog .warn s!"runtime error in {function} at {pc}: {message}"
  { m with
    errors := m.errors.push s!"Runtime Error: {message} [{function} line {pc}]"
    fault := some { error := e, function, pc }
    state := .faulted }

def setPending (m : Machine) (pending : Option (Value × Value)) : Machine :=
  let (receiver, parent) := pending.getD (.null, .null)
  { m with
    pending
    heap := (m.heap.setRoot pendingRoot receiver).setRoot pendingParentRoot parent }

def ensureWindow (base size : Nat) : MachineM Unit := fun m =>
  let available := m.heap.registers.size
  if base + size > available then .error (.stackOverflow (base + size) available) m else .ok () m

end Machine

namespace Pinned

-- Holds a value; one behind a handle is kept alive by a root.
def set (p : Pinned) (h : Heap) (v : Value) : Pinned × Heap :=
  match p.pin with
  | some id => ({ p with value := v }, h.setRoot id v)
  | none =>
    if v.handle?.isSome then
      let (id, h) := h.addRoot v
      ({ value := v, pin := some id }, h)
    else ({ p with value := v }, h)

def release (p : Pinned) (h : Heap) : Heap :=
  match p.pin with
  | some id => h.removeRoot id
  | none => h

end Pinned

def Frame.release (f : Frame) (h : Heap) : Heap :=
  f.parent.release (f.receiver.release (f.outer.release (f.locals.release h)))

end RegisterMachine
