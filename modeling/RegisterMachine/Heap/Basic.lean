import Std.Data.TreeMap
import RegisterMachine.Error
import RegisterMachine.Heap.Object

namespace RegisterMachine

structure HeapConfig where
  initialThreshold : Nat := 1024 * 1024
  maxBytes : Option Nat := none
  stress : Bool := false
deriving DecidableEq, Inhabited

structure Register where
  value : Value := .null
  name : Value := .null
deriving DecidableEq, Inhabited

structure Collection where
  freedBytes : Nat
  freedObjects : Nat
  remaining : Nat
  threshold : Nat
deriving DecidableEq, Inhabited

structure Heap where
  config : HeapConfig
  slots : Array Slot := #[]
  -- A mark for each slot, and marked handles whose objects are still to be traced. Between
  -- collections no mark is set and no handle waits.
  marks : Array Bool := #[]
  work : List Handle := []
  -- Slots without an object, the last freed first.
  free : List Nat := []
  live : Nat := 0
  bytes : Nat := 0
  threshold : Nat
  disabled : Nat := 0
  history : Array Collection := #[]
  -- Protected values, the latest first, and for each open scope how many there were before it.
  shadow : List Value := []
  scopes : List Nat := []
  roots : Array (Option Value) := #[]
  freeRoots : List Nat := []
  callbacks : Array (Option (List Value)) := #[]
  interned : Std.TreeMap String Handle := ∅
  registers : Array Register := #[]

abbrev HeapM := EStateM Error Heap

namespace Heap

def new (config : HeapConfig) : Heap :=
  { config, threshold := config.initialThreshold }

instance : Inhabited Heap := ⟨new {}⟩

-- The object behind a handle, if its slot is still at the handle's generation.
def object? (h : Heap) (r : Handle) : Option Object :=
  match h.slots[r.index]? with
  | some slot => if slot.generation = r.generation then slot.object else none
  | none => none

def isLive (h : Heap) (r : Handle) : Bool := (h.object? r).isSome

-- Replaces the object behind a live handle. The charge of the slot stays.
def modifyObject (h : Heap) (r : Handle) (f : Object → Object) : Heap :=
  { h with slots := h.slots.modify r.index fun slot =>
      { slot with object := changeContent f slot.object } }

def recharge (h : Heap) (r : Handle) : Heap :=
  match h.slots[r.index]? with
  | none => h
  | some slot =>
    if slot.immortal || slot.generation != r.generation then h
    else match slot.object with
      | none => h
      | some object =>
        let now := object.charge
        { h with
          bytes := h.bytes - slot.charge + now
          slots := h.slots.modify r.index fun slot => { slot with charge := now } }

def funcRef? (h : Heap) : Value → Option FuncRef
  | .funcRef r => match h.object? r with
    | some (.funcRef f) => some f
    | _ => none
  | _ => none

def list? (h : Heap) : Value → Option ListObject
  | .list r => match h.object? r with
    | some (.list l) => some l
    | _ => none
  | _ => none

def table? (h : Heap) : Value → Option Table
  | .map r => match h.object? r with
    | some (.map t) => some t
    | _ => none
  | _ => none

def text? (h : Heap) : Value → Option String
  | .short t => some t.text
  | .str r => match h.object? r with
    | some (.str text) => some text
    | _ => none
  | _ => none

def isInterned (h : Heap) : Value → Bool
  | .str r => match h.slots[r.index]? with
    | some slot => slot.generation == r.generation && slot.immortal
    | none => false
  | _ => false

def registerValue (h : Heap) (i : Nat) : Value := (h.registers.getD i {}).value

def registerName (h : Heap) (i : Nat) : Value := (h.registers.getD i {}).name

def setRegisterValue (h : Heap) (i : Nat) (value : Value) : Heap :=
  { h with registers := h.registers.modify i ({ · with value }) }

def setRegisterName (h : Heap) (i : Nat) (name : Value) : Heap :=
  { h with registers := h.registers.modify i ({ · with name }) }

def assignRegister (h : Heap) (i : Nat) (name value : Value) : Heap :=
  { h with registers := h.registers.modify i fun _ => { value, name } }

def assigned? (h : Heap) (i : Nat) : Option Value :=
  match h.registers[i]? with
  | some register => if register.name.isNull then none else some register.value
  | none => none

def resizeRegisters (h : Heap) (size : Nat) : Heap :=
  { h with registers :=
      h.registers.take size ++ Array.replicate (size - h.registers.size) ({} : Register) }

end Heap

end RegisterMachine
