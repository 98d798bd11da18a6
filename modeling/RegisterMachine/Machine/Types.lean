import RegisterMachine.Heap.Strings
import RegisterMachine.Machine.Basic

namespace RegisterMachine.Machine

-- The place of a kind among the type maps; both kinds of numbers share one.
def typeIndex? : Kind → Option Nat
  | .int | .double => some 0
  | .string => some 1
  | .list => some 2
  | .map => some 3
  | .funcRef => some 4
  | .null => none

def typeMap (m : Machine) (kind : Kind) : Value :=
  match typeIndex? kind with
  | some i => m.heap.root (typeRoot i)
  | none => .null

def isaAlong (h : Heap) (target : Value) : Nat → Value → Bool
  | 0, _ => false
  | steps + 1, v =>
    match h.lookup? v Heap.isaKey with
    | some parent => parent == target || isaAlong h target steps parent
    | none => false

-- Identity, the type of the value, or anything it inherits from.
def isa (m : Machine) (v target : Value) : Bool :=
  let type := m.typeMap v.kind
  v == target || (!type.isNull && type == target) ||
    isaAlong m.heap target Heap.maxIsaDepth v

-- A method of a value: found along its inheritance, or among the methods of its kind. Finding
-- one makes the value the receiver of the next call. Lists and strings are indexed otherwise.
def findMethod (container key : Value) : MachineM Value := do
  let m ← get
  let inherited := if container.isMap then m.heap.lookupWithOrigin? container key else none
  match inherited with
  | some (found, parent) =>
    modify (·.setPending (some (container, parent)))
    pure found
  | none =>
    match m.heap.lookup? (m.typeMap container.kind) key with
    | some found =>
      modify (·.setPending (some (container, .null)))
      pure found
    | none =>
      match container with
      | .map _ => throw (.keyNotFound (m.heap.display key))
      | .list _ => readHeap (·.listGet container key.asInt)
      | .short _ | .str _ => readHeap (·.stringCharAt container key.asInt)
      | _ => throw (.notIndexable (m.heap.literal container))

end RegisterMachine.Machine
