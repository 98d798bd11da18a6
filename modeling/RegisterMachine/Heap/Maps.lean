import RegisterMachine.Heap.Allocate
import RegisterMachine.Heap.Equality

namespace RegisterMachine.Heap

def mapHandle (h : Heap) : Value → Except Error Handle
  | .map r => if h.isLive r then .ok r else .error .staleReference
  | v => .error (.typeMismatch "map" v.kindName)

def writableMap (h : Heap) (v : Value) : Except Error Handle :=
  match h.mapHandle v with
  | .error e => .error e
  | .ok r => match h.table? v with
    | some t => if t.frozen then .error (.frozenMutation "map") else .ok r
    | none => .error .staleReference

def modifyTable (h : Heap) (r : Handle) (change : Table → Table) : Heap :=
  h.modifyObject r fun
    | .map t => .map (change t)
    | object => object

def aliasOf? (h : Heap) (v key : Value) : Option Nat :=
  match h.table? v with
  | some table => table.aliases.bind (h.aliasRegister? · key)
  | none => none

def findCell? (h : Heap) (v : Value) (hash : UInt32) (key : Value) : Option Nat :=
  match h.table? v with
  | some table => table.find? hash fun k => h.sameKey k key
  | none => none

def growsOnInsert (h : Heap) (v : Value) : Bool :=
  match h.table? v with
  | some table => table.needsGrowth
  | none => false

-- Binds a key in the table, past any alias. The charge changes when the table grows.
def store (h : Heap) (r : Handle) (key value : Value) : Heap :=
  let hash := h.hash key
  match h.findCell? (.map r) hash key with
  | some i => h.modifyTable r (·.setValue i value)
  | none =>
    let grows := h.growsOnInsert (.map r)
    let h := h.modifyTable r (·.insertNew { key, value, hash })
    if grows then h.recharge r else h

def storeAll (h : Heap) (r : Handle) (entries : List (Value × Value)) : Heap :=
  entries.foldl (fun h (key, value) => h.store r key value) h

def mapSet (v key value : Value) : HeapM Unit := fun h =>
  match h.writableMap v with
  | .error e => .error e h
  | .ok r => match h.aliasOf? v key with
    | some register => .ok () (h.assignRegister register key value)
    | none => .ok () (h.store r key value)

def unassign (h : Heap) (register : Nat) : Heap :=
  h.setRegisterName register .null

def mapRemove (v key : Value) : HeapM Bool := fun h =>
  match h.writableMap v with
  | .error e => .error e h
  | .ok r => match h.aliasOf? v key with
    | some register => .ok (h.assigned? register).isSome (h.unassign register)
    | none =>
      match h.findCell? v (h.hash key) key with
      | some i => .ok true (h.modifyTable r (·.removeAt i))
      | none => .ok false h

def aliasRegisters (h : Heap) (v : Value) : List Nat :=
  match (h.table? v).bind Table.aliases with
  | some aliases => aliases.bindings.toList.map Prod.snd
  | none => []

def mapClear (v : Value) : HeapM Unit := fun h =>
  match h.writableMap v with
  | .error e => .error e h
  | .ok r =>
    let h := (h.aliasRegisters v).foldl unassign h
    .ok () (h.modifyTable r Table.clear)

-- Entries are gathered in a buffer that starts with room for the table's own; in the room of an
-- entry two values fit.
def entryRoom (h : Heap) (v : Value) : Nat :=
  match h.table? v with
  | some table => 2 * Capacity.afterPushes table.count 0 (h.mapCount v)
  | none => 0

def mapKeys (v : Value) : HeapM Value := fun h =>
  newListOf ((h.mapEntries v).map Prod.fst).toArray (h.entryRoom v) h

def mapValues (v : Value) : HeapM Value := fun h =>
  newListOf ((h.mapEntries v).map Prod.snd).toArray (h.entryRoom v) h

def mapCopy (v : Value) : HeapM Value := fun h =>
  let entries := h.mapEntries v
  match newMap ((entries.length * 4 + 2) / 3 + 1) h with
  | .error e h => .error e h
  | .ok copy h => match h.mapHandle copy with
    | .error e => .error e h
    | .ok r => .ok copy (h.storeAll r entries)

def isaKey : Value := .shortText "__isa"

def maxIsaDepth : Nat := 256

def lookupAlong (h : Heap) (key : Value) : Nat → Value → Option (Value × Value)
  | 0, _ => none
  | steps + 1, v =>
    match h.lookup? v key with
    | some found => some (found, h.lookup v isaKey)
    | none => match h.lookup? v isaKey with
      | some parent => if parent.isMap then lookupAlong h key steps parent else none
      | none => none

def lookupWithOrigin? (h : Heap) (v key : Value) : Option (Value × Value) :=
  h.lookupAlong key maxIsaDepth v

-- The value of a key in a map or in one that it inherits from.
def lookupInherited? (h : Heap) (v key : Value) : Option Value :=
  (h.lookupWithOrigin? v key).map Prod.fst

end RegisterMachine.Heap
