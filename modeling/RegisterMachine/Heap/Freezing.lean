import RegisterMachine.Heap.Lists
import RegisterMachine.Heap.Maps

namespace RegisterMachine.Heap

def contents (h : Heap) (r : Handle) : List Value :=
  match h.object? r with
  | some (.list l) => l.items.toList
  | some (.map _) => (h.mapEntries (.map r)).flatMap fun (key, value) => [key, value]
  | _ => []

def freezeObject : Object → Object
  | .list l => .list { l with frozen := true }
  | .map t => .map { t with frozen := true }
  | object => object

def insideOf (h : Heap) (v : Value) : Array Bool :=
  (Marking.trace h.slots h.contents h.slots.size
    (Marking.markValue h.slots (Marking.start h.slots) v)).marks

def freeze (h : Heap) (v : Value) : Heap :=
  let inside := h.insideOf v
  { h with
    slots := h.slots.mapIdx fun i slot =>
      if inside.getD i false then { slot with object := slot.object.map freezeObject } else slot }

abbrev Copies := List (Handle × Value)

def copyItems (copy : Value → Copies → HeapM (Value × Copies)) (out : Value) :
    List Value → Copies → HeapM Copies
  | [], copies => pure copies
  | item :: rest, copies => do
    let (item, copies) ← copy item copies
    listPush out item
    copyItems copy out rest copies

def copyEntries (copy : Value → Copies → HeapM (Value × Copies)) (out : Value) :
    List (Value × Value) → Copies → HeapM Copies
  | [], copies => pure copies
  | (key, value) :: rest, copies => do
    let (key, copies) ← copy key copies
    modify (·.protect key)
    let (value, copies) ← copy value copies
    mapSet out key value
    copyEntries copy out rest copies

-- Copies a value with the containers inside it, at most `levels` deep.
def copyDeep (levels : Nat) (v : Value) (copies : Copies) : HeapM (Value × Copies) :=
  match levels, v.handle? with
  | _, none | 0, some _ => pure (v, copies)
  | levels + 1, some r =>
    match copies.lookup r with
    | some copy => pure (copy, copies)
    | none => match v with
      | .list _ => do
        let items := ((← get).items? v).getD #[]
        let out ← newList items.size
        modify (·.protect out)
        let copies ← copyItems (copyDeep levels) out items.toList ((r, out) :: copies)
        pure (out, copies)
      | .map _ => do
        let entries := (← get).mapEntries v
        let out ← newMap (entries.length * 2)
        modify (·.protect out)
        let copies ← copyEntries (copyDeep levels) out entries ((r, out) :: copies)
        pure (out, copies)
      | _ => pure (v, copies)

-- A frozen copy of a value. No chain of containers is longer than the number of slots.
def frozenCopy (v : Value) : HeapM Value := do
  let levels := (← get).slots.size + 2
  let (copy, _) ← inScope (copyDeep levels v [])
  modify (·.freeze copy)
  pure copy

end RegisterMachine.Heap
