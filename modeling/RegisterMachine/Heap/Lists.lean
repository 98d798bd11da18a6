import RegisterMachine.Heap.Allocate
import RegisterMachine.Heap.Comparison
import RegisterMachine.Heap.Equality

namespace RegisterMachine.Heap

def resolve? (index : Int32) (length : Nat) : Option Nat :=
  let i := if index.toInt < 0 then index.toInt + length else index.toInt
  if 0 ≤ i ∧ i < length then some i.toNat else none

def clampIndex (index : Int32) (length : Nat) : Nat :=
  let i := if index.toInt < 0 then index.toInt + length else index.toInt
  (min i length).toNat

def expectItems (h : Heap) (v : Value) : Except Error (Array Value) :=
  match h.items? v with
  | some items => .ok items
  | none => .error (.typeMismatch "list" v.kindName)

def listHandle (h : Heap) : Value → Except Error Handle
  | .list r => if h.isLive r then .ok r else .error .staleReference
  | v => .error (.typeMismatch "list" v.kindName)

-- The handle of a list that may be changed.
def writableList (h : Heap) (v : Value) : Except Error Handle :=
  match h.listHandle v with
  | .error e => .error e
  | .ok r => match h.list? v with
    | some l => if l.frozen then .error (.frozenMutation "list") else .ok r
    | none => .error .staleReference

def modifyList (h : Heap) (r : Handle) (change : ListObject → ListObject) : Heap :=
  h.modifyObject r fun
    | .list l => .list (change l)
    | object => object

def listCapacity (h : Heap) (v : Value) : Nat :=
  match h.list? v with
  | some l => l.capacity
  | none => 0

def updateList (v : Value) (change : ListObject → ListObject) : HeapM Unit := fun h =>
  match h.writableList v with
  | .error e => .error e h
  | .ok r =>
    let before := h.listCapacity v
    let h := h.modifyList r change
    .ok () (if h.listCapacity v = before then h else h.recharge r)

def listGet (h : Heap) (v : Value) (index : Int32) : Except Error Value := do
  let items ← h.expectItems v
  match (resolve? index items.size).bind (items[·]?) with
  | some item => .ok item
  | none => .error (.indexOutOfRange index.toInt items.size)

def listSet (v : Value) (index : Int32) (item : Value) : HeapM Unit := fun h =>
  match h.writableList v with
  | .error e => .error e h
  | .ok r =>
    let length := h.listCount v
    match resolve? index length with
    | some i =>
      .ok () (h.modifyList r fun l => { l with items := l.items.setIfInBounds i item })
    | none => .error (.indexOutOfRange index.toInt length) h

def listPush (v item : Value) : HeapM Unit :=
  updateList v (·.push item)

def listPop (v : Value) : HeapM Value := fun h =>
  match h.writableList v with
  | .error e => .error e h
  | .ok r =>
    let last := ((h.items? v).bind Array.back?).getD .null
    .ok last (h.modifyList r fun l => { l with items := l.items.pop })

def listPull (v : Value) : HeapM Value := fun h =>
  match h.writableList v with
  | .error e => .error e h
  | .ok r =>
    let first := ((h.items? v).bind (·[0]?)).getD .null
    .ok first (h.modifyList r (·.removeAt 0))

-- Inserts before a position; an index below zero counts from one past the end.
def listInsert (v : Value) (index : Int32) (item : Value) : HeapM Unit := fun h =>
  let length := h.listCount v
  let i := if index.toInt < 0 then index.toInt + length + 1 else index.toInt
  if i < 0 ∨ i > length then
    match h.listHandle v with
    | .error e => .error e h
    | .ok _ => .error (.indexOutOfRange index.toInt length) h
  else updateList v (·.insertAt i.toNat item) h

def listRemove (v : Value) (index : Int32) : HeapM Bool := fun h =>
  match h.writableList v with
  | .error e => .error e h
  | .ok r => match resolve? index (h.listCount v) with
    | some i => .ok true (h.modifyList r (·.removeAt i))
    | none => .ok false h

def listClear (v : Value) : HeapM Unit :=
  updateList v ({ · with items := #[] })

def listSlice (v : Value) (start stop : Int32) : HeapM Value := fun h =>
  match h.expectItems v with
  | .error e => .error e h
  | .ok items =>
    listOfItems (items.extract (clampIndex start items.size) (clampIndex stop items.size)) h

def listConcat (a b : Value) : HeapM Value := fun h =>
  match h.expectItems a with
  | .error e => .error e h
  | .ok first =>
    let second := (h.items? b).getD #[]
    newListOf (first ++ second) (Capacity.grown first.size (first.size + second.size)) h

def listCopy (v : Value) : HeapM Value := fun h =>
  match h.expectItems v with
  | .error e => .error e h
  | .ok items => listOfItems items h

-- Position of the first item of equal content, at `start` or later.
def listIndexOf? (h : Heap) (v item : Value) (start : Nat) : Option Nat :=
  (h.items? v).bind fun items =>
    ((items.toList.drop start).findIdx? (h.equal · item)).map (start + ·)

def listContains (h : Heap) (v item : Value) : Bool := (h.listIndexOf? v item 0).isSome

-- What a list is sorted by: an entry of each map, an item of each list, null for the rest.
def sortKey (h : Heap) (byKey element : Value) : Value :=
  match element with
  | .map _ => h.lookup element byKey
  | .list _ =>
    if byKey.isNumber then
      match h.listGet element byKey.asInt with
      | .ok item => item
      | .error _ => .null
    else .null
  | _ => .null

def notAfter (h : Heap) (a b : Value) : Bool := h.compareNatural a b != .gt

-- Whether a value has a place in the natural order. NaN ties with every number, and a string that is
-- gone with every string.
def hasPlace (h : Heap) (v : Value) : Bool :=
  match v with
  | .double d => !d.isNaN
  | .short _ | .str _ => (h.text? v).isSome
  | _ => true

-- Whether a sort is sure to end. Up to twenty items are put in one after the other; with more, keys
-- without a place may stop the program instead, which leaves the list empty.
def sortEnds (h : Heap) (v byKey : Value) : Bool :=
  match v with
  | .list r =>
    let items := ((h.items? v).getD #[]).toList
    let h := h.modifyList r fun l => { l with items := #[] }
    items.length ≤ 20 || items.all fun item =>
      h.hasPlace (if byKey.isNull then item else h.sortKey byKey item)
  | _ => true

-- Sorts a list by its items, or by their keys when `byKey` is not null, if the sort ends. The list is
-- empty while keys are read, and a list sorted by keys has room for twice its items.
def listSort (v byKey : Value) : HeapM Unit := fun h =>
  match h.writableList v with
  | .error e => .error e h
  | .ok r =>
    let items := ((h.items? v).getD #[]).toList
    if byKey.isNull then
      let sorted := (items.mergeSort h.notAfter).toArray
      .ok () (h.modifyList r fun l => { l with items := sorted })
    else
      let h := h.modifyList r fun l => { l with items := #[] }
      let keyed := items.map fun item => (h.sortKey byKey item, item)
      let sorted := (keyed.mergeSort fun a b => h.notAfter a.1 b.1).map Prod.snd
      .ok () (h.modifyList r fun l =>
        { l with items := sorted.toArray, capacity := 2 * sorted.length })

end RegisterMachine.Heap
