import RegisterMachine.Heap.Table

namespace RegisterMachine

structure ListObject where
  items : Array Value
  capacity : Nat
  frozen : Bool
deriving DecidableEq, Inhabited

structure FuncRef where
  function : Nat
  outer : Value
deriving DecidableEq, Inhabited

inductive Object where
  | str (text : String)
  | list (list : ListObject)
  | map (table : Table)
  | funcRef (ref : FuncRef)
deriving DecidableEq, Inhabited

namespace ListObject

def ofItems (items : Array Value) (capacity : Nat) : ListObject :=
  ⟨items, capacity, false⟩

def push (list : ListObject) (item : Value) : ListObject :=
  let items := list.items.push item
  { list with items, capacity := Capacity.grown list.capacity items.size }

def insertAt (list : ListObject) (i : Nat) (item : Value) : ListObject :=
  let items := list.items.insertIdxIfInBounds i item
  { list with items, capacity := Capacity.grown list.capacity items.size }

def removeAt (list : ListObject) (i : Nat) : ListObject :=
  { list with items := list.items.eraseIdxIfInBounds i }

end ListObject

namespace Object

-- Bytes of an object: a fixed part and its contents.
def charge : Object → Nat
  | str text => 88 + text.utf8ByteSize
  | list l => 88 + 16 * l.capacity
  | map t => 88 + 40 * t.cells.size + (t.aliases.elim 0 fun a => 24 * a.capacity)
  | funcRef _ => 88

-- The values that an object keeps alive. The registers of an alias hold its value, so only its
-- key counts.
def references : Object → List Value
  | str _ => []
  | list l => l.items.toList
  | map t =>
    t.entries.flatMap (fun entry => [entry.key, entry.value]) ++
      t.aliases.elim [] fun a => a.bindings.toList.map Prod.fst
  | funcRef f => [f.outer]

end Object

-- A place for an object. Each time its object is freed the generation advances, so that handles
-- to the old object no longer fit.
structure Slot where
  object : Option Object
  generation : UInt32
  charge : Nat
  immortal : Bool
deriving DecidableEq, Inhabited

-- A call of its own, so that the slot lets go of the object before it is changed in place.
@[noinline]
def changeContent (change : Object → Object) (content : Option Object) : Option Object :=
  content.map change

end RegisterMachine
