import RegisterMachine.Heap.Basic
import RegisterMachine.Value.Hash

namespace RegisterMachine

def maxDepth : Nat := 16

namespace Heap

def items? (h : Heap) (v : Value) : Option (Array Value) :=
  (h.list? v).map ListObject.items

def listCount (h : Heap) (v : Value) : Nat :=
  match h.list? v with
  | some l => l.items.size
  | none => 0

def sameText (h : Heap) (a b : Value) : Bool :=
  match a, b with
  | .short x, .short y => x == y
  | _, _ => h.text? a == h.text? b

def sameName (h : Heap) (a b : Value) : Bool :=
  a == b || (a.isString && b.isString && h.sameText a b)

-- The register that a key is an alias of.
def aliasRegister? (h : Heap) (aliases : Aliases) (key : Value) : Option Nat :=
  (aliases.bindings.find? fun (name, _) => h.sameName name key).map Prod.snd

def assignedAliases (h : Heap) (aliases : Aliases) : List (Value × Value) :=
  aliases.bindings.toList.filterMap fun (name, register) =>
    (h.assigned? register).map fun value => (name, value)

def aliasEntries (h : Heap) (table : Table) : List (Value × Value) :=
  match table.aliases with
  | some aliases => h.assignedAliases aliases
  | none => []

def tableEntries (table : Table) : List (Value × Value) :=
  table.entries.map fun entry => (entry.key, entry.value)

-- The entries of a map in iteration order; what is no live map has none.
def mapEntries (h : Heap) (v : Value) : List (Value × Value) :=
  match h.table? v with
  | some table => h.aliasEntries table ++ tableEntries table
  | none => []

def mapCount (h : Heap) (v : Value) : Nat :=
  match h.table? v with
  | some table => table.count + (h.aliasEntries table).length
  | none => 0

def mapCapacity (h : Heap) (v : Value) : Nat :=
  match h.table? v with
  | some table => table.cells.size
  | none => 0

def mapResizes (h : Heap) (v : Value) : Nat :=
  match h.table? v with
  | some table => table.resizes
  | none => 0

def nthEntry? (h : Heap) (v : Value) (n : Nat) : Option (Value × Value) :=
  match h.table? v with
  | some table =>
    let aliased := h.aliasEntries table
    if n < aliased.length then aliased[n]? else (tableEntries table)[n - aliased.length]?
  | none => none

def stringLength (h : Heap) (v : Value) : Nat :=
  match h.text? v with
  | some text => text.length
  | none => 0

-- Hash of a text; a handle to no text hashes to 0.
def stringHash (h : Heap) (v : Value) : UInt32 :=
  match h.text? v with
  | some text => Hash.ofText text
  | none => 0

def combineItems (hash : Value → UInt32) (start : UInt32) (items : List Value) : UInt32 :=
  items.foldl (fun running item => Hash.combine running (hash item)) start

-- The sum over the entries does not depend on their order.
def sumEntries (hash : Value → UInt32) (entries : List (Value × Value)) : UInt32 :=
  entries.foldl (fun sum (k, v) => sum + Hash.combine (hash k) (hash v)) 0

def hashWithin (h : Heap) (levels : Nat) (v : Value) : UInt32 :=
  match v with
  | .null => Hash.ofNull
  | .int i => Hash.ofDouble (.ofInt i.toInt)
  | .double d => Hash.ofDouble d
  | .short _ | .str _ => h.stringHash v
  | .list _ =>
    let items := ((h.items? v).getD #[]).toList
    let start := Hash.combine (Hash.ofText "list") (UInt32.ofNat items.length)
    Hash.nonzero (match levels with
      | 0 => start
      | levels + 1 => combineItems (hashWithin h levels) start items)
  | .map _ =>
    let entries := h.mapEntries v
    let start := Hash.combine (Hash.ofText "map") (UInt32.ofNat entries.length)
    Hash.nonzero (match levels with
      | 0 => start
      | levels + 1 => Hash.combine start (sumEntries (hashWithin h levels) entries))
  | .funcRef r => Hash.ofFunction r.index

def hash (h : Heap) (v : Value) : UInt32 := h.hashWithin maxDepth v

def isFrozen (h : Heap) (v : Value) : Bool :=
  match v with
  | .list _ => match h.list? v with
    | some l => l.frozen
    | none => false
  | .map _ => match h.table? v with
    | some t => t.frozen
    | none => false
  | _ => false

-- Truth of a value: numbers other than 0, texts and containers that are not empty, functions.
def isTruthy (h : Heap) (v : Value) : Bool :=
  match v with
  | .null => false
  | .int i => i != 0
  | .double d => !d.isZero
  | .short _ | .str _ => match h.text? v with
    | some text => !text.isEmpty
    | none => false
  | .list _ => h.listCount v > 0
  | .map _ => h.mapCount v > 0
  | .funcRef _ => true

end Heap

end RegisterMachine
