import RegisterMachine.Heap.Capacity
import RegisterMachine.Value.Basic

namespace RegisterMachine

structure Entry where
  key : Value
  value : Value
  hash : UInt32
deriving DecidableEq, Inhabited

structure Aliases where
  bindings : Array (Value × Nat)
  capacity : Nat
deriving DecidableEq, Inhabited

def Aliases.push (aliases : Aliases) (key : Value) (register : Nat) : Aliases where
  bindings := aliases.bindings.push (key, register)
  capacity := Capacity.grown aliases.capacity (aliases.bindings.size + 1)

structure Table where
  cells : Array (Option Entry)
  count : Nat
  resizes : Nat
  frozen : Bool
  aliases : Option Aliases
deriving DecidableEq, Inhabited

namespace Table

-- The least power of two that is at least 8 and at least the wanted number.
def cellsFor (wanted : Nat) : Nat :=
  if wanted ≤ 8 then 8 else Nat.pow 2 ((wanted - 1).log2 + 1)

def withCapacity (wanted : Nat) : Table where
  cells := Array.replicate (cellsFor wanted) none
  count := 0
  resizes := 0
  frozen := false
  aliases := none

-- The largest power of two in a machine word: tables can be made for so many cells.
def maxWanted : Nat := 0x8000000000000000

abbrev Wanted : Type := Fin (maxWanted + 1)

instance (priority := 2000) (n : Nat) : OfNat Wanted n := ⟨Fin.ofNat (maxWanted + 1) n⟩

-- The table that a host gets for any number: beyond the largest power of two the count of cells
-- comes round to none at all, and the first insertion finds no place.
def sized (wanted : Nat) : Table where
  cells := Array.replicate (cellsFor wanted % 0x10000000000000000) none
  count := 0
  resizes := 0
  frozen := false
  aliases := none

def cellAt (cells : Array (Option Entry)) (i : Nat) : Option Entry :=
  cells.getD i none

def home (cells : Array (Option Entry)) (hash : UInt32) : Nat :=
  hash.toNat % cells.size

def next (cells : Array (Option Entry)) (i : Nat) : Nat :=
  (i + 1) % cells.size

def freeCell (cells : Array (Option Entry)) : Nat → Nat → Nat
  | 0, i => i
  | steps + 1, i =>
    match cellAt cells i with
    | none => i
    | some _ => freeCell cells steps (next cells i)

-- An entry put into the first free cell from its home. The table has room and no equal key.
def place (cells : Array (Option Entry)) (entry : Entry) : Array (Option Entry) :=
  cells.setIfInBounds (freeCell cells cells.size (home cells entry.hash)) (some entry)

def needsGrowth (table : Table) : Bool :=
  (table.count + 1) * 4 > table.cells.size * 3

def entries (table : Table) : List Entry :=
  table.cells.toList.filterMap id

def grow (table : Table) : Table :=
  { table with
    cells := table.entries.foldl place (Array.replicate (table.cells.size * 2) none)
    resizes := table.resizes + 1 }

def insertNew (table : Table) (entry : Entry) : Table :=
  let table := if table.needsGrowth then table.grow else table
  { table with cells := place table.cells entry, count := table.count + 1 }

-- From the key's home, through at most `steps` cells, to the entry or to the end of the run.
def search (cells : Array (Option Entry)) (hash : UInt32) (isKey : Value → Bool) :
    Nat → Nat → Option Nat
  | 0, _ => none
  | steps + 1, i =>
    match cellAt cells i with
    | none => none
    | some entry =>
      if entry.hash == hash && isKey entry.key then some i
      else search cells hash isKey steps (next cells i)

-- The cell of the entry with this hash whose key passes the test.
def find? (table : Table) (hash : UInt32) (isKey : Value → Bool) : Option Nat :=
  search table.cells hash isKey table.cells.size (home table.cells hash)

def seek (cells : Array (Option Entry)) (hash : UInt32) (isKey : Value → Option Bool) :
    Nat → Nat → Option (Option Nat)
  | 0, _ => some none
  | steps + 1, i =>
    match cellAt cells i with
    | none => some none
    | some entry =>
      if entry.hash == hash then
        match isKey entry.key with
        | some true => some (some i)
        | some false => seek cells hash isKey steps (next cells i)
        | none => none
      else seek cells hash isKey steps (next cells i)

def seek? (table : Table) (hash : UInt32) (isKey : Value → Option Bool) : Option (Option Nat) :=
  seek table.cells hash isKey table.cells.size (home table.cells hash)

def setValue (table : Table) (i : Nat) (value : Value) : Table :=
  { table with cells := table.cells.modify i (·.map ({ · with value })) }

-- The entries after a removed one are taken out and placed again, up to the end of their run.
def restore : Nat → Array (Option Entry) → Nat → Array (Option Entry)
  | 0, cells, _ => cells
  | steps + 1, cells, i =>
    match cellAt cells i with
    | none => cells
    | some entry => restore steps (place (cells.setIfInBounds i none) entry) (next cells i)

def removeAt (table : Table) (i : Nat) : Table :=
  let cells := table.cells.setIfInBounds i none
  { table with cells := restore cells.size cells (next cells i), count := table.count - 1 }

def clear (table : Table) : Table :=
  { table with cells := Array.replicate table.cells.size none, count := 0 }

end Table

end RegisterMachine
