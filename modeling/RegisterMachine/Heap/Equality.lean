import RegisterMachine.Heap.View

namespace RegisterMachine.Heap

def lookupWith (h : Heap) (sameKey : Value → Value → Bool) (table : Table) (key : Value) :
    Option Value :=
  match table.aliases.bind (h.aliasRegister? · key) with
  | some register => h.assigned? register
  | none =>
    if table.count = 0 then none
    else
      (table.find? (h.hash key) fun k => k == key || sameKey k key).bind fun i =>
        (Table.cellAt table.cells i).map Entry.value

def allEqual (equal : Value → Value → Bool) : List Value → List Value → Bool
  | [], [] => true
  | a :: as, b :: bs => equal a b && allEqual equal as bs
  | _, _ => false

-- Equality of content with `levels` container levels left to descend.
def equalWithin (h : Heap) (sameKey : Value → Value → Bool) (levels : Nat) (a b : Value) : Bool :=
  match a, b with
  | .null, .null => true
  | .int x, .int y => x == y
  | .list x, .list y =>
    x == y || match levels with
      | 0 => false
      | levels + 1 => match h.items? a, h.items? b with
        | some xs, some ys =>
          xs.size == ys.size && allEqual (equalWithin h sameKey levels) xs.toList ys.toList
        | _, _ => false
  | .map x, .map y =>
    x == y || match levels with
      | 0 => false
      | levels + 1 =>
        h.mapCount a == h.mapCount b && (h.mapEntries a).all fun (key, value) =>
          match (h.table? b).bind (h.lookupWith sameKey · key) with
          | some other => equalWithin h sameKey levels value other
          | none => false
  | .funcRef x, .funcRef y => x == y
  | _, _ =>
    if a.isNumber && b.isNumber then a.asDouble.same b.asDouble
    else if a.isString && b.isString then a == b || h.sameText a b
    else false

-- Equality of content where map keys may hold maps in turn, `nesting` times.
def equalNested (h : Heap) : Nat → Value → Value → Bool
  | 0, _, _ => false
  | nesting + 1, a, b => h.equalWithin (equalNested h nesting) maxDepth a b

-- Maps that contain each other through keys are compared without end, each time from the first level
-- again, until there is no room left for the comparisons that wait. There is room for fewer than this.
def keyNesting : Nat := 0x1000000000000000

-- What a comparison gives that ends. Of one that does not, `equal?` tells.
def equal (h : Heap) (a b : Value) : Bool :=
  h.equalNested (keyNesting + 1) a b

def allPass (test : α → Option Bool) : List α → Option Bool
  | [] => some true
  | a :: rest => match test a with
    | some true => allPass test rest
    | decision => decision

def decideLookup (h : Heap) (sameKey : Value → Value → Option Bool) (v key : Value) :
    Option (Option Value) :=
  match h.table? v with
  | none => some none
  | some table => match table.aliases.bind (h.aliasRegister? · key) with
    | some register => some (h.assigned? register)
    | none =>
      if table.count = 0 then some none
      else
        (table.seek? (h.hash key) fun k => if k == key then some true else sameKey k key).map
          fun found => found.bind fun i => (Table.cellAt table.cells i).map Entry.value

def decideEntry (h : Heap) (sameKey equal : Value → Value → Option Bool) (v : Value)
    (entry : Value × Value) : Option Bool :=
  match h.decideLookup sameKey v entry.1 with
  | some (some other) => equal entry.2 other
  | some none => some false
  | none => none

-- Equality of content, step for step; nothing when a comparison of keys that it asks for has no end.
def decideWithin (h : Heap) (sameKey : Value → Value → Option Bool) (levels : Nat) (a b : Value) :
    Option Bool :=
  match a, b with
  | .list x, .list y =>
    if x == y then some true else match levels with
      | 0 => some false
      | levels + 1 => match h.items? a, h.items? b with
        | some xs, some ys =>
          if xs.size == ys.size then
            allPass (fun pair => decideWithin h sameKey levels pair.1 pair.2) (xs.toList.zip ys.toList)
          else some false
        | _, _ => some false
  | .map x, .map y =>
    if x == y then some true else match levels with
      | 0 => some false
      | levels + 1 =>
        if h.mapCount a == h.mapCount b then
          allPass (h.decideEntry sameKey (decideWithin h sameKey levels) b) (h.mapEntries a)
        else some false
  | _, _ => some (h.equalWithin (fun _ _ => false) levels a b)

def decideNested (h : Heap) : Nat → Value → Value → Option Bool
  | 0, _, _ => none
  | nesting + 1, a, b => h.decideWithin (decideNested h nesting) maxDepth a b

-- Equality of content, if the comparison ends while there is room for those that wait.
def equal? (h : Heap) (a b : Value) : Option Bool :=
  h.decideNested (keyNesting + 1) a b

def sameKey (h : Heap) (a b : Value) : Bool := a == b || h.equal a b

def lookup? (h : Heap) (v key : Value) : Option Value :=
  (h.table? v).bind (h.lookupWith h.equal · key)

def lookup (h : Heap) (v key : Value) : Value := (h.lookup? v key).getD .null

end RegisterMachine.Heap
