import RegisterMachine.Text.CaseTable

namespace RegisterMachine.Text

def expand (expansions : List (Nat × List Nat)) (runs : List CaseRun) (c : Char) : List Char :=
  match expansions.lookup c.toNat with
  | some codes => codes.map Char.ofNat
  | none =>
    match runs.findSome? (·.partner? c.toNat) with
    | some code => [Char.ofNat code]
    | none => [c]

def upperChar (c : Char) : List Char :=
  if c.toNat < 128 then [c.toUpper] else expand upperExpansions upperRuns c

def lowerChar (c : Char) : List Char :=
  if c.toNat < 128 then [c.toLower] else expand lowerExpansions lowerRuns c

def within (spans : List (Nat × Nat)) (c : Char) : Bool :=
  spans.any fun (first, last) => first ≤ c.toNat && c.toNat ≤ last

def meetsCased (letters : List Char) : Bool :=
  match letters.dropWhile (within ignorableSpans) with
  | [] => false
  | c :: _ => within casedSpans c

-- `before` holds the letters already passed, the nearest first.
def lowerAfter (before : List Char) : List Char → List Char
  | [] => []
  | c :: rest =>
    let letters :=
      if c = 'Σ' then [if meetsCased before && !meetsCased rest then 'ς' else 'σ'] else lowerChar c
    letters ++ lowerAfter (c :: before) rest

def upper (text : String) : String :=
  String.ofList (text.toList.flatMap upperChar)

def lower (text : String) : String :=
  String.ofList (lowerAfter [] text.toList)

def equalIgnoringCase (left right : String) : Bool :=
  left.toList.map Char.toLower == right.toList.map Char.toLower

end RegisterMachine.Text
