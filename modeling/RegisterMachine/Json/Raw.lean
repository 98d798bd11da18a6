namespace RegisterMachine.Json

-- A number as written. The exponent is a sign and an absolute value.
structure Literal where
  negative : Bool
  whole : List Nat
  fraction : Option (List Nat)
  exponent : Option (Bool × Nat)
deriving DecidableEq, Repr

inductive Raw where
  | null
  | bool (value : Bool)
  | number (literal : Literal)
  | string (text : Option String)
  | array (items : List Raw)
  | object (members : List (Option String × Raw))

inductive Token where
  | openArray | closeArray | openObject | closeObject | comma | colon
  | scalar (value : Raw)

-- A character of a string, or half of a surrogate pair.
inductive Piece where
  | char (c : Char)
  | half (code : Nat)

def hexDigit? (c : Char) : Option Nat :=
  if c.isDigit then some (c.toNat - '0'.toNat)
  else if 'a' ≤ c ∧ c ≤ 'f' then some (c.toNat - 'a'.toNat + 10)
  else if 'A' ≤ c ∧ c ≤ 'F' then some (c.toNat - 'A'.toNat + 10)
  else none

def hexCode? (digits : List Char) : Option Nat :=
  digits.foldlM (fun code c => (hexDigit? c).map (code * 16 + ·)) 0

def pieceOf (code : Nat) : Piece :=
  if 0xd800 ≤ code ∧ code < 0xe000 then .half code else .char (Char.ofNat code)

def escaped? : Char → Option Char
  | '"' => some '"'
  | '\\' => some '\\'
  | '/' => some '/'
  | 'b' => some '\x08'
  | 'f' => some '\x0c'
  | 'n' => some '\n'
  | 'r' => some '\r'
  | 't' => some '\t'
  | _ => none

-- The pieces up to the closing quote, the last first, and the text after it. Control characters
-- have to be escaped.
def scanString (pieces : List Piece) : List Char → Option (List Piece × List Char)
  | '"' :: rest => some (pieces, rest)
  | '\\' :: 'u' :: c1 :: c2 :: c3 :: c4 :: rest =>
    match hexCode? [c1, c2, c3, c4] with
    | some code => scanString (pieceOf code :: pieces) rest
    | none => none
  | '\\' :: c :: rest =>
    match escaped? c with
    | some c => scanString (.char c :: pieces) rest
    | none => none
  | c :: rest => if c.toNat < 0x20 then none else scanString (.char c :: pieces) rest
  | [] => none

-- Reads the pieces backwards, so that a low half comes before its high half.
def assemble (built : List Char) : List Piece → Option (List Char)
  | [] => some built
  | .char c :: rest => assemble (c :: built) rest
  | .half low :: .half high :: rest =>
    if high < 0xdc00 ∧ 0xdc00 ≤ low then
      assemble (Char.ofNat (0x10000 + (high - 0xd800) * 0x400 + (low - 0xdc00)) :: built) rest
    else none
  | .half _ :: _ => none

def digitsOf (text : List Char) : List Nat :=
  (text.takeWhile Char.isDigit).map fun c => c.toNat - '0'.toNat

def afterDigits (text : List Char) : List Char := text.dropWhile Char.isDigit

def scanWhole? (text : List Char) : Option (List Nat × List Char) :=
  match text with
  | '0' :: rest => some ([0], rest)
  | _ => match digitsOf text with
    | [] => none
    | digits => some (digits, afterDigits text)

def scanFraction? : List Char → Option (Option (List Nat) × List Char)
  | '.' :: rest => match digitsOf rest with
    | [] => none
    | digits => some (some digits, afterDigits rest)
  | rest => some (none, rest)

def scanExponent? : List Char → Option (Option (Bool × Nat) × List Char)
  | c :: rest =>
    if c = 'e' ∨ c = 'E' then
      let (negative, rest) := match rest with
        | '-' :: rest => (true, rest)
        | '+' :: rest => (false, rest)
        | rest => (false, rest)
      match digitsOf rest with
      | [] => none
      | digits => some (some (negative, digits.foldl (· * 10 + ·) 0), afterDigits rest)
    else some (none, c :: rest)
  | [] => some (none, [])

def scanNumber? (text : List Char) : Option (Literal × List Char) := do
  let (negative, rest) := match text with
    | '-' :: rest => (true, rest)
    | rest => (false, rest)
  let (whole, rest) ← scanWhole? rest
  let (fraction, rest) ← scanFraction? rest
  let (exponent, rest) ← scanExponent? rest
  some ({ negative, whole, fraction, exponent }, rest)

def isSpace (c : Char) : Bool := c == ' ' || c == '\t' || c == '\n' || c == '\r'

def scanToken? : List Char → Option (Token × List Char)
  | '[' :: rest => some (.openArray, rest)
  | ']' :: rest => some (.closeArray, rest)
  | '{' :: rest => some (.openObject, rest)
  | '}' :: rest => some (.closeObject, rest)
  | ',' :: rest => some (.comma, rest)
  | ':' :: rest => some (.colon, rest)
  | 'n' :: 'u' :: 'l' :: 'l' :: rest => some (.scalar .null, rest)
  | 't' :: 'r' :: 'u' :: 'e' :: rest => some (.scalar (.bool true), rest)
  | 'f' :: 'a' :: 'l' :: 's' :: 'e' :: rest => some (.scalar (.bool false), rest)
  | '"' :: rest => (scanString [] rest).map fun (pieces, rest) =>
    (.scalar (.string ((assemble [] pieces).map String.ofList)), rest)
  | text => (scanNumber? text).map fun (literal, rest) => (.scalar (.number literal), rest)

-- A token takes a character at least: as many steps as characters are enough.
def tokens? (scanned : List Token) : Nat → List Char → Option (List Token)
  | 0, _ => none
  | steps + 1, text =>
    match text.dropWhile isSpace with
    | [] => some scanned.reverse
    | text => match scanToken? text with
      | some (token, rest) => tokens? (token :: scanned) steps rest
      | none => none

inductive Frame where
  | array (items : List Raw)
  | object (members : List (Option String × Raw))
  | member (key : Option String) (members : List (Option String × Raw))

inductive Expect where
  | value | firstItem | firstKey | key | colon | separator
  | nothing (result : Raw)

structure State where
  frames : List Frame
  expect : Expect

def supply (value : Raw) : List Frame → State
  | [] => ⟨[], .nothing value⟩
  | .array items :: frames => ⟨.array (value :: items) :: frames, .separator⟩
  | .member key members :: frames => ⟨.object ((key, value) :: members) :: frames, .separator⟩
  | .object members :: frames => ⟨.object members :: frames, .separator⟩

def begin? (frames : List Frame) : Token → Option State
  | .scalar value => some (supply value frames)
  | .openArray => some ⟨.array [] :: frames, .firstItem⟩
  | .openObject => some ⟨.object [] :: frames, .firstKey⟩
  | _ => none

def close? : List Frame → Token → Option State
  | .array items :: frames, .closeArray => some (supply (.array items.reverse) frames)
  | .object members :: frames, .closeObject => some (supply (.object members.reverse) frames)
  | _, _ => none

def key? : List Frame → Token → Option State
  | .object members :: frames, .scalar (.string key) => some ⟨.member key members :: frames, .colon⟩
  | _, _ => none

def advance? (state : State) (token : Token) : Option State :=
  match state.expect, token with
  | .value, token => begin? state.frames token
  | .firstItem, .closeArray => close? state.frames token
  | .firstItem, token => begin? state.frames token
  | .firstKey, .closeObject => close? state.frames token
  | .firstKey, token | .key, token => key? state.frames token
  | .colon, .colon => some { state with expect := .value }
  | .separator, .comma => match state.frames with
    | .array _ :: _ => some { state with expect := .value }
    | _ => some { state with expect := .key }
  | .separator, token => close? state.frames token
  | _, _ => none

def Raw.parse? (text : String) : Option Raw := do
  let letters := text.toList
  let tokens ← tokens? [] (letters.length + 1) letters
  match (← tokens.foldlM advance? ⟨[], .value⟩).expect with
  | .nothing result => some result
  | _ => none

mutual

def Raw.depth : Raw → Nat
  | .array items => depthOfItems items + 1
  | .object members => depthOfMembers members + 1
  | _ => 0

def depthOfItems : List Raw → Nat
  | [] => 0
  | item :: rest => max item.depth (depthOfItems rest)

def depthOfMembers : List (Option String × Raw) → Nat
  | [] => 0
  | (_, value) :: rest => max value.depth (depthOfMembers rest)

end

end RegisterMachine.Json
