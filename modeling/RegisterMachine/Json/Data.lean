import RegisterMachine.Json.Number
import RegisterMachine.Text.Basic

namespace RegisterMachine.Json

inductive Data where
  | null
  | bool (value : Bool)
  | number (value : Number)
  | string (text : String)
  | array (items : List Data)
  | object (members : List (String × Data))

namespace Data

def int (value : Int) : Data := .number (.integer value)

def nat (value : Nat) : Data := .number (.integer value)

def sortMembers (members : List (String × Data)) : List (String × Data) :=
  let last := members.foldr
    (fun member kept => if kept.any (·.1 == member.1) then kept else member :: kept) []
  last.mergeSort fun left right => Text.compareBytes left.1 right.1 != .gt

mutual

def ofRaw? : Raw → Option Data
  | .null => some .null
  | .bool value => some (.bool value)
  | .number literal => literal.value?.map .number
  | .string text => text.map .string
  | .array items => (itemsOfRaw? items).map .array
  | .object members => (membersOfRaw? members).map fun members => .object (sortMembers members)

def itemsOfRaw? : List Raw → Option (List Data)
  | [] => some []
  | item :: rest => do
    let item ← ofRaw? item
    let rest ← itemsOfRaw? rest
    some (item :: rest)

def membersOfRaw? : List (Option String × Raw) → Option (List (String × Data))
  | [] => some []
  | (key, value) :: rest => do
    let key ← key
    let value ← ofRaw? value
    let rest ← membersOfRaw? rest
    some ((key, value) :: rest)

end

def escapeChar (c : Char) : List Char :=
  if c = '"' then ['\\', '"']
  else if c = '\\' then ['\\', '\\']
  else if c = '\x08' then ['\\', 'b']
  else if c = '\x0c' then ['\\', 'f']
  else if c = '\n' then ['\\', 'n']
  else if c = '\r' then ['\\', 'r']
  else if c = '\t' then ['\\', 't']
  else if c.toNat < 0x20 then "\\u".toList ++ (Text.hexadecimal 4 c.toNat).toList
  else [c]

def quote (text : String) : String :=
  String.ofList ('"' :: text.toList.flatMap escapeChar ++ ['"'])

mutual

def compact : Data → String
  | .null => "null"
  | .bool value => if value then "true" else "false"
  | .number value => value.text
  | .string text => quote text
  | .array items => "[" ++ Text.join "," (compactItems items) ++ "]"
  | .object members => "\x7b" ++ Text.join "," (compactMembers members) ++ "\x7d"

def compactItems : List Data → List String
  | [] => []
  | item :: rest => compact item :: compactItems rest

def compactMembers : List (String × Data) → List String
  | [] => []
  | (key, value) :: rest => (quote key ++ ":" ++ compact value) :: compactMembers rest

end

end Data

end RegisterMachine.Json
