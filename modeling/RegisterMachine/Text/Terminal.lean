import RegisterMachine.Text.Basic

namespace RegisterMachine.Text.Terminal

inductive Reading where
  | text
  | escape
  -- After an intermediate character of a short sequence.
  | intermediate
  -- In a control sequence, which any letter ends.
  | sequence
  -- In a command string, which a bell ends.
  | command
  -- At the head of a device string, then in its parameters, then in its intermediates.
  | deviceHead
  | deviceParameters
  | deviceIntermediates
  -- In the body of a string, which a string terminator ends.
  | body
deriving DecidableEq

def isEscape (c : Char) : Bool := c == '\x1b'

def isCancel (c : Char) : Bool := c == '\x18' || c == '\x1a'

def isBlankControl (c : Char) : Bool := c == '\t' || c == '\n' || c == '\x0c' || c == '\r'

def isShown (c : Char) : Bool :=
  isBlankControl c || (0x20 ≤ c.toNat && c != '\x7f')

def between (first last : Nat) (c : Char) : Bool := first ≤ c.toNat && c.toNat ≤ last

-- The terminator is one byte, which may also stand inside a wider character.
def endsBody (c : Char) : Bool := (bytes (String.singleton c)).contains 0x9c

namespace Reading

-- Sequences that show a blank in their middle; the strings hide it.
def showsBlank : Reading → Bool
  | escape | intermediate | sequence => true
  | _ => false

def afterEscape (c : Char) : Reading :=
  if c == '[' then sequence
  else if c == ']' then command
  else if c == 'P' then deviceHead
  else if c == 'X' || c == '^' || c == '_' then body
  else if between 0x20 0x2f c then intermediate
  else if between 0x30 0x7e c then text
  else escape

def inside (reading : Reading) (c : Char) : Reading :=
  match reading with
  | text => text
  | escape => afterEscape c
  | intermediate => if between 0x30 0x7e c then text else intermediate
  | sequence => if between 0x40 0x7e c then text else sequence
  | command => if c == '\x07' then text else command
  | deviceHead =>
    if between 0x20 0x2f c then deviceIntermediates
    else if between 0x30 0x3f c then deviceParameters
    else if between 0x40 0x7e c then body
    else deviceHead
  | deviceParameters =>
    if between 0x20 0x2f c then deviceIntermediates
    else if between 0x3c 0x7e c then body
    else deviceParameters
  | deviceIntermediates => if between 0x30 0x7e c then body else deviceIntermediates
  | body => if endsBody c then text else body

def after (reading : Reading) (c : Char) : Reading :=
  if isEscape c then escape else if isCancel c then text else reading.inside c

end Reading

structure Reader where
  reading : Reading := .text
  suspended : Bool := false
deriving DecidableEq

namespace Reader

def showsText (reader : Reader) : Bool := reader.reading == .text || reader.suspended

def shows (reader : Reader) (c : Char) : Bool :=
  if reader.showsText then isShown c else reader.reading.showsBlank && isBlankControl c

-- The reader after a character. A blank suspends a sequence: what follows is shown up to the next
-- control character, where the sequence goes on, or to a character beyond ASCII, which ends it.
def next (reader : Reader) (c : Char) : Reader :=
  if reader.showsText then
    if !isShown c then
      { reading := if isEscape c then .escape else if isCancel c then .text else reader.reading }
    else if 0x80 ≤ c.toNat then {}
    else reader
  else if reader.shows c then { reader with suspended := true }
  else { reader with reading := reader.reading.after c }

end Reader

def visible (reader : Reader) : List Char → List Char
  | [] => []
  | c :: rest =>
    if reader.shows c then c :: visible (reader.next c) rest else visible (reader.next c) rest

def plain (text : String) : String :=
  String.ofList (visible {} text.toList)

end RegisterMachine.Text.Terminal
