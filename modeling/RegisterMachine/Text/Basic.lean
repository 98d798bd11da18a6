namespace RegisterMachine.Text

def bytes (text : String) : List UInt8 :=
  text.toUTF8.data.toList

-- Order of texts by their bytes, a beginning of a text before the text itself.
def compareBytes (left right : String) : Ordering :=
  List.compareLex compare (bytes left) (bytes right)

-- Padding keeps what is already wide enough.
def padRight (width : Nat) (text : String) : String :=
  text ++ String.ofList (List.replicate (width - text.length) ' ')

def padLeft (width : Nat) (fill : Char) (text : String) : String :=
  String.ofList (List.replicate (width - text.length) fill) ++ text

def join (separator : String) (pieces : List String) : String :=
  separator.intercalate pieces

def replicate (count : Nat) (text : String) : String :=
  count.fold (fun _ _ built => built ++ text) ""

def hexadecimal (width : Nat) (n : Nat) : String :=
  padLeft width '0' (String.ofList (Nat.toDigits 16 n))

end RegisterMachine.Text
