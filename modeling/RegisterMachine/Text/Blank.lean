namespace RegisterMachine.Text

def isBlank (c : Char) : Bool :=
  let code := c.toNat
  (0x9 ≤ code && code ≤ 0xd) || code == 0x20 || code == 0x85 || code == 0xa0 || code == 0x1680 ||
    (0x2000 ≤ code && code ≤ 0x200a) || code == 0x2028 || code == 0x2029 || code == 0x202f ||
    code == 0x205f || code == 0x3000

def trimStart (text : String) : String :=
  String.ofList (text.toList.dropWhile isBlank)

def trimEnd (text : String) : String :=
  String.ofList (text.toList.reverse.dropWhile isBlank).reverse

def trim (text : String) : String :=
  trimEnd (trimStart text)

def firstWord? (text : String) : Option String :=
  match (text.toList.dropWhile isBlank).takeWhile (fun c => !isBlank c) with
  | [] => none
  | word => some (String.ofList word)

end RegisterMachine.Text
