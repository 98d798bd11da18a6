import RegisterMachine.Heap.Lists
import RegisterMachine.Heap.Rendering
import RegisterMachine.Number.Reading
import RegisterMachine.Text.Blank
import RegisterMachine.Text.Case
import RegisterMachine.Text.Search

namespace RegisterMachine.Heap

def expectText (h : Heap) (v : Value) : Except Error String :=
  match h.text? v with
  | some text => .ok text
  | none => .error (.typeMismatch "string" v.kindName)

def reading (read : Heap → Except Error α) : HeapM α := fun h =>
  match read h with
  | .ok result => .ok result h
  | .error e => .error e h

def textOf (v : Value) : HeapM String := reading (·.expectText v)

def stringConcat (a b : Value) : HeapM Value := do
  let left ← textOf a
  let right ← textOf b
  if right.isEmpty then pure a
  else if left.isEmpty then pure b
  else newString (left ++ right)

def stringSubstring (v : Value) (start count : Int32) : HeapM Value := do
  let text ← textOf v
  let length := text.length
  let first := clampIndex start length
  let stop := min (first + count.toInt.toNat) length
  if first = 0 ∧ stop = length then pure v
  else newString (String.ofList ((text.toList.drop first).take (stop - first)))

def stringSlice (v : Value) (start stop : Int32) : HeapM Value := do
  let length := (← get).stringLength v
  let first := clampIndex start length
  let last := clampIndex stop length
  if last ≤ first then newString ""
  else stringSubstring v (Int32.ofNat first) (Int32.ofNat (last - first))

def stringCharAt (h : Heap) (v : Value) (index : Int32) : Except Error Value :=
  let length := h.stringLength v
  match resolve? index length with
  | none => .error (.indexOutOfRange index.toInt length)
  | some i => do
    let text ← h.expectText v
    match text.toList[i]? with
    | some c => .ok (.shortText (String.singleton c))
    | none => .error (.indexOutOfRange index.toInt length)

def stringIndexOf? (h : Heap) (v pattern : Value) (start : Nat) : Option Nat := do
  let text ← h.text? v
  let pattern ← h.text? pattern
  Text.indexOf? text pattern start

def stringReplace (v old new : Value) : HeapM Value := do
  let text ← textOf v
  let pattern ← textOf old
  let replacement ← textOf new
  if pattern.isEmpty || (Text.indexOf? text pattern 0).isNone then pure v
  else newString (Text.replace text pattern replacement)

-- Each piece becomes a string just before it joins the list.
def pushStrings (out : Value) : List String → HeapM Unit
  | [] => pure ()
  | piece :: rest => do
    let item ← newString piece
    listPush out item
    pushStrings out rest

def stringSplit (v delimiter : Value) : HeapM Value := do
  let text ← textOf v
  let pattern ← textOf delimiter
  let pieces := Text.split text pattern
  let out ← newList pieces.length
  inScope do
    modify (·.protect out)
    pushStrings out pieces
  pure out

def mapText (change : String → String) (v : Value) : HeapM Value := do
  let text ← textOf v
  let changed := change text
  if changed = text then pure v else newString changed

def stringUpper (v : Value) : HeapM Value := mapText Text.upper v
def stringLower (v : Value) : HeapM Value := mapText Text.lower v
def stringTrim (v : Value) : HeapM Value := mapText Text.trim v
def stringTrimStart (v : Value) : HeapM Value := mapText Text.trimStart v
def stringTrimEnd (v : Value) : HeapM Value := mapText Text.trimEnd v

def maxStringBytes : Nat := 0x7fffffff

-- A string repeated: whole copies, and for the fraction a beginning of one more.
def stringRepeat (v : Value) (times : Double) : HeapM Value := do
  let text ← textOf v
  if !Double.zero.less times || text.isEmpty then newString ""
  else if times.same .one then pure v
  else
    let limit := min ((← get).config.maxBytes.getD maxStringBytes) maxStringBytes
    let size := text.utf8ByteSize
    let whole := times.toSize
    if whole < limit ∧ size * (whole + 1) ≤ limit then
      let extra := (times.fraction.mul (.ofNat text.length)).toSize
      newString (Text.replicate whole text ++ String.ofList (text.toList.take extra))
    else throw (.outOfMemory ((Double.ofNat size).mul times).toSize)

def toStringValue (v : Value) : HeapM Value := do
  if v.isString then pure v else newString ((← get).display v)

def toNumber (h : Heap) (v : Value) : Value :=
  match v with
  | .int _ | .double _ => v
  | .short _ | .str _ =>
    match (h.text? v).bind fun text => Double.ofText? (Text.trim text) with
    | some d => .number d
    | none => .int 0
  | _ => .int 0

end RegisterMachine.Heap
