import RegisterMachine.Heap.View
import RegisterMachine.Number.Decimal

namespace RegisterMachine.Heap

def doubleQuotes : List Char → List Char
  | [] => []
  | c :: rest => if c = '"' then '"' :: '"' :: doubleQuotes rest else c :: doubleQuotes rest

def quoted (text : String) : String :=
  String.ofList ('"' :: doubleQuotes text.toList ++ ['"'])

def renderFuncRef (h : Heap) (v : Value) : String :=
  match h.funcRef? v with
  | some f =>
    "FuncRef(" ++ toString f.function ++ (if f.outer.isNull then ")" else ", closure)")
  | none => "FuncRef(?)"

def render (h : Heap) (levels : Nat) (literal : Bool) (v : Value) : String :=
  match v with
  | .null => "null"
  | .int i => toString i.toInt
  | .double d => d.display
  | .short _ | .str _ =>
    let text := (h.text? v).getD ""
    if literal then quoted text else text
  | .list _ => match levels with
    | 0 => "[…]"
    | levels + 1 =>
      "[" ++ Text.join ", " (((h.items? v).getD #[]).toList.map (render h levels true)) ++ "]"
  | .map _ => match levels with
    | 0 => "\x7b…\x7d"
    | levels + 1 =>
      let entry := fun (key, value) => render h levels true key ++ ": " ++ render h levels true value
      "\x7b" ++ Text.join ", " ((h.mapEntries v).map entry) ++ "\x7d"
  | .funcRef _ => h.renderFuncRef v

def display (h : Heap) (v : Value) : String := h.render maxDepth false v

def literal (h : Heap) (v : Value) : String := h.render maxDepth true v

end RegisterMachine.Heap
