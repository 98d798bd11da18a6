import RegisterMachine.Heap.View
import RegisterMachine.Text.Basic

namespace RegisterMachine.Heap

def compareStrings (h : Heap) (a b : Value) : Ordering :=
  match h.text? a, h.text? b with
  | some x, some y => Text.compareBytes x y
  | _, _ => .eq

def less (h : Heap) (a b : Value) : Bool :=
  if a.isNumber && b.isNumber then a.asDouble.less b.asDouble
  else a.isString && b.isString && h.compareStrings a b == .lt

def atMost (h : Heap) (a b : Value) : Bool :=
  if a.isNumber && b.isNumber then a.asDouble.atMost b.asDouble
  else a.isString && b.isString && h.compareStrings a b != .gt

def rank : Value → Nat
  | .null => 0
  | .int _ | .double _ => 1
  | .short _ | .str _ => 2
  | _ => 3

def compareNatural (h : Heap) (a b : Value) : Ordering :=
  match compare (rank a) (rank b) with
  | .eq =>
    if a.isNumber then (a.asDouble.compare? b.asDouble).getD .eq
    else if a.isString then h.compareStrings a b
    else .eq
  | other => other

end RegisterMachine.Heap
