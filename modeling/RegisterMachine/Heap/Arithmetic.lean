import RegisterMachine.Heap.Maps
import RegisterMachine.Heap.Strings

namespace RegisterMachine.Heap

def setAll (out : Value) : List (Value × Value) → HeapM Unit
  | [] => pure ()
  | (key, value) :: rest => do
    mapSet out key value
    setAll out rest

def mapMerge (a b : Value) : HeapM Value := do
  let out ← mapCopy a
  inScope do
    modify (·.protect out)
    setAll out ((← get).mapEntries b)
  pure out

def add (a b : Value) : HeapM Value :=
  match a, b with
  | .int x, .int y => pure (.ofInt (x.toInt + y.toInt))
  | .list _, .list _ => listConcat a b
  | .map _, .map _ => mapMerge a b
  | _, _ =>
    if a.isNumber && b.isNumber then pure (.double (a.asDouble.add b.asDouble))
    else if a.isString && b.isString then stringConcat a b
    else if a.isString && b.isNumber then do
      let right ← newString b.asDouble.display
      stringConcat a right
    else if a.isNumber && b.isString then do
      let left ← newString a.asDouble.display
      stringConcat left b
    else if a.isString && b.isNull then pure a
    else pure .null

def sub (a b : Value) : Value :=
  match a, b with
  | .int x, .int y => .ofInt (x.toInt - y.toInt)
  | _, _ =>
    if a.isNumber && b.isNumber then .double (a.asDouble.sub b.asDouble) else .null

def mult (a b : Value) : HeapM Value :=
  match a, b with
  | .int x, .int y => pure (.ofInt (x.toInt * y.toInt))
  | _, _ =>
    if a.isNumber && b.isNumber then pure (.double (a.asDouble.mul b.asDouble))
    else if a.isString && b.isNumber && b.asDouble.isFinite then stringRepeat a b.asDouble
    else pure .null

-- A quotient is always a double; a string divided is repeated the reciprocal number of times.
def div (a b : Value) : HeapM Value :=
  if a.isNumber && b.isNumber then pure (.double (a.asDouble.div b.asDouble))
  else if a.isString && b.isNumber then mult a (.double (Double.one.div b.asDouble))
  else pure .null

def mod (a b : Value) : Value :=
  if a.isNumber && b.isNumber then
    match a, b with
    | .int x, .int y =>
      if y = 0 then .double (a.asDouble.remainder b.asDouble)
      else .ofInt (Int.tmod x.toInt y.toInt)
    | _, _ => .double (a.asDouble.remainder b.asDouble)
  else .null

def clampDegree (d : Double) : Double :=
  if Double.one.less d.abs then .one else d.abs

-- A degree of truth as a value: plain truth and falsehood are ints.
def ofDegree (d : Double) : Value :=
  if d.isZero then .int 0 else if d.same .one then .int 1 else .double d

def degree (h : Heap) (v : Value) : Double :=
  if v.isNumber then v.asDouble else if h.isTruthy v then .one else .zero

def conjoin (h : Heap) (a b : Value) : Value :=
  ofDegree (clampDegree ((h.degree a).mul (h.degree b)))

def disjoin (h : Heap) (a b : Value) : Value :=
  let x := h.degree a
  let y := h.degree b
  ofDegree (clampDegree ((x.add y).sub (x.mul y)))

def negate (h : Heap) (a : Value) : Value :=
  ofDegree (Double.one.sub (clampDegree (h.degree a)))

end RegisterMachine.Heap
