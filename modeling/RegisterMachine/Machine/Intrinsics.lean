import RegisterMachine.Heap.Arithmetic
import RegisterMachine.Heap.Freezing
import RegisterMachine.Machine.Types

namespace RegisterMachine

namespace Intrinsic

def all : List Intrinsic :=
  [print, input, val, str, len, remove, freeze, isFrozen, frozenCopy, push, pop, pull, insert,
   indexOf, hasIndex, indexes, values, sort, join, upper, lower, trim, split, replace, slice,
   number, string, list, map, funcRef]

def name : Intrinsic → String
  | print => "print"
  | input => "input"
  | val => "val"
  | str => "str"
  | len => "len"
  | remove => "remove"
  | freeze => "freeze"
  | isFrozen => "isFrozen"
  | frozenCopy => "frozenCopy"
  | push => "push"
  | pop => "pop"
  | pull => "pull"
  | insert => "insert"
  | indexOf => "indexOf"
  | hasIndex => "hasIndex"
  | indexes => "indexes"
  | values => "values"
  | sort => "sort"
  | join => "join"
  | upper => "upper"
  | lower => "lower"
  | trim => "trim"
  | split => "split"
  | replace => "replace"
  | slice => "slice"
  | number => "number"
  | string => "string"
  | list => "list"
  | map => "map"
  | funcRef => "funcRef"

def parameters : Intrinsic → List (String × Value)
  | print => [("s", .shortText "")]
  | input => [("prompt", .shortText "")]
  | val => [("x", .int 0)]
  | str => [("x", .shortText "")]
  | freeze | isFrozen | frozenCopy => [("x", .null)]
  | len | pop | pull | indexes | values | upper | lower | trim => [("self", .null)]
  | remove => [("self", .null), ("k", .null)]
  | push => [("self", .null), ("v", .null)]
  | insert => [("self", .null), ("i", .null), ("v", .null)]
  | indexOf => [("self", .null), ("x", .null)]
  | hasIndex => [("self", .null), ("i", .null)]
  | sort => [("self", .null), ("byKey", .null)]
  | join | split => [("self", .null), ("delim", .shortText " ")]
  | replace => [("self", .null), ("old", .null), ("new", .null)]
  | slice => [("self", .null), ("from", .int 0), ("to", .null)]
  | number | string | list | map | funcRef => []

def methodOf : Intrinsic → List Kind
  | len | remove | indexOf | hasIndex | indexes | values | replace => [.list, .string, .map]
  | push | pop | pull => [.list, .map]
  | insert | slice => [.list, .string]
  | sort | join => [.list]
  | upper | lower | trim | split => [.string]
  | _ => []

end Intrinsic

namespace Heap

def mismatch (expected : String) (found : Value) : Error :=
  .typeMismatch expected found.kindName

def length? (h : Heap) (v : Value) : Option Nat :=
  match v with
  | .list _ => some (h.listCount v)
  | .map _ => some (h.mapCount v)
  | .short _ | .str _ => some (h.stringLength v)
  | _ => none

def removeText (v pattern : Value) : HeapM Value := do
  let h ← get
  match h.stringIndexOf? v pattern 0 with
  | none => pure v
  | some i =>
    let cut := h.stringLength pattern
    inScope do
      let head ← stringSubstring v 0 (Int32.ofNat i)
      modify (·.protect head)
      let tail ← stringSlice v (Int32.ofNat i + Int32.ofNat cut) Int32.maxValue
      modify (·.protect tail)
      stringConcat head tail

def removeFrom (v key : Value) : HeapM Value :=
  match v with
  | .list _ => Value.ofBool <$> listRemove v key.asInt
  | .map _ => Value.ofBool <$> mapRemove v key
  | .short _ | .str _ => removeText v key
  | _ => throw (mismatch "list, map or string" v)

def pushOnto (v item : Value) : HeapM Value :=
  match v with
  | .list _ => do
    listPush v item
    pure v
  | .map _ => do
    mapSet v item (.ofBool true)
    pure v
  | _ => throw (mismatch "list or map" v)

def takeFirstKey (v : Value) : HeapM Value := fun h =>
  match h.nthEntry? v 0 with
  | none => .ok .null h
  | some (key, _) =>
    match mapRemove v key (h.protect key) with
    | .ok _ h => .ok key h.unprotect.2
    | .error e h => .error e h.unprotect.2

def popFrom (v : Value) : HeapM Value :=
  match v with
  | .list _ => listPop v
  | .map _ => takeFirstKey v
  | _ => pure .null

def pullFrom (v : Value) : HeapM Value :=
  match v with
  | .list _ => listPull v
  | .map _ => takeFirstKey v
  | _ => pure .null

def insertText (v index inserted : Value) : HeapM Value := do
  let h ← get
  let length := h.stringLength v
  let i := index.asInt.toInt
  let i := if i < 0 then i + length + 1 else i
  if i < 0 ∨ i > length then throw (.indexOutOfRange index.asInt.toInt length)
  else
    let letters := (h.display v).toList
    newString (String.ofList (letters.take i.toNat) ++ h.display inserted ++
      String.ofList (letters.drop i.toNat))

def insertInto (v index inserted : Value) : HeapM Value :=
  match v with
  | .list _ => do
    listInsert v index.asInt inserted
    pure v
  | .short _ | .str _ => insertText v index inserted
  | _ => throw (mismatch "list or string" v)

def indexIn (h : Heap) (v item : Value) : Except Error Value :=
  match v with
  | .list _ => .ok (((h.listIndexOf? v item 0).map Value.ofNat).getD .null)
  | .short _ | .str _ => .ok (((h.stringIndexOf? v item 0).map Value.ofNat).getD .null)
  | .map _ =>
    .ok ((((h.mapEntries v).find? fun entry => h.equal entry.2 item).map Prod.fst).getD .null)
  | _ => .error (mismatch "list, map or string" v)

def hasIndex (h : Heap) (v index : Value) : Bool :=
  let inside := fun (length : Nat) =>
    let i := index.asInt.toInt
    index.isNumber && decide (-(length : Int) ≤ i) && decide (i < length)
  match v with
  | .list _ => inside (h.listCount v)
  | .short _ | .str _ => inside (h.stringLength v)
  | .map _ => (h.lookup? v index).isSome
  | _ => false

def indexRange (count : Nat) : HeapM Value :=
  listOfItems ((List.range count).map Value.ofNat).toArray

def indexesOf (v : Value) : HeapM Value := do
  match v with
  | .list _ => indexRange ((← get).listCount v)
  | .short _ | .str _ => indexRange ((← get).stringLength v)
  | .map _ => mapKeys v
  | _ => throw (mismatch "list, map or string" v)

def valuesOf (v : Value) : HeapM Value :=
  match v with
  | .map _ => mapValues v
  | .short _ | .str _ => stringSplit v (.short .empty)
  | _ => pure v

def joinItems (v delimiter : Value) : HeapM Value := do
  let h ← get
  match h.items? v with
  | none => throw (mismatch "list" v)
  | some items => newString (Text.join (h.display delimiter) (items.toList.map h.display))

def splitAt (v delimiter : Value) : HeapM Value :=
  if v.isString then do
    let delimiter ← toStringValue delimiter
    fun h => match stringSplit v delimiter (h.protect delimiter) with
      | .ok pieces h => .ok pieces h.unprotect.2
      | .error e h => .error e h.unprotect.2
  else throw (mismatch "string" v)

def replaceItems (v old new : Value) : List (Value × Nat) → HeapM Unit
  | [] => pure ()
  | (item, i) :: rest => do
    if (← get).equal item old then listSet v (Int32.ofNat i) new
    replaceItems v old new rest

def replaceEntries (v old new : Value) : List (Value × Value) → HeapM Unit
  | [] => pure ()
  | (key, value) :: rest => do
    if (← get).equal value old then mapSet v key new
    replaceEntries v old new rest

def replaceIn (v old new : Value) : HeapM Value := do
  match v with
  | .short _ | .str _ =>
    inScope do
      let old ← toStringValue old
      modify (·.protect old)
      let new ← toStringValue new
      modify (·.protect new)
      stringReplace v old new
  | .list _ =>
    replaceItems v old new (((← get).items? v).getD #[]).toList.zipIdx
    pure v
  | .map _ =>
    replaceEntries v old new ((← get).mapEntries v)
    pure v
  | _ => throw (mismatch "list, map or string" v)

-- Part of a list or a string; no end means up to its length. Other values are `refused`.
def sliceOf (v : Value) (start : Int32) (stop : Value) (refused : Heap → Error) : HeapM Value := do
  let h ← get
  match v with
  | .list _ => listSlice v start (if stop.isNull then Int32.ofNat (h.listCount v) else stop.asInt)
  | .short _ | .str _ =>
    stringSlice v start (if stop.isNull then Int32.ofNat (h.stringLength v) else stop.asInt)
  | _ => throw (refused h)

end Heap

namespace Machine

def printText (m : Machine) (text : String) : Machine :=
  { m with console := m.console.push (.printed text) }

def askLine (m : Machine) (prompt : String) : String × Machine :=
  (m.inputs.headD "",
    { m with console := m.console.push (.asked prompt), inputs := m.inputs.tail })

def runIntrinsic (intrinsic : Intrinsic) (arg : Nat → Value) : MachineM Value := do
  let x := arg 0
  match intrinsic with
  | .print =>
    modify fun m => m.printText (m.heap.display x)
    pure .null
  | .input =>
    let m ← get
    let prompt := if x.isNull then "" else m.heap.display x
    let line ← modifyGet (·.askLine prompt)
    onHeap (Heap.newString line)
  | .val => return (← get).heap.toNumber x
  | .str => onHeap (Heap.toStringValue x)
  | .len =>
    let h := (← get).heap
    match h.length? x with
    | some n => pure (.ofNat n)
    | none => throw (.noLength (h.literal x))
  | .remove => onHeap (Heap.removeFrom x (arg 1))
  | .freeze =>
    modifyHeap (·.freeze x)
    pure .null
  | .isFrozen => return .ofBool ((← get).heap.isFrozen x)
  | .frozenCopy => onHeap (Heap.frozenCopy x)
  | .push => onHeap (Heap.pushOnto x (arg 1))
  | .pop => onHeap (Heap.popFrom x)
  | .pull => onHeap (Heap.pullFrom x)
  | .insert => onHeap (Heap.insertInto x (arg 1) (arg 2))
  | .indexOf => readHeap (·.indexIn x (arg 1))
  | .hasIndex => return .ofBool ((← get).heap.hasIndex x (arg 1))
  | .indexes => onHeap (Heap.indexesOf x)
  | .values => onHeap (Heap.valuesOf x)
  | .sort =>
    if x.isList then onHeap (Heap.listSort x (arg 1))
    pure x
  | .join => onHeap (Heap.joinItems x (arg 1))
  | .upper => if x.isString then onHeap (Heap.stringUpper x) else pure x
  | .lower => if x.isString then onHeap (Heap.stringLower x) else pure x
  | .trim => if x.isString then onHeap (Heap.stringTrim x) else pure x
  | .split => onHeap (Heap.splitAt x (arg 1))
  | .replace => onHeap (Heap.replaceIn x (arg 1) (arg 2))
  | .slice =>
    onHeap (Heap.sliceOf x (arg 1).asInt (arg 2) fun _ => Heap.mismatch "list or string" x)
  | .number => return (← get).typeMap .double
  | .string => return (← get).typeMap .string
  | .list => return (← get).typeMap .list
  | .map => return (← get).typeMap .map
  | .funcRef => return (← get).typeMap .funcRef

def runHostFunction (function : HostFunction) (arg : Nat → Value) : MachineM Value := do
  match function with
  | .raise =>
    modify (·.raise (.sequencing "native failed"))
    pure (.int 1)
  | .fail => throw (.native ("native error: " ++ (← get).heap.display (arg 0)))
  | .pair => onHeap (Heap.listOfItems #[arg 0, arg 1])

def runNative (native : Native) (base : Nat) : MachineM Value := do
  let m ← get
  let arg0 := m.heap.registerValue (base + 1)
  let arg1 := m.heap.registerValue (base + 2)
  let arg2 := m.heap.registerValue (base + 3)
  let arg := fun
    | 0 => arg0
    | 1 => arg1
    | _ => arg2
  match native with
  | .intrinsic intrinsic => runIntrinsic intrinsic arg
  | .host function => runHostFunction function arg

end Machine

-- The function table's entry for a native function; the names of its parameters are interned.
def Function.ofNative (name : String) (parameters : List (String × Value)) (native : Native)
    (h : Heap) : Function × Heap :=
  let (built, h) := parameters.foldl
    (fun ((built, h) : Array Parameter × Heap) (name, default) =>
      let (name, h) := h.intern name
      (built.push { name, default }, h))
    (#[], h)
  ({ name, parameters := built, registers := parameters.length + 1, native := some native }, h)

end RegisterMachine
