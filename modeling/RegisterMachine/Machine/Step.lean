import RegisterMachine.Machine.Calls

namespace RegisterMachine.Machine

inductive Progress where
  | next
  | finished (result : Value)

def jump (offset : Int) : MachineM Unit := do
  let m ← get
  let target := (m.pc : Int) + offset
  if target < 0 then throw (.pcOutOfBounds (m.functionName m.function))
  else set { m with pc := target.toNat }

def skipNext : MachineM Unit := modify fun m => { m with pc := m.pc + 1 }

def intValue (i : Int) : Value := .int (Int32.ofInt i)

def holds (h : Heap) (relation : Relation) (left right : Value) : Bool :=
  match relation with
  | .lt => h.less left right
  | .le => h.atMost left right
  | .eq => h.equal left right
  | .ne => !h.equal left right

def decides (comparison : Comparison) (leftReg rightReg : Nat) (leftImm rightImm : Int) :
    MachineM Bool := do
  let left ← match comparison.sides with
    | .immediateLeft => pure (intValue leftImm)
    | _ => reg leftReg
  let right ← match comparison.sides with
    | .immediateRight => pure (intValue rightImm)
    | _ => reg rightReg
  return holds (← get).heap comparison.relation left right

-- The right register of a skip stands in the field C when an immediate fills A and B.
def skipRightReg (comparison : Comparison) (word : Word) : Nat :=
  match comparison.sides with
  | .immediateLeft => word.c
  | _ => word.b

def binary (operation : BinaryOperation) (x y : Value) : MachineM Value := do
  match operation with
  | .add => onHeap (Heap.add x y)
  | .sub => pure (Heap.sub x y)
  | .mult => onHeap (Heap.mult x y)
  | .div => onHeap (Heap.div x y)
  | .mod => pure (Heap.mod x y)
  | .and => return (← get).heap.conjoin x y
  | .or => return (← get).heap.disjoin x y

def indexValue (h : Heap) (container index : Value) : Except Error Value :=
  match container with
  | .list _ => h.listGet container index.asInt
  | .map _ => match h.lookupInherited? container index with
    | some v => .ok v
    | none => .error (.keyNotFound (h.display index))
  | .short _ | .str _ => h.stringCharAt container index.asInt
  | _ => .error (.notIndexable (h.literal container))

def setIndexed (container index v : Value) : MachineM Unit := do
  match container with
  | .list _ => onHeap (Heap.listSet container index.asInt v)
  | .map _ => onHeap (Heap.mapSet container index v)
  | _ => throw (.notIndexAssignable ((← get).heap.literal container))

-- An entry of a map as a map of its key and its value; null when there is none.
def entryPair (container : Value) (index : Int32) : HeapM Value := do
  let h ← get
  match if index.toInt < 0 then none else h.nthEntry? container index.toInt.toNat with
  | none => pure .null
  | some (key, value) =>
    Heap.inScope do
      let pair ← Heap.newMap 2
      modify (·.protect pair)
      Heap.mapSet pair (.shortText "key") key
      Heap.mapSet pair (.shortText "value") value
      pure pair

def iterated (container : Value) (index : Int32) : MachineM Value :=
  match container with
  | .list _ => readHeap (·.listGet container index)
  | .short _ | .str _ => readHeap (·.stringCharAt container index)
  | .map _ => onHeap (entryPair container index)
  | _ => pure .null

def newChild (parent : Value) : HeapM Value := Heap.inScope do
  let child ← Heap.newMap 2
  modify (·.protect child)
  Heap.mapSet child Heap.isaKey parent
  pure child

def nextIndex (v : Value) : Int32 :=
  if v.asInt = Int32.maxValue then Int32.maxValue else v.asInt + 1

-- Calls a function reference in a window just above the current one.
def callAbove (f : FuncRef) (destination : Nat) : MachineM Unit := do
  let m ← get
  callRef f (m.base + m.windowSize m.function) destination

def perform (op : Opcode) (word : Word) : MachineM Unit := do
  match op with
  | .noop | .ret => pure ()
  | .copy => setReg word.a (← reg word.b)
  | .loadInt => setReg word.a (intValue word.bcSigned)
  | .loadConstant => setReg word.a (← constant word.bc)
  | .loadNull => setReg word.a .null
  | .loadVariable => setReg word.a (← namedRegister word.b word.c)
  | .loadCall =>
    let v ← namedRegister word.b word.c
    match (← get).heap.funcRef? v with
    | some f => callAbove f word.a
    | none => setReg word.a v
  | .funcRef =>
    let locals ← currentLocals
    setReg word.a (← onHeap (Heap.newFuncRef word.bc locals))
  | .assign =>
    setReg word.a (← reg word.b)
    nameRegister word.a (← constant word.c)
  | .name => nameRegister word.a (← constant word.bc)
  | .binary operation => setReg word.a (← binary operation (← reg word.b) (← reg word.c))
  | .not =>
    let v ← reg word.b
    setReg word.a ((← get).heap.negate v)
  | .list => setReg word.a (← onHeap (Heap.newList word.bcSigned.toNat))
  | .map => setReg word.a (← onHeap (Heap.newMap word.bcSigned.toNat))
  | .push => onHeap (Heap.listPush (← reg word.a) (← reg word.b))
  | .index =>
    let container ← reg word.b
    let index ← reg word.c
    setReg word.a (← readHeap (indexValue · container index))
  | .setIndex => setIndexed (← reg word.a) (← reg word.b) (← reg word.c)
  | .slice =>
    let container ← reg word.b
    let start ← reg word.c
    let stop ← reg (word.c + 1)
    let part ← onHeap
      (Heap.sliceOf container start.asInt stop fun h => .notSliceable (h.literal container))
    setReg word.a part
  | .locals =>
    setReg word.a (← currentLocals)
    setRegName word.a .null
  | .outer =>
    setReg word.a (← outerVariables)
    setRegName word.a .null
  | .globals =>
    setReg word.a (← frameLocals 0)
    setRegName word.a .null
  | .jump => jump word.abcSigned
  | .test comparison =>
    let decision ← decides comparison word.b word.c word.bSigned word.cSigned
    setReg word.a (.ofBool decision)
  | .branchTrue =>
    let v ← reg word.a
    if (← get).heap.isTruthy v then jump word.bcSigned
  | .branchFalse =>
    let v ← reg word.a
    if !(← get).heap.isTruthy v then jump word.bcSigned
  | .branch comparison =>
    if ← decides comparison word.a word.b word.aSigned word.bSigned then jump word.cSigned
  | .skip comparison =>
    let decision ←
      decides comparison word.a (skipRightReg comparison word) word.abSigned word.bcSigned
    if !decision then skipNext
  | .next =>
    let index := nextIndex (← reg word.a)
    setReg word.a (.int index)
    let container ← reg word.b
    let length := ((← get).heap.length? container).getD 0
    if 0 ≤ index.toInt ∧ index.toInt < length then skipNext
  | .argumentBlock => argumentBlock word.abcSigned
  | .argument | .argumentInt => throw (.sequencing "Internal error: ARG without ARGBLK")
  | .callFunction =>
    let m ← get
    enter
      { function := word.bc, outer := .null, base := m.base + word.a, arguments := none
        destination := none, returnPc := m.pc }
  | .callNamed =>
    let name ← constant word.bc
    let m ← get
    let name := m.heap.display name
    match m.functionIndex? name with
    | none => throw (.unknownFunction name)
    | some function =>
      enter
        { function, outer := .null, base := m.base + word.a, arguments := none
          destination := none, returnPc := m.pc }
  | .call =>
    let target ← reg word.c
    let m ← get
    match m.heap.funcRef? target with
    | some f => callRef f (m.base + word.b) word.a
    | none =>
      modify (·.setPending none)
      setReg word.a target
  | .new =>
    let parent ← reg word.b
    setReg word.a (← onHeap (newChild parent))
  | .isa =>
    let v ← reg word.b
    let target ← reg word.c
    setReg word.a (.ofBool ((← get).isa v target))
  | .findMethod => setReg word.a (← findMethod (← reg word.b) (← reg word.c))
  | .setSelf =>
    let receiver ← reg word.a
    modify fun m => m.setPending (some (receiver, (m.pending.map Prod.snd).getD .null))
  | .callIfRef =>
    let v ← reg word.a
    let m ← get
    match m.heap.funcRef? v, m.pending with
    | some f, some _ => callAbove f word.a
    | _, _ => modify (·.setPending none)
  | .iterGet =>
    let container ← reg word.b
    let index ← reg word.c
    setReg word.a (← iterated container index.asInt)

-- A line of the trace: the instruction and the first three registers before it.
def traceLine (m : Machine) (function : String) (pc : Nat) (word : Word) : String :=
  let shown := fun r => m.heap.literal (m.heap.registerValue (m.base + r))
  function ++ " " ++ Text.padLeft 4 '0' (toString pc) ++ ": " ++ Instruction.format word ++
    "     r0:" ++ shown 0 ++ ", r1:" ++ shown 1 ++ ", r2:" ++ shown 2

def fetch : MachineM Word := fun m =>
  match m.functions[m.function]? with
  | none => .error (.invalidFunction m.function) m
  | some f => match f.code[m.pc]? with
    | none => .error (.pcOutOfBounds f.name) m
    | some word =>
      let pc := m.pc
      let m := if m.config.trace then m.addLog .trace (m.traceLine f.name pc word) else m
      .ok word { m with pc := pc + 1 }

def step : MachineM Progress := do
  let word ← fetch
  match word.opcode? with
  | none => throw (.unknownOpcode word.opcodeByte)
  | some .ret =>
    match ← leave with
    | some result => pure (.finished result)
    | none => pure .next
  | some op =>
    perform op word
    pure .next

end RegisterMachine.Machine
