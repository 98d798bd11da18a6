import RegisterMachine.Proofs.Instruction.Encoding
import RegisterMachine.Proofs.Machine.Access

namespace RegisterMachine

namespace Word

-- The operands of a word that the machine uses, by opcode.
def compared (word : Word) : Sides → List Int
  | .registers => [word.b,word.c]
  | .immediateRight => [word.b,word.cSigned]
  | .immediateLeft => [word.bSigned,word.c]

def branched (word : Word) : Sides → List Int
  | .registers => [word.a,word.b]
  | .immediateRight => [word.a,word.bSigned]
  | .immediateLeft => [word.aSigned,word.b]

def skipped (word : Word) : Sides → List Int
  | .registers => [word.a,word.b]
  | .immediateRight => [word.a,word.bcSigned]
  | .immediateLeft => [word.abSigned,word.c]

def used (word : Word) : Opcode → List Int
  | .noop | .ret => []
  | .loadNull | .locals | .outer | .globals | .argument | .setSelf | .callIfRef => [word.a]
  | .copy | .not | .push | .next | .new => [word.a,word.b]
  | .loadInt | .list | .map | .branchTrue | .branchFalse => [word.a,word.bcSigned]
  | .loadConstant | .name | .funcRef | .callFunction | .callNamed => [word.a,word.bc]
  | .loadVariable | .loadCall | .assign | .binary _ | .index | .setIndex | .slice | .call | .isa | .findMethod | .iterGet =>
    [word.a,word.b,word.c]
  | .jump | .argumentBlock | .argumentInt => [word.abcSigned]
  | .test comparison => word.a :: word.compared comparison.sides
  | .branch comparison => word.branched comparison.sides ++ [word.cSigned]
  | .skip comparison => word.skipped comparison.sides

-- The registers among them. A function reference is put into a register although its field is an
-- immediate, and a slice ends at the register after its last operand.
def registers (word : Word) : Opcode → List Nat
  | .funcRef => [word.a]
  | .slice => [word.a,word.b,word.c,word.c + 1]
  | op => ((op.fields.zip (word.used op)).filter (·.1.role = .register)).map (·.2.toNat)

end Word

namespace Machine

-- How a word is read: its opcode and its operands.
abbrev Reading := Word → Option (Opcode × List Int)

def immediateAt (operands : List Int) (i : Nat) : StrictM Int :=
  match operands[i]? with
  | some operand => pure operand
  | none => throw .outOfRange

-- A constant, a function or an offset.
def indexAt (operands : List Int) (i : Nat) : StrictM Nat := do
  let operand ← immediateAt operands i
  if 0 ≤ operand then pure operand.toNat else throw .outOfRange

-- A register of a window.
def registerAt (size : Nat) (operands : List Int) (i : Nat) : StrictM Nat := do
  let r ← indexAt operands i
  if r < size then pure r else throw .outOfRange

-- A compared value, given as an immediate or in a register.
def sideAt (size : Nat) (operands : List Int) (i : Nat) (immediate : Bool) : StrictM Value := do
  if immediate then pure (intValue (← immediateAt operands i)) else plainly (reg (← registerAt size operands i))

-- The decision of a comparison whose operands start at a position.
def decidesOn (size : Nat) (comparison : Comparison) (operands : List Int) (i : Nat) : StrictM Bool := do
  let left ← sideAt size operands i (comparison.sides = .immediateLeft)
  let right ← sideAt size operands (i + 1) (comparison.sides = .immediateRight)
  return holds (← get).heap comparison.relation left right

def argumentOn (read : Reading) (size : Nat) (word : Word) : StrictM Value := do
  match read word with
  | some (.argument,operands) => plainly (reg (← registerAt size operands 0))
  | some (.argumentInt,operands) => pure (intValue (← immediateAt operands 0))
  | _ => throw (.error (.sequencing "Expected ARG opcode in ARGBLK"))

def argumentsOn (read : Reading) (size : Nat) (code : Array Word) : Nat → Nat → StrictM (List Value)
  | 0, _ => pure []
  | count + 1, pc =>
    match code[pc]? with
    | none => throw (.error (.sequencing "ARGBLK: CALL instruction out of range"))
    | some word => do
      let v ← argumentOn read size word
      let rest ← argumentsOn read size code count (pc + 1)
      pure (v :: rest)

def passOn (read : Reading) (size : Nat) (callee : Function) (count first base : Nat) : StrictM Unit := do
  let m ← get
  let expected := callee.parameters.size - first
  if count > expected then throw (.error (.tooManyArguments count expected))
  let code := match m.functions[m.function]? with
    | some f => f.code
    | none => #[]
  let values ← argumentsOn read size code count m.pc
  plainly (modifyHeap fun h => clearWindow callee base
    (fillDefaults callee (first + count) base (fillParameters callee base first values h)))

def enterOn (read : Reading) (size : Nat) (count : Nat) (request : CallRequest) : StrictM Unit := do
  let m ← get
  match m.functions[request.function]? with
  | none => throw (.error (.invalidFunction request.function))
  | some callee =>
    let binds := m.bindsReceiver callee
    if callee.native.isNone && m.frames.size ≥ m.config.callSlots then throw (.error .callStackOverflow)
    plainly (ensureWindow request.base callee.registers)
    passOn read size callee count (if binds then 1 else 0) request.base
    plainly (greet request callee binds m.pending)

def blockOn (read : Reading) (size : Nat) (count : Int) : StrictM Unit := do
  if count < 0 then throw (.error (.sequencing "ARGBLK: negative argument count"))
  let m ← get
  let callPc := m.pc + count.toNat
  match m.functions[m.function]?.bind (·.code[callPc]?) with
  | none => throw (.error (.sequencing "ARGBLK: CALL instruction out of range"))
  | some word => match read word with
    | some (.call,operands) =>
      let a ← registerAt size operands 0
      let b ← registerAt size operands 1
      let c ← registerAt size operands 2
      let target := m.heap.registerValue (m.base + c)
      match m.heap.funcRef? target with
      | none => throw (.error (.typeMismatch "funcRef" target.kindName))
      | some f =>
        enterOn read size count.toNat
          { function := f.function, outer := f.outer, base := m.base + b
            arguments := some count.toNat, destination := some a, returnPc := callPc + 1 }
    | _ => throw (.error (.sequencing "ARGBLK must be followed by CALL"))

def performOn (read : Reading) (size : Nat) (op : Opcode) (operands : List Int) : StrictM Unit := do
  match op with
  | .noop | .ret => pure ()
  | .copy =>
    let a ← registerAt size operands 0
    let b ← registerAt size operands 1
    plainly (do setReg a (← reg b))
  | .loadInt =>
    let a ← registerAt size operands 0
    let i ← immediateAt operands 1
    plainly (setReg a (intValue i))
  | .loadConstant =>
    let a ← registerAt size operands 0
    let k ← indexAt operands 1
    plainly (do setReg a (← constant k))
  | .loadNull =>
    let a ← registerAt size operands 0
    plainly (setReg a .null)
  | .loadVariable =>
    let a ← registerAt size operands 0
    let b ← registerAt size operands 1
    let k ← indexAt operands 2
    plainly (do setReg a (← namedRegister b k))
  | .loadCall =>
    let a ← registerAt size operands 0
    let b ← registerAt size operands 1
    let k ← indexAt operands 2
    plainly (do
      let v ← namedRegister b k
      match (← get).heap.funcRef? v with
      | some f => callAbove f a
      | none => setReg a v)
  | .funcRef =>
    let a ← registerAt size operands 0
    let f ← indexAt operands 1
    plainly (do
      let locals ← currentLocals
      setReg a (← onHeap (Heap.newFuncRef f locals)))
  | .assign =>
    let a ← registerAt size operands 0
    let b ← registerAt size operands 1
    let k ← indexAt operands 2
    plainly (do
      setReg a (← reg b)
      nameRegister a (← constant k))
  | .name =>
    let a ← registerAt size operands 0
    let k ← indexAt operands 1
    plainly (do nameRegister a (← constant k))
  | .binary operation =>
    let a ← registerAt size operands 0
    let b ← registerAt size operands 1
    let c ← registerAt size operands 2
    plainly (do setReg a (← binary operation (← reg b) (← reg c)))
  | .not =>
    let a ← registerAt size operands 0
    let b ← registerAt size operands 1
    plainly (do
      let v ← reg b
      setReg a ((← get).heap.negate v))
  | .list =>
    let a ← registerAt size operands 0
    let count ← immediateAt operands 1
    plainly (do setReg a (← onHeap (Heap.newList count.toNat)))
  | .map =>
    let a ← registerAt size operands 0
    let count ← immediateAt operands 1
    plainly (do setReg a (← onHeap (Heap.newMap count.toNat)))
  | .push =>
    let a ← registerAt size operands 0
    let b ← registerAt size operands 1
    plainly (do onHeap (Heap.listPush (← reg a) (← reg b)))
  | .index =>
    let a ← registerAt size operands 0
    let b ← registerAt size operands 1
    let c ← registerAt size operands 2
    plainly (do
      let container ← reg b
      let index ← reg c
      setReg a (← readHeap (indexValue · container index)))
  | .setIndex =>
    let a ← registerAt size operands 0
    let b ← registerAt size operands 1
    let c ← registerAt size operands 2
    plainly (do setIndexed (← reg a) (← reg b) (← reg c))
  | .slice =>
    let a ← registerAt size operands 0
    let b ← registerAt size operands 1
    let c ← registerAt size operands 2
    let d ← registerAt size [(c + 1 : Nat)] 0
    plainly (do
      let container ← reg b
      let start ← reg c
      let stop ← reg d
      let part ← onHeap
        (Heap.sliceOf container start.asInt stop fun h => .notSliceable (h.literal container))
      setReg a part)
  | .locals =>
    let a ← registerAt size operands 0
    plainly (do
      setReg a (← currentLocals)
      setRegName a .null)
  | .outer =>
    let a ← registerAt size operands 0
    plainly (do
      setReg a (← outerVariables)
      setRegName a .null)
  | .globals =>
    let a ← registerAt size operands 0
    plainly (do
      setReg a (← frameLocals 0)
      setRegName a .null)
  | .jump =>
    let offset ← immediateAt operands 0
    plainly (jump offset)
  | .test comparison =>
    let a ← registerAt size operands 0
    let decision ← decidesOn size comparison operands 1
    plainly (setReg a (.ofBool decision))
  | .branchTrue =>
    let a ← registerAt size operands 0
    let offset ← immediateAt operands 1
    plainly (do
      let v ← reg a
      if (← get).heap.isTruthy v then jump offset)
  | .branchFalse =>
    let a ← registerAt size operands 0
    let offset ← immediateAt operands 1
    plainly (do
      let v ← reg a
      if !(← get).heap.isTruthy v then jump offset)
  | .branch comparison =>
    let offset ← immediateAt operands 2
    let decision ← decidesOn size comparison operands 0
    plainly (do if decision then jump offset)
  | .skip comparison =>
    let decision ← decidesOn size comparison operands 0
    plainly (do if !decision then skipNext)
  | .next =>
    let a ← registerAt size operands 0
    let b ← registerAt size operands 1
    plainly (do
      let index := nextIndex (← reg a)
      setReg a (.int index)
      let container ← reg b
      let length := ((← get).heap.length? container).getD 0
      if 0 ≤ index.toInt ∧ index.toInt < length then skipNext)
  | .argumentBlock =>
    let count ← immediateAt operands 0
    blockOn read size count
  | .argument | .argumentInt => throw (.error (.sequencing "Internal error: ARG without ARGBLK"))
  | .callFunction =>
    let offset ← indexAt operands 0
    let function ← indexAt operands 1
    plainly (do
      let m ← get
      enter
        { function, outer := .null, base := m.base + offset, arguments := none
          destination := none, returnPc := m.pc })
  | .callNamed =>
    let offset ← indexAt operands 0
    let k ← indexAt operands 1
    plainly (do
      let name ← constant k
      let m ← get
      let name := m.heap.display name
      match m.functionIndex? name with
      | none => throw (.unknownFunction name)
      | some function =>
        enter
          { function, outer := .null, base := m.base + offset, arguments := none
            destination := none, returnPc := m.pc })
  | .call =>
    let a ← registerAt size operands 0
    let b ← registerAt size operands 1
    let c ← registerAt size operands 2
    plainly (do
      let target ← reg c
      let m ← get
      match m.heap.funcRef? target with
      | some f => callRef f (m.base + b) a
      | none =>
        modify (·.setPending none)
        setReg a target)
  | .new =>
    let a ← registerAt size operands 0
    let b ← registerAt size operands 1
    plainly (do
      let parent ← reg b
      setReg a (← onHeap (newChild parent)))
  | .isa =>
    let a ← registerAt size operands 0
    let b ← registerAt size operands 1
    let c ← registerAt size operands 2
    plainly (do
      let v ← reg b
      let target ← reg c
      setReg a (.ofBool ((← get).isa v target)))
  | .findMethod =>
    let a ← registerAt size operands 0
    let b ← registerAt size operands 1
    let c ← registerAt size operands 2
    plainly (do setReg a (← findMethod (← reg b) (← reg c)))
  | .setSelf =>
    let a ← registerAt size operands 0
    plainly (do
      let receiver ← reg a
      modify fun m => m.setPending (some (receiver,(m.pending.map Prod.snd).getD .null)))
  | .callIfRef =>
    let a ← registerAt size operands 0
    plainly (do
      let v ← reg a
      let m ← get
      match m.heap.funcRef? v, m.pending with
      | some f, some _ => callAbove f a
      | _, _ => modify (·.setPending none))
  | .iterGet =>
    let a ← registerAt size operands 0
    let b ← registerAt size operands 1
    let c ← registerAt size operands 2
    plainly (do
      let container ← reg b
      let index ← reg c
      setReg a (← iterated container index.asInt))

def stepOn (read : Reading) (size : Nat) : StrictM Progress := do
  let word ← plainly fetch
  match read word with
  | none => throw (.error (.unknownOpcode word.opcodeByte))
  | some (.ret,_) =>
    match ← plainly leave with
    | some result => pure (.finished result)
    | none => pure .next
  | some (op,operands) =>
    performOn read size op operands
    pure .next

variable {m : Machine} {read : Reading} {size : Nat} {word : Word}

theorem immediateAt_reads {operands : List Int} {i : Nat} {operand : Int} (found : operands[i]? = some operand) :
    immediateAt operands i m = .ok operand m := by
  rw [immediateAt,found]
  rfl

theorem indexAt_reads {operands : List Int} {i n : Nat} (found : operands[i]? = some (n : Int)) :
    indexAt operands i m = .ok n m := by
  rw [indexAt,strict_bind (immediateAt_reads found),if_pos (Int.natCast_nonneg n),Int.toNat_natCast]
  rfl

theorem registerAt_reads {operands : List Int} {i r : Nat} (found : operands[i]? = some (r : Int)) (inside : r < size) :
    registerAt size operands i m = .ok r m := by
  rw [registerAt,strict_bind (indexAt_reads found),if_pos inside]
  rfl

-- An operand stands where a comparison takes it from: as an immediate, or as a register of the window.
def Stands (size : Nat) (operands : List Int) (i : Nat) (immediate : Bool) (register : Nat) (number : Int) : Prop :=
  if immediate then operands[i]? = some number else operands[i]? = some (register : Int) ∧ register < size

theorem Stands.register {operands : List Int} {i register : Nat} {number : Int} (found : operands[i]? = some (register : Int))
    (inside : register < size) : Stands size operands i false register number := by
  rw [Stands,if_neg Bool.false_ne_true]
  exact ⟨found,inside⟩

theorem Stands.immediate {operands : List Int} {i register : Nat} {number : Int} (found : operands[i]? = some number) :
    Stands size operands i true register number := by
  rw [Stands,if_pos rfl]
  exact found

theorem sideAt_reads {operands : List Int} {i register : Nat} {number : Int} (immediate : Bool)
    (stands : Stands size operands i immediate register number) :
    sideAt size operands i immediate m =
      .ok (if immediate then intValue number else m.heap.registerValue (m.base + register)) m := by
  unfold Stands at stands
  cases immediate with
  | true =>
      rw [if_pos rfl] at stands
      exact strict_bind (immediateAt_reads stands)
  | false =>
      rw [if_neg Bool.false_ne_true] at stands
      exact strict_bind (registerAt_reads stands.1 stands.2)

theorem decidesOn_agrees (comparison : Comparison) {operands : List Int} {i leftReg rightReg : Nat} {leftImm rightImm : Int}
    (left : Stands size operands i (comparison.sides = .immediateLeft) leftReg leftImm)
    (right : Stands size operands (i + 1) (comparison.sides = .immediateRight) rightReg rightImm) :
    Agrees (decidesOn size comparison operands i) (decides comparison leftReg rightReg leftImm rightImm) m := by
  refine .read (sideAt_reads _ left) (.read (sideAt_reads _ right) ?_)
  unfold decides
  cases comparison.sides <;> rfl

-- The word is read as the machine uses it, with all its registers in the window.
structure Faithful (read : Reading) (size : Nat) (word : Word) (op : Opcode) : Prop where
  operands : read word = some (op,word.used op)
  inside : ∀ r ∈ word.registers op, r < size

-- A reading that sees the opcodes of words, and the operands of those in an argument block.
structure ReadsBlocks (read : Reading) (size : Nat) (code : Array Word) : Prop where
  opcodes : ∀ word, (read word).map Prod.fst = word.opcode?
  block : ∀ word ∈ code, ∀ op ∈ [Opcode.argument,.argumentInt,.call], word.opcode? = some op → Faithful read size word op

-- What was found without touching the machine.
def settled : Except Error α → StrictM α
  | .ok a => pure a
  | .error e => throw (.error e)

theorem settled_bind {first : StrictM α} {rest : α → StrictM β} {found : Except Error α} {next : α → Except Error β}
    (reads : first m = settled found m) (follows : ∀ a, rest a m = settled (next a) m) :
    (first >>= rest) m = settled (found >>= next) m := by
  cases found with
  | error e =>
      simp only [bind,EStateM.bind,reads]
      rfl
  | ok a =>
      rw [strict_bind reads]
      exact follows a

theorem argumentOn_reads {code : Array Word} (reads : ReadsBlocks read size code) (member : word ∈ code) :
    argumentOn read size word m = settled (argumentValue m word) m := by
  have same := reads.opcodes word
  unfold argumentValue
  cases known : word.opcode? with
  | none =>
      rw [known,Option.map_eq_none_iff] at same
      simp only [argumentOn,same]
      rfl
  | some op =>
      by_cases argument : op = .argument
      · subst argument
        have faithful := reads.block word member .argument (by simp) known
        rw [argumentOn,faithful.operands]
        exact strict_bind (registerAt_reads rfl (faithful.inside word.a (.head _)))
      · by_cases number : op = .argumentInt
        · subst number
          have faithful := reads.block word member .argumentInt (by simp) known
          rw [argumentOn,faithful.operands]
          rfl
        · rw [known,Option.map_eq_some_iff] at same
          obtain ⟨⟨op',operands⟩,seen,rfl⟩ := same
          simp only [argumentOn,seen]
          cases op' with
          | argument => exact absurd rfl argument
          | argumentInt => exact absurd rfl number
          | _ => rfl

theorem argumentsOn_reads {code : Array Word} (reads : ReadsBlocks read size code) (count pc : Nat) :
    argumentsOn read size code count pc m = settled (argumentValues m code count pc) m := by
  induction count generalizing pc with
  | zero => rfl
  | succ count ih =>
      simp only [argumentsOn,argumentValues]
      cases found : code[pc]? with
      | none => rfl
      | some word =>
          refine settled_bind (argumentOn_reads reads (Array.mem_of_getElem? found)) fun v => ?_
          exact settled_bind (ih (pc + 1)) fun rest => rfl

theorem passOn_agrees {f : Function} (current : m.functions[m.function]? = some f) (reads : ReadsBlocks read size f.code)
    (callee : Function) (count first base : Nat) :
    Agrees (passOn read size callee count first base) (passArguments callee count first base) m := by
  refine Agrees.of_get ?_
  simp only [current]
  split
  · rename_i many
    simp only [Agrees,plainly,passArguments,if_pos many]
    rfl
  · rename_i few
    simp only [Agrees,plainly,passArguments,if_neg few,current,bind,EStateM.bind,argumentsOn_reads reads]
    cases argumentValues m f.code count m.pc <;> rfl

theorem enterOn_agrees {f : Function} (current : m.functions[m.function]? = some f) (reads : ReadsBlocks read size f.code)
    {request : CallRequest} {count : Nat} (arguments : request.arguments = some count) :
    Agrees (enterOn read size count request) (enter request) m := by
  rw [enter_parts]
  refine Agrees.get_bind ?_
  cases found : m.functions[request.function]? with
  | none => rfl
  | some callee =>
      simp only [arguments]
      split
      · rfl
      · refine Agrees.plainly_bind fun _ m' checked => ?_
        cases ensureWindow_same checked
        exact (passOn_agrees current reads callee count _ request.base).bind fun _ _ _ => rfl

theorem blockOn_agrees {f : Function} (current : m.functions[m.function]? = some f) (reads : ReadsBlocks read size f.code) (count : Int) :
    Agrees (blockOn read size count) (argumentBlock count) m := by
  unfold blockOn argumentBlock
  simp only
  split
  · rfl
  · refine Agrees.get_bind ?_
    simp only [current,Option.bind_some]
    cases found : f.code[m.pc + count.toNat]? with
    | none => rfl
    | some word =>
        have same := reads.opcodes word
        by_cases call : word.opcode? = some .call
        · have faithful := reads.block word (Array.mem_of_getElem? found) .call (by simp) call
          simp only [faithful.operands,call,ne_eq,not_true,if_false]
          refine .read (registerAt_reads rfl (faithful.inside word.a (.head _))) ?_
          refine .read (registerAt_reads rfl (faithful.inside word.b (.tail _ (.head _)))) ?_
          refine .read (registerAt_reads rfl (faithful.inside word.c (.tail _ (.tail _ (.head _))))) ?_
          cases m.heap.funcRef? (m.heap.registerValue (m.base + word.c)) with
          | none => rfl
          | some ref => exact enterOn_agrees current reads rfl
        · simp only [ne_eq,call,not_false_eq_true,if_true]
          cases seen : read word with
          | none => rfl
          | some entry =>
              obtain ⟨op,operands⟩ := entry
              rw [seen,Option.map_some] at same
              cases op with
              | call => exact absurd same.symm call
              | _ => rfl

theorem test_stands (comparison : Comparison) (inside : ∀ r ∈ word.registers (.test comparison), r < size) :
    Stands size (word.used (.test comparison)) 1 (comparison.sides = .immediateLeft) word.b word.bSigned ∧
      Stands size (word.used (.test comparison)) 2 (comparison.sides = .immediateRight) word.c word.cSigned := by
  simp only [Word.registers,Word.used,Opcode.fields] at inside ⊢
  generalize comparison.sides = sides at inside ⊢
  cases sides with
  | registers => exact ⟨.register rfl (inside word.b (.tail _ (.head _))),.register rfl (inside word.c (.tail _ (.tail _ (.head _))))⟩
  | immediateRight => exact ⟨.register rfl (inside word.b (.tail _ (.head _))),.immediate rfl⟩
  | immediateLeft => exact ⟨.immediate rfl,.register rfl (inside word.c (.tail _ (.head _)))⟩

theorem branch_stands (comparison : Comparison) (inside : ∀ r ∈ word.registers (.branch comparison), r < size) :
    Stands size (word.used (.branch comparison)) 0 (comparison.sides = .immediateLeft) word.a word.aSigned ∧
      Stands size (word.used (.branch comparison)) 1 (comparison.sides = .immediateRight) word.b word.bSigned ∧
      (word.used (.branch comparison))[2]? = some word.cSigned := by
  simp only [Word.registers,Word.used,Opcode.fields] at inside ⊢
  generalize comparison.sides = sides at inside ⊢
  cases sides with
  | registers => exact ⟨.register rfl (inside word.a (.head _)),.register rfl (inside word.b (.tail _ (.head _))),rfl⟩
  | immediateRight => exact ⟨.register rfl (inside word.a (.head _)),.immediate rfl,rfl⟩
  | immediateLeft => exact ⟨.immediate rfl,.register rfl (inside word.b (.head _)),rfl⟩

theorem skip_stands (comparison : Comparison) (inside : ∀ r ∈ word.registers (.skip comparison), r < size) :
    Stands size (word.used (.skip comparison)) 0 (comparison.sides = .immediateLeft) word.a word.abSigned ∧
      Stands size (word.used (.skip comparison)) 1 (comparison.sides = .immediateRight) (skipRightReg comparison word) word.bcSigned := by
  simp only [Word.registers,Word.used,Opcode.fields,skipRightReg] at inside ⊢
  generalize comparison.sides = sides at inside ⊢
  cases sides with
  | registers => exact ⟨.register rfl (inside word.a (.head _)),.register rfl (inside word.b (.tail _ (.head _)))⟩
  | immediateRight => exact ⟨.register rfl (inside word.a (.head _)),.immediate rfl⟩
  | immediateLeft => exact ⟨.immediate rfl,.register rfl (inside word.c (.head _))⟩

theorem performOn_agrees {f : Function} (current : m.functions[m.function]? = some f) (reads : ReadsBlocks read size f.code)
    {op : Opcode} (inside : ∀ r ∈ word.registers op, r < size) :
    Agrees (performOn read size op (word.used op)) (perform op word) m := by
  cases op with
  | noop | ret | jump | argument | argumentInt => rfl
  | loadNull | locals | outer | globals | setSelf | callIfRef | loadInt | list | map | branchTrue | branchFalse =>
      exact .read (registerAt_reads rfl (inside word.a (.head _))) rfl
  | copy | not | push | next | new =>
      refine .read (registerAt_reads rfl (inside word.a (.head _))) ?_
      exact .read (registerAt_reads rfl (inside word.b (.tail _ (.head _)))) rfl
  | loadConstant | name | funcRef =>
      refine .read (registerAt_reads rfl (inside word.a (.head _))) ?_
      exact .read (indexAt_reads (n := word.bc) rfl) rfl
  | loadVariable | loadCall | assign =>
      refine .read (registerAt_reads rfl (inside word.a (.head _))) ?_
      refine .read (registerAt_reads rfl (inside word.b (.tail _ (.head _)))) ?_
      exact .read (indexAt_reads (n := word.c) rfl) rfl
  | binary | index | setIndex | call | isa | findMethod | iterGet =>
      refine .read (registerAt_reads rfl (inside word.a (.head _))) ?_
      refine .read (registerAt_reads rfl (inside word.b (.tail _ (.head _)))) ?_
      exact .read (registerAt_reads rfl (inside word.c (.tail _ (.tail _ (.head _))))) rfl
  | slice =>
      refine .read (registerAt_reads rfl (inside word.a (.head _))) ?_
      refine .read (registerAt_reads rfl (inside word.b (.tail _ (.head _)))) ?_
      refine .read (registerAt_reads rfl (inside word.c (.tail _ (.tail _ (.head _))))) ?_
      exact .read (registerAt_reads rfl (inside (word.c + 1) (.tail _ (.tail _ (.tail _ (.head _)))))) rfl
  | test comparison =>
      obtain ⟨left,right⟩ := test_stands comparison inside
      refine .read (registerAt_reads rfl (inside word.a (.head _))) ?_
      exact (decidesOn_agrees comparison left right).bind fun _ _ _ => rfl
  | branch comparison =>
      obtain ⟨left,right,offset⟩ := branch_stands comparison inside
      refine .read (immediateAt_reads offset) ?_
      exact (decidesOn_agrees comparison left right).bind fun _ _ _ => rfl
  | skip comparison =>
      obtain ⟨left,right⟩ := skip_stands comparison inside
      exact (decidesOn_agrees comparison left right).bind fun _ _ _ => rfl
  | argumentBlock => exact blockOn_agrees current reads _
  | callFunction | callNamed =>
      refine .read (indexAt_reads (n := word.a) rfl) ?_
      exact .read (indexAt_reads (n := word.bc) rfl) rfl

-- The word that the machine executes next.
def nextWord? (m : Machine) : Option Word := m.functions[m.function]?.bind (·.code[m.pc]?)

theorem fetch_next (fetched : fetch m = .ok word m') : m.nextWord? = some word := by
  unfold fetch at fetched
  unfold nextWord?
  split at fetched
  · cases fetched
  · rename_i f found
    rw [found,Option.bind_some]
    split at fetched
    · cases fetched
    · rename_i word' read
      cases fetched
      exact read

theorem stepOn_agrees {f : Function} (current : m.functions[m.function]? = some f) (reads : ReadsBlocks read size f.code)
    (faithful : ∀ word op, m.nextWord? = some word → word.opcode? = some op → Faithful read size word op) :
    Agrees (stepOn read size) step m := by
  refine Agrees.plainly_bind fun word s fetched => ?_
  have works : Works (fun _ => False) fetch m := fetch_works
  rw [Works,fetched] at works
  have still : s.functions[s.function]? = some f := by
    rw [works.functions,works.function]
    exact current
  cases known : word.opcode? with
  | none =>
      have unseen := reads.opcodes word
      rw [known,Option.map_eq_none_iff] at unseen
      simp only [unseen]
      rfl
  | some op =>
      obtain ⟨seen,inside⟩ := faithful word op (fetch_next fetched) known
      simp only [seen]
      cases op with
      | ret =>
          refine Agrees.plainly_bind fun result s' _ => ?_
          cases result <;> rfl
      | _ => exact (performOn_agrees still reads inside).bind fun _ _ _ => rfl

def storesFunction (i : Nat) : EStateM.Result Error Machine Progress → Bool
  | .ok .next m => (m.heap.registerValue i).isFuncRef
  | _ => false

theorem storesFunction_ok {outcome : EStateM.Result Error Machine Progress} (stores : storesFunction i outcome = true) :
    ∃ m r, outcome = .ok .next m ∧ m.heap.registerValue i = .funcRef r := by
  unfold storesFunction at stores
  split at stores
  · rename_i m
    cases held : m.heap.registerValue i with
    | funcRef r => exact ⟨m,r,rfl,held⟩
    | _ =>
        rw [held] at stores
        cases stores
  · cases stores

def refusesOperand : EStateM.Result Failure Machine Progress → Bool
  | .error .outOfRange _ => true
  | _ => false

theorem refusesOperand_error {outcome : EStateM.Result Failure Machine Progress} (refuses : refusesOperand outcome = true) :
    ∃ m, outcome = .error .outOfRange m := by
  unfold refusesOperand at refuses
  split at refuses
  · exact ⟨_,rfl⟩
  · cases refuses

end Machine

end RegisterMachine
