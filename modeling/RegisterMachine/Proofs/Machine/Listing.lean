import RegisterMachine.Proofs.Machine.Operands

namespace RegisterMachine

namespace Opcode

-- The instructions whose immediates the machine takes without a sign.
def signless : List Opcode := [.funcRef,.callFunction,.callNamed]

end Opcode

namespace Word

theorem a_lt (word : Word) : word.a < 0x100 := Nat.mod_lt _ (by decide)

theorem b_lt (word : Word) : word.b < 0x100 := Nat.mod_lt _ (by decide)

theorem c_lt (word : Word) : word.c < 0x100 := Nat.mod_lt _ (by decide)

theorem bc_lt (word : Word) : word.bc < 0x10000 := Nat.mod_lt _ (by decide)

theorem registers_places (word : Word) (op : Opcode) : ∀ r ∈ word.registers op, r = word.a ∨ r = word.b ∨ r = word.c ∨ r = word.c + 1 := by
  intro r member
  cases op with
  | test comparison | branch comparison | skip comparison =>
      simp only [registers,used,Opcode.fields] at member
      generalize comparison.sides = sides at member
      cases sides <;>
        simp [compared,branched,skipped,Opcode.sideFields,Opcode.wideSideFields,Opcode.reg,Opcode.imm] at member <;> omega
  | funcRef | slice =>
      simp [registers] at member
      omega
  | _ =>
      simp [registers,used,Opcode.fields,Opcode.reg,Opcode.imm,Opcode.const] at member <;> omega

theorem registers_lt (word : Word) (op : Opcode) : ∀ r ∈ word.registers op, r < 257 := by
  intro r member
  have a := word.a_lt
  have b := word.b_lt
  have c := word.c_lt
  have place := word.registers_places op r member
  omega

end Word

namespace Instruction

theorem readFields_spelled {word : Word} {op : Opcode} {operands : List Int}
    (named : (Field.spelled ['A','B','C'] op.fields).map word.named? = operands.map some) :
    readFields word 24 op.fields = operands := by
  have read := readFields_named word op
  rw [op.suffixTexts_spelled,named] at read
  exact List.map_injective_iff.mpr (Option.some_injective Int) read

theorem readFields_used {op : Opcode} (word : Word) (plain : op ∉ Opcode.signless) :
    readFields word 24 op.fields = word.used op := by
  apply readFields_spelled
  cases op with
  | funcRef | callFunction | callNamed => exact absurd (by decide) plain
  | test comparison | branch comparison | skip comparison =>
      simp only [Word.used,Opcode.fields]
      cases comparison.sides <;> rfl
  | _ => rfl

theorem readFields_signless {op : Opcode} (word : Word) (signless : op ∈ Opcode.signless) :
    ∃ second, readFields word 24 op.fields = [word.aSigned,second] ∧ (second = word.bcSigned ∨ second = word.bc) := by
  simp only [Opcode.signless,List.mem_cons,List.not_mem_nil,or_false] at signless
  rcases signless with rfl | rfl | rfl
  · exact ⟨_,readFields_spelled rfl,Or.inl rfl⟩
  · exact ⟨_,readFields_spelled rfl,Or.inl rfl⟩
  · exact ⟨_,readFields_spelled rfl,Or.inr rfl⟩

theorem signed_same {half bits : Nat} (small : bits < 2 * half) : signed half bits = bits ↔ 0 ≤ signed half bits := by
  unfold signed
  split <;> omega

theorem operand_shown {op : Opcode} (word : Word) (i : Nat) :
    (readFields word 24 op.fields)[i]? = (word.used op)[i]? ↔
      (op ∈ Opcode.signless → ∀ operand, (readFields word 24 op.fields)[i]? = some operand → 0 ≤ operand) := by
  by_cases signless : op ∈ Opcode.signless
  · obtain ⟨second,read,form⟩ := readFields_signless word signless
    have used : word.used op = [(word.a : Int),(word.bc : Int)] := by
      simp only [Opcode.signless,List.mem_cons,List.not_mem_nil,or_false] at signless
      rcases signless with rfl | rfl | rfl <;> rfl
    have first : word.aSigned = word.a ↔ 0 ≤ word.aSigned := signed_same word.a_lt
    have last : second = word.bc ↔ 0 ≤ second := by
      rcases form with rfl | rfl
      · exact signed_same word.bc_lt
      · simp
    rw [read,used]
    rcases i with _ | _ | i
    · simp [signless,first]
    · simp [signless,last]
    · simp
  · rw [readFields_used word signless]
    exact ⟨fun _ member => absurd member signless,fun _ => rfl⟩

def operandText (field : Field) (operand : Int) : String :=
  match field.role with
  | .register => "r" ++ toString operand
  | .constant => "k" ++ toString operand
  | .immediate => toString operand

def lineOf (label : String) : List String → String
  | [] => label
  | shown => Text.padRight 7 label ++ " " ++ Text.join ", " shown

def line (op : Opcode) (operands : List Int) : String := lineOf op.label (List.zipWith operandText op.fields operands)

theorem format_line {word : Word} {op : Opcode} {operands : List Int} (decoded : decode? word = some (op,operands)) :
    format word = line op operands := by
  unfold format line
  rw [decoded]
  change lineOf op.label ((op.fields.zip operands).map _) = _
  rw [List.zip_eq_zipWith,List.map_zipWith]
  congr 2
  funext field value
  obtain ⟨role,width⟩ := field
  cases role <;> rfl

end Instruction

namespace Machine

variable {m : Machine} {word : Word} {op : Opcode}

-- A word as the machine uses it.
def uses : Reading := fun word => word.opcode?.map fun op => (op,word.used op)

theorem uses_faithful {size : Nat} (known : word.opcode? = some op) (inside : ∀ r ∈ word.registers op, r < size) :
    Faithful uses size word op := ⟨by rw [uses,known,Option.map_some],inside⟩

theorem uses_opcodes (word : Word) : (uses word).map Prod.fst = word.opcode? := by
  simp [uses,Function.comp_def]

theorem decode?_opcodes (word : Word) : (Instruction.decode? word).map Prod.fst = word.opcode? := by
  simp [Instruction.decode?,Function.comp_def]

theorem decode?_faithful (known : word.opcode? = some op) (same : Instruction.readFields word 24 op.fields = word.used op) :
    Faithful Instruction.decode? 257 word op :=
  ⟨by rw [Instruction.decode?,known,Option.map_some,same],word.registers_lt op⟩

theorem decode?_readsBlocks (code : Array Word) : ReadsBlocks Instruction.decode? 257 code where
  opcodes := decode?_opcodes
  block := by
    intro word _ op member known
    refine decode?_faithful known (Instruction.readFields_used word ?_)
    simp only [List.mem_cons,List.not_mem_nil,or_false] at member
    rcases member with rfl | rfl | rfl <;> decide

theorem uses_readsBlocks (code : Array Word) : ReadsBlocks uses 257 code where
  opcodes := uses_opcodes
  block := by
    intro word _ op _ known
    exact uses_faithful known (word.registers_lt op)

-- An operand that a listing shows is the one that the machine uses, unless the machine takes it without a
-- sign and it is shown as a negative number.
theorem listing_executed (next : m.nextWord? = some word) (known : word.opcode? = some op) :
    ∃ operands, Instruction.decode? word = some (op,operands) ∧ Instruction.format word = Instruction.line op operands ∧
      Agrees (stepOn uses 257) step m ∧
      (∀ i : Nat, operands[i]? = (word.used op)[i]? ↔ (op ∈ Opcode.signless → ∀ operand, operands[i]? = some operand → 0 ≤ operand)) ∧
      ((op ∈ Opcode.signless → ∀ operand ∈ operands, 0 ≤ operand) → Agrees (stepOn Instruction.decode? 257) step m) := by
  obtain ⟨f,current,_⟩ := Option.bind_eq_some_iff.mp next
  have decoded : Instruction.decode? word = some (op,Instruction.readFields word 24 op.fields) := by
    rw [Instruction.decode?,known,Option.map_some]
  refine ⟨_,decoded,Instruction.format_line decoded,?_,Instruction.operand_shown word,fun shown => ?_⟩
  · refine stepOn_agrees current (uses_readsBlocks f.code) fun other op' _ known' => ?_
    exact uses_faithful known' (other.registers_lt op')
  · have same : Instruction.readFields word 24 op.fields = word.used op := by
      refine List.ext_getElem? fun i => (Instruction.operand_shown word i).mpr fun signless operand found => ?_
      exact shown signless operand (List.mem_of_getElem? found)
    refine stepOn_agrees current (decode?_readsBlocks f.code) fun other op' next' known' => ?_
    cases Option.some.inj (next.symm.trans next')
    cases Option.some.inj (known.symm.trans known')
    exact decode?_faithful known same

-- A program that jumps back, and one that makes a function reference in a register beyond the 128th.
def looping : Program where
  functions := [{ name := "@main",registers := none,parameters := [],constants := [],code := [.named "JUMP_iABC" [-1]] }]

def distant : Program where
  functions := [
    { name := "@main",registers := some 201,parameters := [],constants := [],code := [.named "FUNCREF_iA_iBC" [200,1],.named "RETURN" []] },
    { name := "inner",registers := none,parameters := [],constants := [],code := [.named "RETURN" []] }]

theorem listing_executed_back :
    ∃ m : Machine, m.Reachable ∧ m.nextWord? = some 0x1bffffff ∧
      Instruction.decode? 0x1bffffff = some (.jump,[-1]) ∧ Instruction.format 0x1bffffff = "JUMP    -1" ∧
      Agrees (stepOn Instruction.decode? 257) step m := by
  have reachable := Reachable.load looping true (.new { stackSlots := 8 })
  generalize whole : Machine.load _ looping true = m at reachable
  have next : m.nextWord? = some 0x1bffffff := by
    rw [← whole]
    decide +kernel
  obtain ⟨operands,decoded,shown,_,_,agrees⟩ := listing_executed next (by decide +kernel : Word.opcode? 0x1bffffff = some .jump)
  have jumps : Instruction.decode? 0x1bffffff = some (.jump,[-1]) := by decide +kernel
  refine ⟨m,reachable,next,jumps,?_,agrees fun signless => absurd signless (by decide)⟩
  cases Option.some.inj (decoded.symm.trans jumps)
  rw [shown]
  decide +kernel

-- The listing names register -56, and the machine puts the reference into register 200.
theorem listing_misread :
    ∃ m : Machine, m.Reachable ∧ m.nextWord? = some 0x07c80001 ∧
      Instruction.decode? 0x07c80001 = some (.funcRef,[-56,1]) ∧ Instruction.format 0x07c80001 = "FUNCREF -56, 1" ∧
      (∃ m' r, step m = .ok .next m' ∧ m'.heap.registerValue 200 = .funcRef r) ∧
      ∃ m', stepOn Instruction.decode? 257 m = .error .outOfRange m' := by
  have reachable := Reachable.load distant true (.new { stackSlots := 204 })
  generalize whole : Machine.load _ distant true = m at reachable
  have facts : m.nextWord? = some 0x07c80001 ∧ storesFunction 200 (step m) = true ∧
      refusesOperand (stepOn Instruction.decode? 257 m) = true := by
    rw [← whole]
    decide +kernel
  obtain ⟨next,stored,refused⟩ := facts
  exact ⟨m,reachable,next,by decide +kernel,by decide +kernel,storesFunction_ok stored,refusesOperand_error refused⟩

end Machine

end RegisterMachine
