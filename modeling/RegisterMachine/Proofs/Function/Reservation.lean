import RegisterMachine.Function.Assembler
import RegisterMachine.Proofs.Machine.Listing

namespace RegisterMachine

namespace Assembler

-- Functions as a checked assembler builds them, with the positions whose instruction was patched.
inductive Built : Assembler → (Nat → Prop) → Prop where
  | new (name : String) : Built (.new name true) fun _ => False
  | parameter {name default : Value} : Built a patched → a.function.parameters.size < 255 →
      Built (a.parameter name default) patched
  | constant : Built a patched → a.constant v = .ok (i,b) → Built b patched
  | emit : Built a patched → a.emit op operands = .ok (i,b) → Built b patched
  | patch : Built a patched → a.patch position op operands = .ok b →
      Built b fun i => patched i ∨ i = position ∧ i < a.function.code.size
  | reserve : Built a patched → Built (a.reserveRegisters count) patched

-- A patched instruction, the register of a function reference and the end of a slice are not looked after.
def Unreserved (patched : Prop) (word : Word) (op : Opcode) : Prop := patched ∨ op = .funcRef ∨ op = .slice ∧ word.c = 255

structure Reserved (a : Assembler) (patched : Nat → Prop) : Prop where
  checked : a.checked = true
  few : a.function.parameters.size ≤ 255
  parameters : ∀ p < a.function.parameters.size, p + 1 < a.function.registers
  words : ∀ i word op, a.function.code[i]? = some word → word.opcode? = some op → ¬ Unreserved (patched i) word op →
    ∀ r ∈ word.registers op, r < a.function.registers

variable {a b : Assembler} {patched : Nat → Prop} {op : Opcode} {operands : List Int}

structure Grows (f g : Function) : Prop where
  same : g = { f with registers := g.registers }
  more : f.registers ≤ g.registers

theorem Grows.refl (f : Function) : Grows f f := ⟨rfl,Nat.le_refl _⟩

theorem Grows.trans {f g h : Function} (first : Grows f g) (second : Grows g h) : Grows f h where
  same := by rw [second.same,first.same]
  more := Nat.le_trans first.more second.more

theorem reserve_grows (f : Function) (register : Nat) : Grows f (f.reserve register) ∧ register < (f.reserve register).registers := by
  refine ⟨⟨rfl,?_⟩,?_⟩ <;> simp only [Function.reserve] <;> omega

-- One operand reserves its register if it is one.
def reserveNamed (f : Function) (pair : Field × Int) : Function :=
  if pair.1.role = .register then f.reserve (clampRegister pair.2) else f

theorem reserveNamed_grows (f : Function) (pair : Field × Int) :
    Grows f (reserveNamed f pair) ∧ (pair.1.role = .register → clampRegister pair.2 < (reserveNamed f pair).registers) := by
  unfold reserveNamed
  split
  · obtain ⟨grown,inside⟩ := reserve_grows f (clampRegister pair.2)
    exact ⟨grown,fun _ => inside⟩
  · rename_i other
    exact ⟨.refl f,fun register => absurd register other⟩

theorem reserveAll_grows (pairs : List (Field × Int)) (f : Function) :
    Grows f (pairs.foldl reserveNamed f) ∧
      ∀ pair ∈ pairs, pair.1.role = .register → clampRegister pair.2 < (pairs.foldl reserveNamed f).registers := by
  induction pairs generalizing f with
  | nil => exact ⟨.refl f,fun _ member => absurd member List.not_mem_nil⟩
  | cons pair rest ih =>
      obtain ⟨first,here⟩ := reserveNamed_grows f pair
      obtain ⟨later,others⟩ := ih (reserveNamed f pair)
      refine ⟨first.trans later,fun other member register => ?_⟩
      rcases List.mem_cons.mp member with rfl | member
      · exact Nat.lt_of_lt_of_le (here register) later.more
      · exact others other member register

theorem reserveOperands_grows (f : Function) (op : Opcode) (operands : List Int) :
    Grows f (reserveOperands f op operands) ∧
      (∀ pair ∈ op.fields.zip operands, pair.1.role = .register → clampRegister pair.2 < (reserveOperands f op operands).registers) ∧
      (op = .slice → ∀ c, operands[2]? = some c →
        clampRegister (Int.bmod (c + 1) 0x100000000) < (reserveOperands f op operands).registers) := by
  obtain ⟨grown,named⟩ := reserveAll_grows (op.fields.zip operands) f
  have parts : reserveOperands f op operands =
      if op = .slice then (operands[2]?).elim ((op.fields.zip operands).foldl reserveNamed f)
        fun c => ((op.fields.zip operands).foldl reserveNamed f).reserve (clampRegister (Int.bmod (c + 1) 0x100000000))
      else (op.fields.zip operands).foldl reserveNamed f := by
    unfold reserveOperands
    cases operands[2]? <;> rfl
  rw [parts]
  split
  · cases third : operands[2]? with
    | none => exact ⟨grown,named,fun _ c found => absurd found (Option.some_ne_none c).symm⟩
    | some c =>
        obtain ⟨more,last⟩ := reserve_grows ((op.fields.zip operands).foldl reserveNamed f) (clampRegister (Int.bmod (c + 1) 0x100000000))
        refine ⟨grown.trans more,fun pair member register => Nat.lt_of_lt_of_le (named pair member register) more.more,?_⟩
        intro _ c' found
        cases found
        exact last
  · rename_i other
    exact ⟨grown,named,fun slice => absurd slice other⟩

theorem clampRegister_small {operand : Int} (low : 0 ≤ operand) (high : operand ≤ 255) : clampRegister operand = operand.toNat := by
  unfold clampRegister
  omega

end Assembler

theorem Opcode.register_width (op : Opcode) : ∀ field ∈ op.fields, field.role = .register → field.width = 8 :=
  (by decide +kernel : ∀ op ∈ all.toList, ∀ field ∈ op.fields, field.role = .register → field.width = 8) op op.mem_all

namespace Instruction

theorem encoded_used {op : Opcode} {operands : List Int} (fits : Fits op operands) (plain : op ∉ Opcode.signless) :
    (encodeUnchecked op operands).used op = List.zipWith Field.reduced op.fields operands := by
  have decoded := decode?_packed fits
  have known : (encodeUnchecked op operands).opcode? = some op := Word.opcode?_pack op operands
  rw [decode?,known,Option.map_some,Option.some.injEq,Prod.mk.injEq] at decoded
  rw [← readFields_used _ plain]
  exact decoded.2

-- The registers that the operands of a word name.
def named (word : Word) (op : Opcode) : List Nat := ((op.fields.zip (word.used op)).filter (·.1.role = .register)).map (·.2.toNat)

theorem registers_slice (word : Word) : word.registers .slice = named word .slice ++ [word.c + 1] := rfl

theorem registers_named {op : Opcode} (word : Word) (reference : op ≠ .funcRef) (slice : op ≠ .slice) :
    word.registers op = named word op := by
  cases op with
  | funcRef => exact absurd rfl reference
  | slice => exact absurd rfl slice
  | _ => rfl

theorem zip_reduced {fields : List Field} {operands : List Int} {field : Field} {operand : Int} (inRange : List.Forall₂ Field.InRange fields operands)
    (member : (field,operand) ∈ fields.zip (List.zipWith Field.reduced fields operands)) (register : field.role = .register) :
    (field,operand) ∈ fields.zip operands ∧ field.InRange operand := by
  induction inRange with
  | nil => cases member
  | @cons field' operand' rest operands first _ ih =>
      rw [List.zipWith_cons_cons,List.zip_cons_cons,List.mem_cons] at member
      rw [List.zip_cons_cons,List.mem_cons]
      rcases member with same | member
      · obtain ⟨rfl,rfl⟩ := Prod.mk.inj same
        have kept : field.reduced operand' = operand' := by rw [Field.reduced,register]
        rw [kept]
        exact ⟨Or.inl rfl,first⟩
      · exact ⟨Or.inr (ih member).1,(ih member).2⟩

theorem register_small {op : Opcode} {field : Field} {operand : Int} (member : field ∈ op.fields) (register : field.role = .register)
    (fits : field.InRange operand) : 0 ≤ operand ∧ operand ≤ 255 := by
  rw [Field.InRange,register,op.register_width field member register] at fits
  exact fits

theorem encoded_named {op : Opcode} {operands : List Int} (fits : Fits op operands) (plain : op ∉ Opcode.signless) {r : Nat}
    (member : r ∈ named (encodeUnchecked op operands) op) :
    ∃ pair ∈ op.fields.zip operands, pair.1.role = .register ∧ r = Assembler.clampRegister pair.2 := by
  obtain ⟨⟨field,operand⟩,kept,rfl⟩ := List.mem_map.mp member
  obtain ⟨used,register⟩ := List.mem_filter.mp kept
  have register : field.role = .register := of_decide_eq_true register
  rw [encoded_used fits plain] at used
  obtain ⟨given,inRange⟩ := zip_reduced fits used register
  obtain ⟨low,high⟩ := register_small (List.of_mem_zip given).1 register inRange
  exact ⟨_,given,register,(Assembler.clampRegister_small low high).symm⟩

theorem encoded_slice {operands : List Int} (fits : Fits .slice operands) :
    ∃ c : Int, operands[2]? = some c ∧ 0 ≤ c ∧ c ≤ 255 ∧ c = (encodeUnchecked .slice operands).c := by
  have used := encoded_used fits (by decide)
  obtain ⟨a,_,_,fits₁,rfl⟩ := List.forall₂_cons_left_iff.mp fits
  obtain ⟨b,_,_,fits₂,rfl⟩ := List.forall₂_cons_left_iff.mp fits₁
  obtain ⟨c,_,last,fits₃,rfl⟩ := List.forall₂_cons_left_iff.mp fits₂
  cases fits₃
  refine ⟨c,rfl,last.1,last.2,?_⟩
  have third := congrArg (·[2]?) used
  exact (Option.some.inj third).symm

end Instruction

namespace Assembler

variable {a b : Assembler} {patched : Nat → Prop} {op : Opcode} {operands : List Int}

theorem reserveOperands_inside {unpatched : Prop} (f : Function) (fits : Instruction.Fits op operands)
    (apart : ¬ Unreserved unpatched (Instruction.encodeUnchecked op operands) op) :
    ∀ r ∈ (Instruction.encodeUnchecked op operands).registers op, r < (reserveOperands f op operands).registers := by
  intro r member
  obtain ⟨_,reserved,last⟩ := reserveOperands_grows f op operands
  have named (plain : op ∉ Opcode.signless) (member : r ∈ Instruction.named (Instruction.encodeUnchecked op operands) op) :
      r < (reserveOperands f op operands).registers := by
    obtain ⟨pair,given,register,rfl⟩ := Instruction.encoded_named fits plain member
    exact reserved pair given register
  simp only [Unreserved,not_or,not_and] at apart
  by_cases slice : op = .slice
  · subst slice
    obtain ⟨c,given,low,high,same⟩ := Instruction.encoded_slice fits
    rw [Instruction.registers_slice,List.mem_append,List.mem_singleton] at member
    rcases member with member | rfl
    · exact named (by decide) member
    · -- The register after the last operand is one that a word can name.
      have before := apart.2.2 rfl
      have ends : clampRegister (Int.bmod (c + 1) 0x100000000) = (Instruction.encodeUnchecked .slice operands).c + 1 := by
        rw [Int.bmod_eq_of_le (by omega) (by omega),clampRegister_small (by omega) (by omega)]
        omega
      rw [← ends]
      exact last rfl c given
  · rw [Instruction.registers_named _ apart.2.1 slice] at member
    refine named (fun signless => ?_) member
    simp only [Opcode.signless,List.mem_cons,List.not_mem_nil,or_false] at signless
    -- A call of a function or by name has no register field.
    rcases signless with rfl | rfl | rfl
    · exact apart.2.1 rfl
    · cases member
    · cases member

theorem emit_ok {word : Word} (checked : a.checked = true) (encoded : Instruction.encode op operands = .ok word) :
    a.emit op operands = .ok ({ a with function := reserveOperands a.function op operands }.emitWord word) := by
  rw [Assembler.emit,Assembler.word,if_pos checked,encoded]

theorem patch_ok {word : Word} (position : Nat) (checked : a.checked = true) (encoded : Instruction.encode op operands = .ok word) :
    a.patch position op operands = .ok { a with function.code := a.function.code.setIfInBounds position word } := by
  rw [Assembler.patch,Assembler.word,if_pos checked,encoded]

theorem Reserved.grow {g : Function} (held : Reserved a patched) (grows : Grows a.function g) :
    Reserved { a with function := g } patched := by
  rw [grows.same]
  exact {
    checked := held.checked
    few := held.few
    parameters := fun p inside => Nat.lt_of_lt_of_le (held.parameters p inside) grows.more
    words := fun i word op found known apart r member =>
      Nat.lt_of_lt_of_le (held.words i word op found known apart r member) grows.more }

theorem Reserved.word (held : Reserved a patched) {word : Word} :
    a.word op operands = .ok word ↔ Instruction.Fits op operands ∧ word = Instruction.encodeUnchecked op operands := by
  rw [Assembler.word,if_pos held.checked,Instruction.encode_ok_iff]

theorem Reserved.emit {i : Nat} (held : Reserved a patched) (done : a.emit op operands = .ok (i,b)) : Reserved b patched := by
  unfold Assembler.emit at done
  cases encoded : a.word op operands with
  | error e =>
      rw [encoded] at done
      cases done
  | ok word =>
      rw [encoded] at done
      cases done
      obtain ⟨fits,rfl⟩ := held.word.mp encoded
      have grown := held.grow (reserveOperands_grows a.function op operands).1
      refine ⟨grown.checked,grown.few,grown.parameters,fun i word op' found known apart => ?_⟩
      simp only [Array.getElem?_push] at found
      split at found
      · cases found
        cases Option.some.inj (known.symm.trans (Word.opcode?_pack op operands))
        exact reserveOperands_inside a.function fits apart
      · exact grown.words i word op' found known apart

theorem Reserved.patch {position : Nat} (held : Reserved a patched) (done : a.patch position op operands = .ok b) :
    Reserved b fun i => patched i ∨ i = position ∧ i < a.function.code.size := by
  unfold Assembler.patch at done
  cases encoded : a.word op operands with
  | error e =>
      rw [encoded] at done
      cases done
  | ok word =>
      rw [encoded] at done
      cases done
      refine ⟨held.checked,held.few,held.parameters,fun i word' op' found known apart => ?_⟩
      simp only [Array.getElem?_setIfInBounds] at found
      split at found
      · rename_i same
        split at found
        · rename_i inside
          exact absurd (Or.inl (Or.inr ⟨same.symm,same ▸ inside⟩)) apart
        · cases found
      · refine held.words i word' op' found known fun unreserved => apart ?_
        rcases unreserved with before | special
        · exact Or.inl (Or.inl before)
        · exact Or.inr special

theorem Reserved.parameter {name default : Value} (held : Reserved a patched) (few : a.function.parameters.size < 255) :
    Reserved (a.parameter name default) patched := by
  obtain ⟨grows,inside⟩ := reserve_grows a.function (min (a.function.parameters.push { name,default }).size 255)
  have grown := held.grow grows
  have size : (a.function.parameters.push { name,default }).size = a.function.parameters.size + 1 := Array.size_push _
  refine ⟨held.checked,?_,fun p member => ?_,grown.words⟩
  · change (a.function.parameters.push { name,default }).size ≤ 255
    omega
  · change p < (a.function.parameters.push { name,default }).size at member
    have below : p + 1 ≤ min (a.function.parameters.push { name,default }).size 255 := by omega
    exact Nat.lt_of_le_of_lt below inside

theorem Reserved.constant {v : Value} {i : Nat} (held : Reserved a patched) (done : a.constant v = .ok (i,b)) : Reserved b patched := by
  unfold Assembler.constant at done
  split at done
  · cases done
    exact held
  · simp only at done
    split at done
    · cases done
    · cases done
      exact ⟨held.checked,held.few,held.parameters,held.words⟩

-- Each step keeps that what was named is reserved, so it holds of whatever was built.
theorem Built.reserved (built : Built a patched) : Reserved a patched := by
  induction built with
  | new name => exact ⟨rfl,Nat.zero_le _,fun _ member => absurd member (Nat.not_lt_zero _),fun _ _ _ found => by cases found⟩
  | parameter _ few ih => exact ih.parameter few
  | constant _ done ih => exact ih.constant done
  | emit _ done ih => exact ih.emit done
  | patch _ done ih => exact ih.patch done
  | reserve _ ih => exact ih.grow ⟨rfl,Nat.le_max_left _ _⟩

end Assembler

namespace Machine

open Assembler

-- Executing an instruction of a function that was built takes no register outside of its window, if this holds
-- of the instructions that are not looked after.
theorem registers_reserved {m : Machine} {a : Assembler} {patched : Nat → Prop} (built : Built a patched)
    (current : m.functions[m.function]? = some a.function)
    (others : ∀ (i : Nat) word op, a.function.code[i]? = some word → word.opcode? = some op → Unreserved (patched i) word op →
      ∀ r ∈ word.registers op, r < a.function.registers) :
    (∀ (i : Nat) word op, a.function.code[i]? = some word → word.opcode? = some op → ∀ r ∈ word.registers op, r < a.function.registers) ∧
      (∀ p < a.function.parameters.size, p + 1 < a.function.registers) ∧
      Agrees (stepOn uses a.function.registers) step m := by
  have reserved := built.reserved
  have inside (i : Nat) (word : Word) (op : Opcode) (found : a.function.code[i]? = some word) (known : word.opcode? = some op) :
      ∀ r ∈ word.registers op, r < a.function.registers := by
    by_cases apart : Unreserved (patched i) word op
    · exact others i word op found known apart
    · exact reserved.words i word op found known apart
  have blocks : ReadsBlocks uses a.function.registers a.function.code := {
    opcodes := uses_opcodes
    block := by
      intro word member op _ known
      obtain ⟨i,bound,found⟩ := Array.getElem_of_mem member
      exact uses_faithful known (inside i word op (Array.getElem?_eq_some_iff.mpr ⟨bound,found⟩) known) }
  refine ⟨inside,reserved.parameters,stepOn_agrees current blocks fun word op next known => ?_⟩
  rw [nextWord?,current,Option.bind_some] at next
  exact uses_faithful known (inside m.pc word op next known)

-- Instructions that were emitted, in programs that hold nothing else.
def single (mnemonic : String) (operands : List Int) : Program where
  functions := [{ name := "@main",registers := none,parameters := [],constants := [],code := [.named mnemonic operands] }]

theorem built_single {op : Opcode} {operands : List Int} {word : Word} (encoded : Instruction.encode op operands = .ok word) :
    Built ({ (Assembler.new "@main" true) with
      function := reserveOperands (Assembler.new "@main" true).function op operands }.emitWord word).2 fun _ => False :=
  .emit (.new "@main") (emit_ok rfl encoded)

theorem registers_reserved_slice :
    ∃ (m : Machine) (a : Assembler), Built a (fun _ => False) ∧ m.Reachable ∧ m.functions[m.function]? = some a.function ∧
      a.function.registers = 4 ∧ Agrees (stepOn uses 4) step m := by
  have encoded : Instruction.encode .slice [0,1,2] = .ok 0x17000102 := by decide +kernel
  have built := built_single encoded
  generalize whole : Prod.snd _ = a at built
  have reachable := Reachable.load (single "SLICE_rA_rB_rC" [0,1,2]) true (.new { stackSlots := 8 })
  generalize loaded : Machine.load _ _ true = m at reachable
  have current : m.functions[m.function]? = some a.function := by
    rw [← loaded,← whole]
    decide +kernel
  have size : a.function.registers = 4 := by
    rw [← whole]
    decide +kernel
  have code : a.function.code = #[0x17000102] := by
    rw [← whole]
    decide +kernel
  have slice : Word.opcode? 0x17000102 = some .slice := by decide +kernel
  refine ⟨m,a,built,reachable,current,size,size ▸ (registers_reserved built current fun i word op found known unreserved => ?_).2.2⟩
  have same : word = 0x17000102 := by simpa [code] using Array.mem_of_getElem? found
  subst same
  cases Option.some.inj (known.symm.trans slice)
  exact absurd unreserved (by simp [Unreserved,Word.c])

-- The machine puts a function reference into register 5, and no register is reserved; a patch reserves nothing, and
-- neither does the end of a slice beyond register 255.
theorem registers_unreserved :
    (∃ (m : Machine) (a : Assembler), Built a (fun _ => False) ∧ m.Reachable ∧ m.functions[m.function]? = some a.function ∧
      a.function.registers = 0 ∧ (∃ m' r, step m = .ok .next m' ∧ m'.heap.registerValue 5 = .funcRef r) ∧
      ∃ m', stepOn uses 0 m = .error .outOfRange m') ∧
    (∃ (a : Assembler) (patched : Nat → Prop), Built a patched ∧ a.function.registers = 0 ∧
      a.function.code = #[0x0a090807] ∧ Word.registers 0x0a090807 (.binary .add) = [9,8,7]) ∧
    ∃ a : Assembler, Built a (fun _ => False) ∧ a.function.registers = 256 ∧
      a.function.code = #[0x170001ff] ∧ Word.registers 0x170001ff .slice = [0,1,255,256] := by
  refine ⟨?_,?_,?_⟩
  · have built := built_single (by decide +kernel : Instruction.encode .funcRef [5,0] = .ok 0x07050000)
    generalize whole : Prod.snd _ = a at built
    have reachable := Reachable.load (single "FUNCREF_iA_iBC" [5,0]) true (.new { stackSlots := 8 })
    generalize loaded : Machine.load _ _ true = m at reachable
    have facts : m.functions[m.function]? = some a.function ∧ a.function.registers = 0 ∧
        storesFunction 5 (step m) = true ∧ refusesOperand (stepOn uses 0 m) = true := by
      rw [← loaded,← whole]
      decide +kernel
    obtain ⟨current,size,stored,refused⟩ := facts
    exact ⟨m,a,built,reachable,current,size,storesFunction_ok stored,refusesOperand_error refused⟩
  · have built := built_single (by decide +kernel : Instruction.encode .noop [] = .ok 0)
    have encoded : Instruction.encode (.binary .add) [9,8,7] = .ok 0x0a090807 := by decide +kernel
    have patched := built.patch (patch_ok 0 rfl encoded)
    exact ⟨_,_,patched,by decide +kernel,by decide +kernel,by decide +kernel⟩
  · have built := built_single (by decide +kernel : Instruction.encode .slice [0,1,255] = .ok 0x170001ff)
    exact ⟨_,built,by decide +kernel,by decide +kernel,by decide +kernel⟩

end Machine

end RegisterMachine
