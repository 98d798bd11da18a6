import RegisterMachine.Proofs.Heap.Endings
import RegisterMachine.Proofs.Machine.Listing
import RegisterMachine.Proofs.Machine.Places

namespace RegisterMachine.Machine

variable {m : Machine} {word : Word} {op : Opcode}

-- What an operand stands for: in a field of an immediate for its number, in a field of a register for the value in it.
def operandValue? (m : Machine) (op : Opcode) (operands : List Int) (i : Nat) : Option Value :=
  ((op.fields.zip operands)[i]?).map fun (field,operand) =>
    if field.role = .immediate then .int (Int32.ofInt operand) else m.heap.registerValue (m.base + operand.toNat)

def flagged (destination : Int) (decision : Bool) (m : Machine) : EStateM.Result Error Machine Progress :=
  .ok .next { m with
    pc := m.pc + 1
    heap := m.heap.setRegisterValue (m.base + destination.toNat) (.int (if decision then 1 else 0)) }

def branched (offset : Int) (decision : Bool) (m : Machine) : EStateM.Result Error Machine Progress :=
  if decision then
    if (m.pc : Int) + 1 + offset < 0 then .error (.pcOutOfBounds (m.functionName m.function)) { m with pc := m.pc + 1 }
    else .ok .next { m with pc := ((m.pc : Int) + 1 + offset).toNat }
  else .ok .next { m with pc := m.pc + 1 }

def skipped (decision : Bool) (m : Machine) : EStateM.Result Error Machine Progress :=
  .ok .next { m with pc := if decision then m.pc + 1 else m.pc + 2 }

-- The two sides of a comparison, from where each of them may stand.
def leftSide (s : Machine) (comparison : Comparison) (register : Nat) (number : Int) : Value :=
  if comparison.sides = .immediateLeft then intValue number else s.heap.registerValue (s.base + register)

def rightSide (s : Machine) (comparison : Comparison) (register : Nat) (number : Int) : Value :=
  if comparison.sides = .immediateRight then intValue number else s.heap.registerValue (s.base + register)

theorem decides_sides (comparison : Comparison) (leftReg rightReg : Nat) (leftImm rightImm : Int) (s : Machine) (pc : Nat) :
    decides comparison leftReg rightReg leftImm rightImm { s with pc } =
      .ok (holds s.heap comparison.relation (s.leftSide comparison leftReg leftImm) (s.rightSide comparison rightReg rightImm)) { s with pc } := by
  unfold decides leftSide rightSide
  cases comparison.sides <;> rfl

theorem jump_past (offset : Int) (s : Machine) : jump offset { s with pc := s.pc + 1 } =
    if (s.pc : Int) + 1 + offset < 0 then .error (.pcOutOfBounds (s.functionName s.function)) { s with pc := s.pc + 1 }
    else .ok () { s with pc := ((s.pc : Int) + 1 + offset).toNat } := by
  change (if (s.pc : Int) + 1 + offset < 0 then throw (.pcOutOfBounds (s.functionName s.function)) else
    set { s with pc := ((s.pc : Int) + 1 + offset).toNat } : MachineM Unit) { s with pc := s.pc + 1 } = _
  split <;> rfl

theorem dispatched_test (comparison : Comparison) (known : word.opcode? = some (.test comparison)) (s : Machine) :
    dispatch word { s with pc := s.pc + 1 } = flagged word.a (holds s.heap comparison.relation
      (s.leftSide comparison word.b word.bSigned) (s.rightSide comparison word.c word.cSigned)) s := by
  have performs : perform (.test comparison) word =
      decides comparison word.b word.c word.bSigned word.cSigned >>= fun decision => setReg word.a (.ofBool decision) := rfl
  simp only [dispatch,known,performs,bind,EStateM.bind,decides_sides]
  rfl

theorem dispatched_branch (comparison : Comparison) (known : word.opcode? = some (.branch comparison)) (s : Machine) :
    dispatch word { s with pc := s.pc + 1 } = branched word.cSigned (holds s.heap comparison.relation
      (s.leftSide comparison word.a word.aSigned) (s.rightSide comparison word.b word.bSigned)) s := by
  have performs : perform (.branch comparison) word = decides comparison word.a word.b word.aSigned word.bSigned >>= fun decision =>
      if decision then jump word.cSigned else pure () := rfl
  simp only [dispatch,known,performs,bind,EStateM.bind,decides_sides]
  cases holds s.heap comparison.relation _ _ with
  | false => rfl
  | true =>
      simp only [if_true,jump_past,branched]
      by_cases before : (s.pc : Int) + 1 + word.cSigned < 0
      · simp only [if_pos before]
      · simp only [if_neg before]
        rfl

theorem dispatched_skip (comparison : Comparison) (known : word.opcode? = some (.skip comparison)) (s : Machine) :
    dispatch word { s with pc := s.pc + 1 } = skipped (holds s.heap comparison.relation
      (s.leftSide comparison word.a word.abSigned) (s.rightSide comparison (skipRightReg comparison word) word.bcSigned)) s := by
  have performs : perform (.skip comparison) word =
      decides comparison word.a (skipRightReg comparison word) word.abSigned word.bcSigned >>= fun decision =>
        if !decision then skipNext else pure () := rfl
  simp only [dispatch,known,performs,bind,EStateM.bind,decides_sides]
  cases holds s.heap comparison.relation _ _ <;> rfl

-- What a comparison of two values comes to, if it ends: comparing maps for equality may not.
def decision? (h : Heap) (relation : Relation) (x y : Value) : Option Bool :=
  match relation with
  | .lt => some (h.less x y)
  | .le => some (h.atMost x y)
  | .eq => h.equal? x y
  | .ne => (h.equal? x y).map not

theorem holds_decision {h : Heap} {relation : Relation} (ended : decision? h relation x y = some decision) :
    holds h relation x y = decision := by
  cases relation with
  | lt => exact Option.some.inj ended
  | le => exact Option.some.inj ended
  | eq => exact Heap.equal?_equal ended
  | ne =>
      obtain ⟨same,compared,rfl⟩ := Option.map_eq_some_iff.mp ended
      rw [holds,Heap.equal?_equal compared]

theorem decision?_flat {h : Heap} (flat : h.FlatKeys) (relation : Relation) (x y : Value) : (decision? h relation x y).isSome = true := by
  cases relation with
  | lt => rfl
  | le => rfl
  | eq => exact Heap.equal?_flat flat x y
  | ne => exact Option.isSome_map.trans (Heap.equal?_flat flat x y)

-- Every comparison asks for the relation of the values that its compared operands stand for, in their order. If that is decided,
-- nothing else comes of it than what the decision brings, apart from the line of the trace.
structure DecidesBy (m : Machine) (decision? : Relation → Value → Value → Option Bool) : Prop where
  test : ∀ word comparison, m.nextWord? = some word → word.opcode? = some (.test comparison) → ∃ destination left right x y,
    Instruction.decode? word = some (.test comparison,[destination,left,right]) ∧
    m.operandValue? (.test comparison) [destination,left,right] 1 = some x ∧
    m.operandValue? (.test comparison) [destination,left,right] 2 = some y ∧
    ∀ decision, decision? comparison.relation x y = some decision → step m = flagged destination decision (m.traced word)
  branch : ∀ word comparison, m.nextWord? = some word → word.opcode? = some (.branch comparison) → ∃ left right offset x y,
    Instruction.decode? word = some (.branch comparison,[left,right,offset]) ∧
    m.operandValue? (.branch comparison) [left,right,offset] 0 = some x ∧
    m.operandValue? (.branch comparison) [left,right,offset] 1 = some y ∧
    ∀ decision, decision? comparison.relation x y = some decision → step m = branched offset decision (m.traced word)
  skip : ∀ word comparison, m.nextWord? = some word → word.opcode? = some (.skip comparison) → ∃ left right x y,
    Instruction.decode? word = some (.skip comparison,[left,right]) ∧
    m.operandValue? (.skip comparison) [left,right] 0 = some x ∧
    m.operandValue? (.skip comparison) [left,right] 1 = some y ∧
    ∀ decision, decision? comparison.relation x y = some decision → step m = skipped decision (m.traced word)

theorem decode?_used (known : word.opcode? = some op) (plain : op ∉ Opcode.signless) : Instruction.decode? word = some (op,word.used op) := by
  rw [Instruction.decode?,known,Option.map_some,Instruction.readFields_used word plain]

theorem test_operands (m : Machine) (word : Word) (comparison : Comparison) :
    ∃ left right, word.used (.test comparison) = [(word.a : Int),left,right] ∧
      m.operandValue? (.test comparison) [(word.a : Int),left,right] 1 = some (m.leftSide comparison word.b word.bSigned) ∧
      m.operandValue? (.test comparison) [(word.a : Int),left,right] 2 = some (m.rightSide comparison word.c word.cSigned) := by
  simp only [Word.used,operandValue?,Opcode.fields,leftSide,rightSide]
  cases comparison.sides with
  | registers | immediateRight | immediateLeft => exact ⟨_,_,rfl,rfl,rfl⟩

theorem branch_operands (m : Machine) (word : Word) (comparison : Comparison) :
    ∃ left right, word.used (.branch comparison) = [left,right,word.cSigned] ∧
      m.operandValue? (.branch comparison) [left,right,word.cSigned] 0 = some (m.leftSide comparison word.a word.aSigned) ∧
      m.operandValue? (.branch comparison) [left,right,word.cSigned] 1 = some (m.rightSide comparison word.b word.bSigned) := by
  simp only [Word.used,operandValue?,Opcode.fields,leftSide,rightSide]
  cases comparison.sides with
  | registers | immediateRight | immediateLeft => exact ⟨_,_,rfl,rfl,rfl⟩

theorem skip_operands (m : Machine) (word : Word) (comparison : Comparison) :
    ∃ left right, word.used (.skip comparison) = [left,right] ∧
      m.operandValue? (.skip comparison) [left,right] 0 = some (m.leftSide comparison word.a word.abSigned) ∧
      m.operandValue? (.skip comparison) [left,right] 1 = some (m.rightSide comparison (skipRightReg comparison word) word.bcSigned) := by
  simp only [Word.used,operandValue?,Opcode.fields,leftSide,rightSide,skipRightReg]
  cases comparison.sides with
  | registers | immediateRight | immediateLeft => exact ⟨_,_,rfl,rfl,rfl⟩

theorem comparisons_alike (m : Machine) : m.DecidesBy (decision? m.heap) ∧
    (m.heap.FlatKeys → ∀ relation x y, (decision? m.heap relation x y).isSome = true) := by
  refine ⟨⟨?_,?_,?_⟩,decision?_flat⟩
  · intro word comparison next known
    obtain ⟨left,right,used,first,second⟩ := test_operands m word comparison
    refine ⟨_,left,right,_,_,?_,first,second,fun decision ended => ?_⟩
    · rw [decode?_used known (by simp [Opcode.signless]),used]
    · obtain rfl := holds_decision ended
      exact (step_traced next).trans (dispatched_test comparison known (m.traced word))
  · intro word comparison next known
    obtain ⟨left,right,used,first,second⟩ := branch_operands m word comparison
    refine ⟨left,right,_,_,_,?_,first,second,fun decision ended => ?_⟩
    · rw [decode?_used known (by simp [Opcode.signless]),used]
    · obtain rfl := holds_decision ended
      exact (step_traced next).trans (dispatched_branch comparison known (m.traced word))
  · intro word comparison next known
    obtain ⟨left,right,used,first,second⟩ := skip_operands m word comparison
    refine ⟨left,right,_,_,?_,first,second,fun decision ended => ?_⟩
    · rw [decode?_used known (by simp [Opcode.signless]),used]
    · obtain rfl := holds_decision ended
      exact (step_traced next).trans (dispatched_skip comparison known (m.traced word))

-- A program that compares -5 with a register that holds -3: whether they are equal, and in all three forms whether it is less.
def comparing : Program where
  functions := [
    { name := "@main",registers := some 4,parameters := [],constants := []
      code := [.named "LOAD_rA_iBC" [1,-3],.named "EQ_rA_rB_iC" [3,1,-5],.named "LT_rA_iB_rC" [2,-5,1],.named "IFLT_iAB_rC" [-5,1],
        .named "BRLT_iA_rB_iC" [-5,1,-6]] }]

theorem comparing_runs : ∃ m₁ m₂ m₃ m₄ : Machine, (m₁.Reachable ∧ m₂.Reachable ∧ m₃.Reachable ∧ m₄.Reachable) ∧
    (m₁.nextWord? = some 0x230301fb ∧ m₂.nextWord? = some 0x1e02fb01 ∧ m₃.nextWord? = some 0x34fffb01 ∧ m₄.nextWord? = some 0x2afb01fa) ∧
    (∀ m ∈ [m₁,m₂,m₃,m₄], m.heap.registerValue (m.base + 1) = .int (-3)) ∧ m₄.pc = 4 ∧ m₄.functionName m₄.function = "@main" := by
  have loaded : (Machine.load (.new { stackSlots := 8 }) comparing true).Reachable := .load comparing true (.new _)
  refine ⟨_,_,_,_,⟨loaded.run 1,loaded.run 2,loaded.run 3,loaded.run 4⟩,?_⟩
  decide +kernel

-- Equality does not hold; each form of the other comparison holds: the flag is stored, the next instruction is kept, and the jump
-- would lead before the first.
theorem comparisons_alike_negative : ∃ m₁ m₂ m₃ m₄ : Machine, (m₁.Reachable ∧ m₂.Reachable ∧ m₃.Reachable ∧ m₄.Reachable) ∧
    step m₁ = flagged 3 false (m₁.traced 0x230301fb) ∧ step m₂ = flagged 2 true (m₂.traced 0x1e02fb01) ∧
    step m₃ = skipped true (m₃.traced 0x34fffb01) ∧ ∃ s, step m₄ = .error (.pcOutOfBounds "@main") s := by
  obtain ⟨m₁,m₂,m₃,m₄,reachable,⟨first,second,third,fourth⟩,values,pc,name⟩ := comparing_runs
  have differ : decision? m₁.heap .eq (m₁.heap.registerValue (m₁.base + 1)) (.int (Int32.ofInt (-5))) = some false := by
    rw [values m₁ (by simp)]
    rfl
  have decided : ∀ m ∈ [m₂,m₃,m₄], decision? m.heap .lt (.int (Int32.ofInt (-5))) (m.heap.registerValue (m.base + 1)) = some true := by
    intro m member
    rw [values m (List.mem_cons_of_mem m₁ member)]
    simp only [decision?,Heap.less,Value.isNumber,Bool.and_self,if_true]
    decide +kernel
  have unequal : step m₁ = flagged 3 false (m₁.traced 0x230301fb) := by
    obtain ⟨destination,left,right,x,y,decoded,here,there,stepped⟩ := (comparisons_alike m₁).1.test _ (.eq true) first (by decide +kernel)
    cases Option.some.inj (decoded.symm.trans (by decide +kernel : _ = some (.test (.eq true),[3,1,-5])))
    cases here
    cases there
    exact stepped false differ
  have stores : step m₂ = flagged 2 true (m₂.traced 0x1e02fb01) := by
    obtain ⟨destination,left,right,x,y,decoded,here,there,stepped⟩ :=
      (comparisons_alike m₂).1.test _ (.lt .immediateLeft) second (by decide +kernel)
    cases Option.some.inj (decoded.symm.trans (by decide +kernel : _ = some (.test (.lt .immediateLeft),[2,-5,1])))
    cases here
    cases there
    exact stepped true (decided m₂ (by simp))
  have keeps : step m₃ = skipped true (m₃.traced 0x34fffb01) := by
    obtain ⟨left,right,x,y,decoded,here,there,stepped⟩ := (comparisons_alike m₃).1.skip _ (.lt .immediateLeft) third (by decide +kernel)
    cases Option.some.inj (decoded.symm.trans (by decide +kernel : _ = some (.skip (.lt .immediateLeft),[-5,1])))
    cases here
    cases there
    exact stepped true (decided m₃ (by simp))
  have jumps : step m₄ = branched (-6) true (m₄.traced 0x2afb01fa) := by
    obtain ⟨left,right,offset,x,y,decoded,here,there,stepped⟩ := (comparisons_alike m₄).1.branch _ (.lt .immediateLeft) fourth (by decide +kernel)
    cases Option.some.inj (decoded.symm.trans (by decide +kernel : _ = some (.branch (.lt .immediateLeft),[-5,1,-6])))
    cases here
    cases there
    exact stepped true (decided m₄ (by simp))
  have before : (m₄.pc : Int) + 1 + -6 < 0 := by
    rw [pc]
    decide
  have stops : branched (-6) true (m₄.traced 0x2afb01fa) =
      .error (.pcOutOfBounds (m₄.functionName m₄.function)) { m₄.traced 0x2afb01fa with pc := m₄.pc + 1 } := by
    rw [branched,if_pos rfl]
    exact if_pos before
  rw [name] at stops
  exact ⟨m₁,m₂,m₃,m₄,reachable,unequal,stores,keeps,_,jumps.trans stops⟩

end RegisterMachine.Machine
