import RegisterMachine.Proofs.Machine.Entering

namespace RegisterMachine

namespace Machine

variable {m : Machine} {written : Handle → Prop}

theorem jump_works (offset : Int) : Works written (jump offset) m := by
  refine Works.get_bind ?_
  simp only
  split
  · exact .throw _
  · exact ⟨rfl,rfl,rfl,rfl,rfl,Or.inl rfl,.refl⟩

theorem skipNext_works : Works written skipNext m := ⟨rfl,rfl,rfl,rfl,rfl,Or.inl rfl,.refl⟩

theorem decides_works (comparison : Comparison) (leftReg rightReg : Nat) (leftImm rightImm : Int) :
    Works written (decides comparison leftReg rightReg leftImm rightImm) m := by
  unfold decides
  cases comparison.sides <;> exact Aside.refl m

theorem binary_works (operation : BinaryOperation) (x y : Value) : Works written (binary operation x y) m := by
  cases operation with
  | add => exact onHeap_works (Heap.add_acts _ _)
  | mult => exact onHeap_works (Heap.mult_acts _ _)
  | div => exact onHeap_works (Heap.div_acts _ _)
  | sub | mod | and | or => exact Aside.refl m

theorem setIndexed_works {container : Value} (index v : Value) (may : ∀ r, container = .map r → written r) :
    Works written (setIndexed container index v) m := by
  unfold setIndexed
  split
  · exact onHeap_works (Heap.listSet_acts _ _ _)
  · exact onHeap_works (Heap.mapSet_acts _ (Value.named_all _) may)
  · exact Works.get_bind (.throw _)

theorem iterated_works (container : Value) (index : Int32) : Works written (iterated container index) m := by
  unfold iterated
  split
  · exact readHeap_works _
  · exact readHeap_works _
  · exact readHeap_works _
  · exact onHeap_works (Heap.entryPair_acts _ _)
  · exact .pure _

theorem store_works {operation : MachineM Value} (works : Works written operation m) : Works written (operation >>= setReg r) m :=
  works.bind fun v _ _ => setReg_works r v

theorem reg_works {rest : Value → MachineM β} (follows : Works written (rest (m.heap.registerValue (m.base + r))) m) :
    Works written (reg r >>= rest) m := follows

theorem reg_turns {rest : Value → MachineM β} (follows : Turns written (rest (m.heap.registerValue (m.base + r))) m) :
    Turns written (reg r >>= rest) m := follows

-- The call of a function reference without arguments.
def refRequest (m : Machine) (f : FuncRef) (base destination : Nat) : CallRequest :=
  { function := f.function,outer := f.outer,base,arguments := some 0,destination := some destination,returnPc := m.pc }

-- The calls that instructions make, by opcode.
inductive Calls (m : Machine) (word : Word) : Opcode → CallRequest → Prop where
  | loadCall : namedRegister word.b word.c m = .ok v m → m.heap.funcRef? v = some f →
      Calls m word .loadCall (m.refRequest f (m.base + m.windowSize m.function) word.a)
  | argumentBlock {call : Word} : m.functions[m.function]?.bind (·.code[m.pc + word.abcSigned.toNat]?) = some call →
      m.heap.funcRef? (m.heap.registerValue (m.base + call.c)) = some f →
      Calls m word .argumentBlock
        { function := f.function,outer := f.outer,base := m.base + call.b,arguments := some word.abcSigned.toNat
          destination := some call.a,returnPc := m.pc + word.abcSigned.toNat + 1 }
  | callFunction : Calls m word .callFunction
      { function := word.bc,outer := .null,base := m.base + word.a,arguments := none,destination := none,returnPc := m.pc }
  | callNamed : constant word.bc m = .ok name m → m.functionIndex? (m.heap.display name) = some index →
      Calls m word .callNamed
        { function := index,outer := .null,base := m.base + word.a,arguments := none,destination := none,returnPc := m.pc }
  | call : m.heap.funcRef? (m.heap.registerValue (m.base + word.c)) = some f →
      Calls m word .call (m.refRequest f (m.base + word.b) word.a)
  | callIfRef : m.heap.funcRef? (m.heap.registerValue (m.base + word.a)) = some f → m.pending.isSome = true →
      Calls m word .callIfRef (m.refRequest f (m.base + m.windowSize m.function) word.a)

-- The maps that an instruction may write.
inductive Operates (m : Machine) (word : Word) : Opcode → Handle → Prop where
  | setIndex : m.heap.registerValue (m.base + word.a) = .map r → Operates m word .setIndex r
  | intrinsic : Calls m word op request → m.Subject request r → Operates m word op r

theorem Calls.turns {request : CallRequest} (calls : Calls m word op request) : Turns (Operates m word op) (enter request) m :=
  enter_turns fun _ subject => .intrinsic calls subject

theorem constant_same (done : constant k m = .ok v m') : m' = m := by
  unfold constant at done
  split at done
  · cases done
    rfl
  · cases done

theorem namedRegister_same (done : namedRegister r k m = .ok v m') : m' = m := by
  simp only [namedRegister,bind,EStateM.bind] at done
  split at done
  · rename_i name s read
    cases constant_same read
    split at done
    · cases done
      rfl
    · split at done
      · cases done
        rfl
      · cases done
  · cases done

theorem argumentBlock_turns (word : Word) : Turns (Operates m word .argumentBlock) (argumentBlock word.abcSigned) m := by
  unfold argumentBlock
  simp only
  split
  · exact Works.turns (.refl m)
  · refine Turns.get_bind ?_
    split
    · exact (Works.throw _).turns
    · rename_i call found
      split
      · exact Works.turns (.refl m)
      · split
        · exact (Works.throw _).turns
        · rename_i f target
          exact Calls.turns (.argumentBlock found target)

theorem perform_turns (op : Opcode) (word : Word) : Turns (Operates m word op) (perform op word) m := by
  have cleared : ∀ op, Works (Operates m word op) (modify (·.setPending none)) m := fun op => setPending_aside m none
  cases op with
  | noop | ret => exact (Works.pure _).turns
  | copy => exact Works.turns (reg_works (setReg_works _ _))
  | loadInt | loadNull => exact (setReg_works _ _).turns
  | loadConstant => exact (store_works (constant_works _)).turns
  | loadVariable => exact (store_works (namedRegister_works _ _)).turns
  | loadCall =>
      refine (namedRegister_works _ _).bindTurns fun v m' read => ?_
      cases namedRegister_same read
      refine ⟨rfl,Turns.get_bind ?_⟩
      split
      · rename_i f target
        exact Calls.turns (.loadCall read target)
      · exact (setReg_works _ _).turns
  | funcRef => exact currentLocals_turns.bind fun _ m' => store_works (onHeap_works (Heap.newFuncRef_acts _ _))
  | assign =>
      refine Works.turns (reg_works ((setReg_works _ _).bind fun _ m' _ => ?_))
      exact (constant_works _).bind fun name m'' _ => nameRegister_works _ _
  | name => exact Works.turns ((constant_works _).bind fun name m' _ => nameRegister_works _ _)
  | binary operation => exact Works.turns (reg_works (reg_works (store_works (binary_works _ _ _))))
  | not => exact Works.turns (reg_works (Works.get_bind (setReg_works _ _)))
  | list => exact Works.turns (store_works (onHeap_works (Heap.newListOf_acts _ _)))
  | map => exact Works.turns (store_works (onHeap_works (Heap.newMap_makes _).performs))
  | push => exact Works.turns (reg_works (reg_works (onHeap_works (Heap.updateList_acts _ _))))
  | index => exact Works.turns (reg_works (reg_works (store_works (readHeap_works _))))
  | setIndex => exact Works.turns (reg_works (reg_works (reg_works (setIndexed_works _ _ fun r => .setIndex))))
  | slice => exact Works.turns (reg_works (reg_works (reg_works (store_works (onHeap_works (Heap.sliceOf_acts _ _ _ _))))))
  | locals => exact currentLocals_turns.bind fun _ m' => (setReg_works _ _).bind fun _ _ _ => setRegName_works _ _
  | outer => exact outerVariables_turns.bind fun _ m' => (setReg_works _ _).bind fun _ _ _ => setRegName_works _ _
  | globals => exact (frameLocals_turns 0).bind fun _ m' => (setReg_works _ _).bind fun _ _ _ => setRegName_works _ _
  | jump => exact (jump_works _).turns
  | test comparison => exact Works.turns ((decides_works _ _ _ _ _).bind fun _ _ _ => setReg_works _ _)
  | branchTrue =>
      refine Works.turns (reg_works (Works.get_bind ?_))
      split
      · exact jump_works _
      · exact .pure _
  | branchFalse =>
      refine Works.turns (reg_works (Works.get_bind ?_))
      split
      · exact jump_works _
      · exact .pure _
  | branch comparison =>
      refine Works.turns ((decides_works _ _ _ _ _).bind fun _ _ _ => ?_)
      split
      · exact jump_works _
      · exact .pure _
  | skip comparison =>
      refine Works.turns ((decides_works _ _ _ _ _).bind fun _ _ _ => ?_)
      split
      · exact skipNext_works
      · exact .pure _
  | next =>
      refine Works.turns (reg_works ((setReg_works _ _).bind fun _ m' _ => reg_works (Works.get_bind ?_)))
      simp only
      split
      · exact skipNext_works
      · exact .pure _
  | argumentBlock => exact argumentBlock_turns word
  | argument | argumentInt => exact (Works.throw _).turns
  | callFunction => exact Turns.get_bind (Calls.turns .callFunction)
  | callNamed =>
      refine (constant_works _).bindTurns fun name m' read => ?_
      cases constant_same read
      refine ⟨rfl,Turns.get_bind ?_⟩
      simp only
      split
      · exact (Works.throw _).turns
      · rename_i found
        exact Calls.turns (.callNamed read found)
  | call =>
      refine reg_turns (Turns.get_bind ?_)
      split
      · rename_i f target
        exact Calls.turns (.call target)
      · exact Works.turns ((cleared _).bind fun _ m' _ => setReg_works _ _)
  | new => exact Works.turns (reg_works (store_works (onHeap_works (Heap.newChild_acts _))))
  | isa => exact Works.turns (reg_works (reg_works (Works.get_bind (setReg_works _ _))))
  | findMethod => exact Works.turns (reg_works (reg_works (store_works (findMethod_works _ _))))
  | setSelf => exact Works.turns (setPending_aside m _)
  | callIfRef =>
      refine reg_turns (Turns.get_bind ?_)
      split
      · rename_i f pair target waits
        exact Calls.turns (.callIfRef target (by rw [waits]; rfl))
      · exact (cleared _).turns
  | iterGet => exact Works.turns (reg_works (reg_works (store_works (iterated_works _ _))))

theorem fetch_works : Works written fetch m := by
  unfold Works fetch
  cases m.functions[m.function]? with
  | none => exact .refl m
  | some f =>
      simp only
      cases f.code[m.pc]? with
      | none => exact .refl m
      | some word => cases m.config.trace <;> exact ⟨rfl,rfl,rfl,rfl,rfl,Or.inl rfl,.refl⟩

-- The maps that the next instruction may write.
def Writes (m : Machine) (r : Handle) : Prop :=
  ∃ word s op, fetch m = .ok word s ∧ word.opcode? = some op ∧ Operates s word op r

theorem fetch_heap (fetched : fetch m = .ok word m') : m'.heap = m.heap := by
  unfold fetch at fetched
  split at fetched
  · cases fetched
  · split at fetched
    · cases fetched
    · cases fetched
      cases m.config.trace <;> rfl

theorem step_turns (m : Machine) : Turns m.Writes step m := by
  refine fetch_works.bindTurns fun word s fetched => ⟨fetch_heap fetched,?_⟩
  split
  · exact (Works.throw _).turns
  · refine leave_turns.bind fun result m' => ?_
    split
    · exact .pure _
    · exact .pure _
  · rename_i op _ known
    refine Turns.bind ?_ fun _ m' => .pure _
    exact (perform_turns op word).mono fun r operates => ⟨word,s,op,fetched,known,operates⟩

end Machine

end RegisterMachine
