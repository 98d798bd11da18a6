import RegisterMachine.Proofs.Machine.Calls

namespace RegisterMachine.Machine

variable {m : Machine}

theorem jump_meets (offset : Int) (secure : m.Secure) : Meets (jump offset) m Secure fun _ _ => True := by
  refine Meets.get_bind ?_
  simp only
  split
  · exact .throw secure Error.noConfusion
  · exact ⟨secure.same rfl rfl rfl rfl,trivial⟩

theorem skipNext_meets (secure : m.Secure) : Meets skipNext m Secure fun _ _ => True :=
  ⟨secure.same rfl rfl rfl rfl,trivial⟩

theorem decides_meets (comparison : Comparison) (leftReg rightReg : Nat) (leftImm rightImm : Int) (secure : m.Secure) :
    Meets (decides comparison leftReg rightReg leftImm rightImm) m Secure fun _ m' => m' = m := by
  unfold decides
  cases comparison.sides <;> exact ⟨secure,rfl⟩

theorem binary_meets (operation : BinaryOperation) (secure : m.Secure) (left : m.heap.Kept x) (right : m.heap.Kept y) :
    Meets (binary operation x y) m Secure fun v m' => m'.heap.Sound v := by
  have plain : ∀ v, v.handle? = none → Meets (pure v : MachineM Value) m Secure fun v m' => m'.heap.Sound v :=
    fun v none => .pure secure (Heap.sound_plain _ none)
  cases operation with
  | add => exact onHeap_sound secure (Heap.add_meets secure.safe left right)
  | sub =>
      refine plain _ ?_
      unfold Heap.sub
      split
      · exact Value.ofInt_plain _
      · split <;> rfl
  | mult => exact onHeap_sound secure (Heap.mult_meets _ secure.safe left.1)
  | div => exact onHeap_sound secure (Heap.div_meets _ secure.safe left.1)
  | mod =>
      refine plain _ ?_
      unfold Heap.mod
      split
      · split
        · split
          · rfl
          · exact Value.ofInt_plain _
        · rfl
      · rfl
  | and => exact Meets.get_bind (plain _ (Heap.ofDegree_plain _))
  | or => exact Meets.get_bind (plain _ (Heap.ofDegree_plain _))

theorem indexValue_gives {h : Heap} (index : Value) (safe : h.Safe) (sound : h.Sound container) :
    Gives (indexValue h container index) h.Sound := by
  unfold indexValue
  split
  · exact safe.closed_sound.listGet sound _
  · split
    · rename_i found
      exact safe.closed_sound.lookupInherited? sound found
    · exact Error.noConfusion
  · exact (h.stringCharAt_gives _ _).imp fun _ => Heap.sound_plain h
  · exact (h.stringCharAt_gives _ _).imp fun _ => Heap.sound_plain h
  · exact Error.noConfusion

theorem setIndexed_meets (secure : m.Secure) (sound : m.heap.Sound container) (keyed : m.heap.Sound index) (added : m.heap.Sound v) :
    Meets (setIndexed container index v) m Secure fun _ _ => True := by
  have done : ∀ {operation : HeapM Unit}, Meets operation m.heap (Heap.Edited m.heap) (fun _ _ => True) →
      Meets (onHeap operation) m Secure fun _ _ => True := fun meets =>
    (onHeap_edited secure meets).done
  unfold setIndexed
  split
  · exact done (Heap.listSet_meets _ secure.safe sound added)
  · exact done (Heap.mapSet_meets secure.safe sound keyed added)
  · exact Meets.get_bind (.throw secure Error.noConfusion)

theorem iterated_meets (index : Int32) (secure : m.Secure) (kept : m.heap.Kept container) :
    Meets (iterated container index) m Secure fun v m' => m'.heap.Sound v := by
  unfold iterated
  split
  · exact @readHeap_sound m (·.listGet _ _) secure (secure.safe.closed_sound.listGet kept.1 _)
  · exact readHeap_sound secure ((m.heap.stringCharAt_gives _ _).imp fun _ => Heap.sound_plain _)
  · exact readHeap_sound secure ((m.heap.stringCharAt_gives _ _).imp fun _ => Heap.sound_plain _)
  · exact onHeap_sound secure (Heap.entryPair_meets _ secure.safe kept)
  · exact .pure secure (Heap.sound_plain _ rfl)

theorem callAbove_meets {f : FuncRef} (destination : Nat) (secure : m.Secure) (outer : m.heap.Sound f.outer) :
    Meets (callAbove f destination) m Secure fun _ _ => True :=
  Meets.get_bind (callRef_meets _ _ secure outer)

theorem storeUnnamed_meets {operation : MachineM Value} (meets : Meets operation m Secure fun v m' => m'.heap.Kept v) :
    Meets (do setReg r (← operation); setRegName r .null) m Secure fun _ _ => True := by
  refine meets.bind fun v m' secure kept => (setReg_meets secure kept.1).bind fun _ m'' secure' _ => ?_
  exact (setRegName_meets secure' (Heap.sound_plain _ rfl)).done

theorem perform_meets (op : Opcode) (word : Word) (secure : m.Secure) :
    Meets (perform op word) m Secure fun _ _ => True := by
  have stored : ∀ {r v}, m.heap.Sound v → Meets (setReg r v) m Secure fun _ _ => True := fun sound =>
    (setReg_meets secure sound).done
  have cleared : (m.setPending none).Secure := secure.setPending none (by simp)
  cases op with
  | noop | ret => exact .pure secure trivial
  | copy => exact reg_bind (stored (secure.register _).1)
  | loadInt => exact stored (Heap.sound_plain _ rfl)
  | loadConstant => exact constant_bind secure fun v permanent => stored (permanent.kept secure.safe.toIntact).1
  | loadNull => exact stored (Heap.sound_plain _ rfl)
  | loadVariable =>
      refine (namedRegister_meets secure).bind ?_
      rintro v _ _ ⟨rfl,sound⟩
      exact stored sound
  | loadCall =>
      refine (namedRegister_meets secure).bind ?_
      rintro v _ _ ⟨rfl,sound⟩
      refine Meets.get_bind ?_
      split
      · rename_i f target
        exact callAbove_meets _ secure (secure.safe.closed_sound.outer sound target)
      · exact stored sound
  | funcRef =>
      refine (currentLocals_meets secure).bind fun locals m' secure' kept => ?_
      exact store_meets (onHeap_sound secure' (Heap.Meets.continues (Heap.newFuncRef_meets _ secure'.safe kept)))
  | assign =>
      refine reg_bind ((setReg_meets secure (secure.register _).1).bind fun _ m' secure' _ => ?_)
      exact constant_bind secure' fun v permanent => nameRegister_meets secure' permanent
  | name => exact constant_bind secure fun v permanent => nameRegister_meets secure permanent
  | binary operation =>
      exact reg_bind (reg_bind (store_meets (binary_meets operation secure (secure.register _) (secure.register _))))
  | not => exact reg_bind (Meets.get_bind (stored (Heap.sound_plain _ (Heap.ofDegree_plain _))))
  | list =>
      exact store_meets (onHeap_sound secure (Heap.Meets.continues (Heap.listOf_meets _ secure.safe (by simp))))
  | map =>
      exact store_meets (onHeap_sound secure (Heap.Meets.continues (Heap.newMap_sound _ secure.safe)))
  | push =>
      refine reg_bind (reg_bind ?_)
      exact (onHeap_edited secure (Heap.listPush_meets secure.safe (secure.register _).1 (secure.register _).1)).done
  | index =>
      exact reg_bind (reg_bind (store_meets (readHeap_sound secure (indexValue_gives _ secure.safe (secure.register _).1))))
  | setIndex =>
      exact reg_bind (reg_bind (reg_bind (setIndexed_meets secure (secure.register _).1 (secure.register _).1 (secure.register _).1)))
  | slice =>
      refine reg_bind (reg_bind (reg_bind (store_meets (onHeap_sound secure (Heap.Meets.continues ?_)))))
      exact Heap.sliceOf_meets _ _ secure.safe (secure.register _) fun _ => Error.noConfusion
  | locals => exact storeUnnamed_meets (currentLocals_meets secure)
  | outer => exact storeUnnamed_meets (outerVariables_meets secure)
  | globals => exact storeUnnamed_meets (frameLocals_meets 0 secure)
  | jump => exact jump_meets _ secure
  | test comparison =>
      refine (decides_meets comparison _ _ _ _ secure).bind ?_
      rintro decision _ _ rfl
      exact stored (Heap.sound_plain _ rfl)
  | branchTrue =>
      refine reg_bind (Meets.get_bind ?_)
      split
      · exact jump_meets _ secure
      · exact .pure secure trivial
  | branchFalse =>
      refine reg_bind (Meets.get_bind ?_)
      split
      · exact jump_meets _ secure
      · exact .pure secure trivial
  | branch comparison =>
      refine (decides_meets comparison _ _ _ _ secure).bind fun decision m' secure' _ => ?_
      split
      · exact jump_meets _ secure'
      · exact .pure secure' trivial
  | skip comparison =>
      refine (decides_meets comparison _ _ _ _ secure).bind fun decision m' secure' _ => ?_
      split
      · exact skipNext_meets secure'
      · exact .pure secure' trivial
  | next =>
      refine reg_bind ((setReg_meets secure (Heap.sound_plain _ rfl)).bind fun _ m' secure' _ => ?_)
      refine reg_bind (Meets.get_bind ?_)
      simp only
      split
      · exact skipNext_meets secure'
      · exact .pure secure' trivial
  | argumentBlock => exact argumentBlock_meets _ secure
  | argument | argumentInt => exact .throw secure Error.noConfusion
  | callFunction => exact Meets.get_bind (enter_meets secure (Heap.sound_plain _ rfl))
  | callNamed =>
      refine constant_bind secure fun name _ => Meets.get_bind ?_
      simp only
      split
      · exact .throw secure Error.noConfusion
      · exact enter_meets secure (Heap.sound_plain _ rfl)
  | call =>
      refine reg_bind (Meets.get_bind ?_)
      split
      · rename_i f target
        exact callRef_meets _ _ secure (secure.safe.closed_sound.outer (secure.register _).1 target)
      · refine Meets.modify_bind ((setReg_meets cleared ?_).done)
        exact (setPending_apart m none).sound (secure.register _).1
  | new =>
      exact reg_bind (store_meets (onHeap_sound secure (Heap.newChild_meets secure.safe (secure.register _))))
  | isa => exact reg_bind (reg_bind (Meets.get_bind (stored (Heap.sound_plain _ rfl))))
  | findMethod => exact reg_bind (reg_bind (store_meets (findMethod_meets _ secure (secure.register _).1)))
  | setSelf =>
      refine reg_bind ⟨secure.setPending _ ?_,trivial⟩
      intro receiver parent same
      cases same
      refine ⟨(secure.register _).1,?_⟩
      cases waiting : m.pending with
      | none => exact Heap.sound_plain _ rfl
      | some pair => exact (secure.pending_kept waiting).2.1
  | callIfRef =>
      refine reg_bind (Meets.get_bind ?_)
      split
      · rename_i f _ target _
        exact callAbove_meets _ secure (secure.safe.closed_sound.outer (secure.register _).1 target)
      · exact ⟨cleared,trivial⟩
  | iterGet => exact reg_bind (reg_bind (store_meets (iterated_meets _ secure (secure.register _))))

theorem fetch_meets (secure : m.Secure) : Meets fetch m Secure fun _ _ => True := by
  unfold Meets fetch
  cases m.functions[m.function]? with
  | none => exact ⟨Error.noConfusion,secure⟩
  | some f =>
      simp only
      cases f.code[m.pc]? with
      | none => exact ⟨Error.noConfusion,secure⟩
      | some word =>
          cases m.config.trace <;> exact ⟨secure.same rfl rfl rfl rfl,trivial⟩

theorem step_meets (secure : m.Secure) :
    Meets step m Secure fun progress m' => ∀ v, progress = .finished v → m'.heap.Sound v := by
  refine (fetch_meets secure).bind fun word m' secure' _ => ?_
  split
  · exact .throw secure' Error.noConfusion
  · refine (leave_meets secure').bind fun result m'' secure'' sound => ?_
    split
    · rename_i v
      refine .pure secure'' fun w same => ?_
      cases same
      exact sound v rfl
    · exact .pure secure'' (by simp)
  · exact (perform_meets _ word secure').bind fun _ _ secure'' _ => .pure secure'' (by simp)

end RegisterMachine.Machine
