import RegisterMachine.Program.Build
import RegisterMachine.Proofs.Machine.Secure

namespace RegisterMachine

theorem Function.Lasting.same {h : Heap} {f g : Function} (lasting : f.Lasting h) (constants : g.constants = f.constants)
    (parameters : g.parameters = f.parameters) : g.Lasting h :=
  ⟨constants ▸ lasting.constants,parameters ▸ lasting.parameters⟩

namespace Program

-- Every outcome is a grown heap, and a result satisfies `post`.
def Builds (operation : BuildM α) (h : Heap) (post : α → Heap → Prop) : Prop :=
  match operation h with
  | .ok a s => Heap.Grown h s ∧ post a s
  | .error _ s => Heap.Grown h s

variable {h : Heap}

theorem Builds.pure {a : α} {post : α → Heap → Prop} (safe : h.Safe) (holds : post a h) :
    Builds (Pure.pure a) h post := ⟨.refl safe,holds⟩

theorem Builds.throw {e : ProgramError} {post : α → Heap → Prop} (safe : h.Safe) :
    Builds (MonadExcept.throw e) h post := Heap.Grown.refl safe

theorem Builds.throw_bind {e : ProgramError} {rest : α → BuildM β} {post : β → Heap → Prop} (safe : h.Safe) :
    Builds (MonadExcept.throw e >>= rest) h post := Heap.Grown.refl safe

theorem Builds.bind {first : BuildM α} {rest : α → BuildM β} {middle : α → Heap → Prop} {post : β → Heap → Prop}
    (builds : Builds first h middle) (follows : ∀ a s, Heap.Grown h s → middle a s → Builds (rest a) s post) :
    Builds (first >>= rest) h post := by
  unfold Builds at builds
  cases result : first h with
  | error e s =>
      rw [result] at builds
      simpa only [Builds,Bind.bind,EStateM.bind,result] using builds
  | ok a s =>
      rw [result] at builds
      obtain ⟨grown,holds⟩ := builds
      have later := follows a s grown holds
      simp only [Builds,Bind.bind,EStateM.bind,result] at later ⊢
      split at later
      · exact ⟨grown.trans later.1,later.2⟩
      · exact grown.trans later

theorem internText_builds (text : String) (safe : h.Safe) : Builds (internText text) h fun v s => s.Permanent v :=
  Heap.interning_meets text safe

theorem constant_builds (function : String) (data : Json.Data) (safe : h.Safe) :
    Builds (constant function data) h fun v s => s.Permanent v := by
  unfold constant
  split
  · exact .pure safe (Or.inl rfl)
  · exact .pure safe (Or.inl rfl)
  · refine .pure safe (Or.inl ?_)
    split
    · rfl
    · exact Value.number_plain _
  · exact .pure safe (Or.inl (Value.number_plain _))
  · exact internText_builds _ safe
  · exact .throw safe

theorem addParameters_builds (function : String) (parameters : List ParameterText) {a : Assembler} (safe : h.Safe)
    (lasting : a.function.Lasting h) :
    Builds (addParameters function parameters a) h fun b s => b.function.Lasting s := by
  induction parameters generalizing h a with
  | nil => exact .pure safe lasting
  | cons p rest ih =>
      refine (constant_builds function p.default safe).bind fun v s grown default => ?_
      refine (internText_builds p.name grown.safe).bind fun name t grown' named => ih grown'.safe ?_
      have earlier := (lasting.later grown.extension.immortal).later grown'.extension.immortal
      refine ⟨earlier.constants,fun q member => ?_⟩
      rcases Array.mem_push.mp member with before | rfl
      · exact earlier.parameters q before
      · exact ⟨named,default.later grown'.extension.immortal⟩

theorem reserve_lasting {f : Function} (register : Nat) (lasting : f.Lasting h) : (f.reserve register).Lasting h :=
  lasting.same rfl rfl

theorem reserveNamed_lasting {f : Function} (fields : List (Field × Int)) (lasting : f.Lasting h) :
    (fields.foldl (fun g (field,operand) =>
      if field.role = .register then g.reserve (Assembler.clampRegister operand) else g) f).Lasting h := by
  refine List.foldlRecOn (motive := fun g : Function => g.Lasting h) _ _ lasting fun g kept pair _ => ?_
  dsimp only
  split
  · exact reserve_lasting _ kept
  · exact kept

theorem reserveOperands_lasting {f : Function} (op : Opcode) (operands : List Int) (lasting : f.Lasting h) :
    (Assembler.reserveOperands f op operands).Lasting h := by
  have named := reserveNamed_lasting (op.fields.zip operands) lasting
  unfold Assembler.reserveOperands
  simp only
  split
  · split
    · exact reserve_lasting _ named
    · exact named
  · exact named

theorem addInstruction_lasting {function : String} {position : Nat} {a b : Assembler} (instruction : InstructionText)
    (lasting : a.function.Lasting h) (added : addInstruction function position a instruction = .ok b) :
    b.function.Lasting h := by
  cases instruction with
  | word word =>
      cases added
      exact lasting.same rfl rfl
  | named mnemonic operands =>
      simp only [addInstruction] at added
      split at added
      · cases added
      · rename_i op _
        unfold Assembler.emit at added
        cases encoded : a.word op operands with
        | error e =>
            rw [encoded] at added
            cases added
        | ok word =>
            rw [encoded] at added
            cases added
            exact (reserveOperands_lasting op operands lasting).same rfl rfl

theorem addCode_lasting {function : String} {position : Nat} {a b : Assembler} (code : List InstructionText)
    (lasting : a.function.Lasting h) (added : addCode function position code a = .ok b) : b.function.Lasting h := by
  induction code generalizing position a with
  | nil =>
      cases added
      exact lasting
  | cons instruction rest ih =>
      unfold addCode at added
      split at added
      · rename_i next first
        exact ih (addInstruction_lasting instruction lasting first) added
      · cases added

theorem constants_builds (function : String) (pool : List Json.Data) {built : Array Value} (safe : h.Safe)
    (permanent : ∀ v ∈ built, h.Permanent v) :
    Builds (constants function pool built) h fun values s => ∀ v ∈ values, s.Permanent v := by
  induction pool generalizing h built with
  | nil => exact .pure safe permanent
  | cons data rest ih =>
      refine (constant_builds function data safe).bind fun v s grown new => ih grown.safe fun w member => ?_
      rcases Array.mem_push.mp member with before | rfl
      · exact (permanent w before).later grown.extension.immortal
      · exact new

theorem buildFunction_builds (checked : Bool) (f : FunctionText) (safe : h.Safe) :
    Builds (buildFunction checked f) h fun g s => g.Lasting s := by
  have empty : (Assembler.new f.name checked).function.Lasting h := ⟨by simp [Assembler.new],by simp [Assembler.new]⟩
  refine (addParameters_builds f.name f.parameters safe empty).bind fun a s grown declared => ?_
  simp only
  split
  · rename_i b added
    have coded : Builds (Pure.pure b : BuildM Assembler) s fun c t => c.function.Lasting t :=
      .pure grown.safe (addCode_lasting f.code declared added)
    refine coded.bind fun c t grown' lasting => ?_
    refine (constants_builds f.name f.constants grown'.safe (by simp)).bind fun pool u grown'' permanent => ?_
    have later := lasting.later grown''.extension.immortal
    exact .pure grown''.safe (by cases f.registers <;> exact ⟨permanent,later.parameters⟩)
  · exact Builds.throw_bind grown.safe

theorem buildFunctions_builds (checked : Bool) (functions : List FunctionText) {built : Array Function} (safe : h.Safe)
    (lasting : ∀ f ∈ built, f.Lasting h) :
    Builds (buildFunctions checked functions built) h fun result s => ∀ f ∈ result, f.Lasting s := by
  induction functions generalizing h built with
  | nil => exact .pure safe lasting
  | cons f rest ih =>
      refine (buildFunction_builds checked f safe).bind fun g s grown new => ih grown.safe fun other member => ?_
      rcases Array.mem_push.mp member with before | rfl
      · exact (lasting other before).later grown.extension.immortal
      · exact new

theorem build_builds (p : Program) (checked : Bool) (safe : h.Safe) :
    Builds (p.build checked) h fun functions s => ∀ f ∈ functions, f.Lasting s :=
  buildFunctions_builds checked p.functions safe (by simp)

end Program

end RegisterMachine
