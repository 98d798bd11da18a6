import RegisterMachine.Proofs.Machine.Places
import RegisterMachine.Proofs.Machine.Suspension

namespace RegisterMachine.Machine

-- Operations that may leave the place, but have not done so when they fail.
def Halts (operation : MachineM α) : Prop := ∀ m e s, operation m = .error e s → s.place = m.place

-- Operations that do not fail.
def Sure (operation : MachineM α) : Prop := ∀ m, ∃ a s, operation m = .ok a s

namespace Rests

theorem pure (a : α) : Rests (Pure.pure a) := fun _ => rfl

theorem throw (e : Error) : Rests (MonadExcept.throw e : MachineM α) := fun _ => rfl

theorem get_bind {rest : Machine → MachineM β} (follows : ∀ m, Rests (rest m)) : Rests (MonadState.get >>= rest) := fun m => follows m m

theorem bind {first : MachineM α} {rest : α → MachineM β} (rests : Rests first) (follows : ∀ a, Rests (rest a)) :
    Rests (first >>= rest) := by
  intro m
  rcases left_bind first rest m with stopped | ⟨a,_,next⟩
  · rw [stopped]
    exact rests m
  · rw [next]
    exact (follows a _).trans (rests m)

theorem halts {operation : MachineM α} (rests : Rests operation) : Halts operation := by
  intro m e s failed
  have here := rests m
  rw [failed] at here
  exact here

end Rests

namespace Halts

theorem get_bind {rest : Machine → MachineM β} (follows : ∀ m, Halts (rest m)) : Halts (MonadState.get >>= rest) := fun m => follows m m

theorem bind {first : MachineM α} {rest : α → MachineM β} (rests : Rests first) (follows : ∀ a, Halts (rest a)) :
    Halts (first >>= rest) := by
  intro m e s failed
  rcases bind_error failed with stopped | ⟨a,s',done,later⟩
  · exact rests.halts m e s stopped
  · have here := rests m
    rw [done] at here
    exact (follows a s' e s later).trans here

-- After its last check an operation may go anywhere.
theorem sure {first : MachineM α} {rest : α → MachineM β} (halts : Halts first) (follows : ∀ a, Sure (rest a)) :
    Halts (first >>= rest) := by
  intro m e s failed
  rcases bind_error failed with stopped | ⟨a,s',_,later⟩
  · exact halts m e s stopped
  · obtain ⟨b,s'',done⟩ := follows a s'
    rw [done] at later
    cases later

end Halts

theorem Sure.halts {operation : MachineM α} (sure : Sure operation) : Halts operation := by
  intro m e s failed
  obtain ⟨a,s',done⟩ := sure m
  rw [done] at failed
  cases failed

theorem store_rests {operation : MachineM Value} (rests : Rests operation) : Rests (operation >>= setReg r) :=
  rests.bind fun v => (setReg_local r v).rests

theorem reg_rests {rest : Value → MachineM β} (follows : ∀ v, Rests (rest v)) : Rests (reg r >>= rest) := (reg_local r).rests.bind follows

theorem constant_rests (index : Nat) : Rests (constant index) := by
  intro m
  unfold constant
  cases m.functions[m.function]?.bind (·.constants[index]?) <;> rfl

theorem namedRegister_rests (r k : Nat) : Rests (namedRegister r k) := by
  refine (constant_rests k).bind fun name m => ?_
  simp only
  split
  · rfl
  · cases m.lookupVariable name <;> rfl

theorem pending_rests (pending : Machine → Option (Value × Value)) : Rests (modify fun m => m.setPending (pending m)) := fun _ => rfl

theorem runNative_halts (native : Native) (base : Nat) : Halts (runNative native base) := by
  refine Halts.get_bind fun m => ?_
  simp only
  cases native with
  | intrinsic intrinsic => exact (runIntrinsic_local intrinsic _).rests.halts
  | host function =>
      cases function with
      | raise => exact Sure.halts fun m => ⟨_,_,rfl⟩
      | fail => exact Rests.halts fun m => rfl
      | pair => exact (onHeap_local _).rests.halts

theorem passArguments_rests (callee : Function) (count first base : Nat) : Rests (passArguments callee count first base) := by
  intro m
  simp only [passArguments]
  by_cases many : count > callee.parameters.size - first
  · rw [if_pos many]
    rfl
  · rw [if_neg many]
    generalize argumentValues m _ count m.pc = read
    cases read <;> rfl

theorem seat_rests (request : CallRequest) (callee : Function) (binds : Bool) (pending : Option (Value × Value)) :
    Rests (seat request callee binds pending) := by
  refine (ensureWindow_local _ _).rests.bind fun _ => ?_
  have passed : Rests (seatArguments request callee binds) := by
    unfold seatArguments
    split
    · exact passArguments_rests _ _ _ _
    · exact .pure _
  refine passed.bind fun _ => (pending_local none).rests.bind fun _ => ?_
  unfold seatReceiver
  split
  · exact (modifyHeap_local _).rests
  · exact .pure _

theorem launch_halts (request : CallRequest) (callee : Function) (pending : Option (Value × Value)) :
    Halts (launch request callee pending) := by
  unfold launch
  split
  · exact (runNative_halts _ request.base).sure fun result m => ⟨_,_,rfl⟩
  · exact Sure.halts fun m => ⟨_,_,rfl⟩

theorem enter_halts (request : CallRequest) : Halts (enter request) := by
  rw [enter_seats]
  refine Halts.get_bind fun m => ?_
  split
  · exact (Rests.throw _).halts
  · simp only
    split
    · exact Rests.halts fun m => rfl
    · exact Halts.bind (seat_rests _ _ _ _) fun _ => launch_halts _ _ _

theorem callRef_halts (f : FuncRef) (base destination : Nat) : Halts (callRef f base destination) := Halts.get_bind fun _ => enter_halts _

theorem callAbove_halts (f : FuncRef) (destination : Nat) : Halts (callAbove f destination) := Halts.get_bind fun _ => callRef_halts _ _ _

theorem argumentBlock_halts (count : Int) : Halts (argumentBlock count) := by
  unfold argumentBlock
  simp only
  split
  · exact Rests.halts fun m => rfl
  · refine Halts.get_bind fun m => ?_
    split
    · exact (Rests.throw _).halts
    · split
      · exact Rests.halts fun m => rfl
      · split
        · exact (Rests.throw _).halts
        · exact enter_halts _

theorem setFrameLocals_rests (index : Nat) (v : Value) : Rests (modify (·.setFrameLocals index v)) := by
  intro m
  show (m.setFrameLocals index v).place = m.place
  unfold setFrameLocals
  split <;> rfl

theorem frameLocals_rests (index : Nat) : Rests (frameLocals index) := by
  refine Rests.get_bind fun m => ?_
  split
  · exact .pure _
  · split
    · exact .pure _
    · exact (onHeap_local _).rests.bind fun map => (setFrameLocals_rests index map).bind fun _ => .pure _

theorem currentLocals_rests : Rests currentLocals := Rests.get_bind fun _ => frameLocals_rests _

theorem outerVariables_rests : Rests outerVariables := by
  refine Rests.get_bind fun m => ?_
  split
  · split
    · exact .pure _
    · exact frameLocals_rests 0
  · exact frameLocals_rests 0

theorem nameRegister_rests (r : Nat) (name : Value) : Rests (nameRegister r name) := by
  refine (setRegName_local r name).rests.bind fun _ => Rests.get_bind fun m => ?_
  split
  · split
    · exact (onHeap_local _).rests
    · exact .pure _
  · exact .pure _

theorem findMethod_rests (container key : Value) : Rests (findMethod container key) := by
  refine Rests.get_bind fun m => ?_
  simp only
  split
  · exact (pending_rests fun _ => _).bind fun _ => .pure _
  · split
    · exact (pending_rests fun _ => _).bind fun _ => .pure _
    · split
      · exact .throw _
      · exact (readHeap_local _).rests
      · exact (readHeap_local _).rests
      · exact (readHeap_local _).rests
      · exact .throw _

theorem listed_rests {locals : MachineM Value} (rests : Rests locals) :
    Rests (do setReg r (← locals); setRegName r .null) :=
  rests.bind fun v => (setReg_local r v).rests.bind fun _ => (setRegName_local r .null).rests

theorem jump_halts (offset : Int) : Halts (jump offset) := by
  refine Halts.get_bind fun m => ?_
  simp only
  split
  · exact (Rests.throw _).halts
  · exact Sure.halts fun m => ⟨_,_,rfl⟩

theorem jumpIf_halts (decision : Bool) (offset : Int) : Halts (if decision then jump offset else pure ()) := by
  cases decision with
  | true => exact jump_halts offset
  | false => exact (Rests.pure _).halts

theorem skipIf_halts (decision : Bool) : Halts (if decision then skipNext else pure ()) :=
  Sure.halts fun m => by cases decision <;> exact ⟨_,_,rfl⟩

theorem decides_rests (comparison : Comparison) (leftReg rightReg : Nat) (leftImm rightImm : Int) :
    Rests (decides comparison leftReg rightReg leftImm rightImm) := by
  unfold decides
  cases comparison.sides <;> exact fun m => rfl

theorem binary_rests (operation : BinaryOperation) (x y : Value) : Rests (binary operation x y) := by
  cases operation with
  | add | mult | div => exact (onHeap_local _).rests
  | sub | mod | and | or => exact fun m => rfl

theorem setIndexed_rests (container index v : Value) : Rests (setIndexed container index v) := by
  unfold setIndexed
  split
  · exact (onHeap_local _).rests
  · exact (onHeap_local _).rests
  · exact Rests.get_bind fun m => .throw _

theorem iterated_rests (container : Value) (index : Int32) : Rests (iterated container index) := by
  unfold iterated
  split
  · exact (readHeap_local _).rests
  · exact (readHeap_local _).rests
  · exact (readHeap_local _).rests
  · exact (onHeap_local _).rests
  · exact .pure _

theorem perform_halts (op : Opcode) (word : Word) : Halts (perform op word) := by
  cases op with
  | noop | ret => exact (Rests.pure _).halts
  | copy => exact (reg_rests fun v => (setReg_local _ v).rests).halts
  | loadInt | loadNull => exact (setReg_local _ _).rests.halts
  | loadConstant => exact (store_rests (constant_rests _)).halts
  | loadVariable => exact (store_rests (namedRegister_rests _ _)).halts
  | loadCall =>
      refine Halts.bind (namedRegister_rests _ _) fun v => Halts.get_bind fun m => ?_
      split
      · exact callAbove_halts _ _
      · exact (setReg_local _ _).rests.halts
  | funcRef => exact (currentLocals_rests.bind fun locals => store_rests (onHeap_local (Heap.newFuncRef word.bc locals)).rests).halts
  | assign =>
      refine Rests.halts (reg_rests fun v => (setReg_local _ v).rests.bind fun _ => ?_)
      exact (constant_rests _).bind fun name => nameRegister_rests _ name
  | name => exact ((constant_rests _).bind fun name => nameRegister_rests _ name).halts
  | binary operation => exact (reg_rests fun x => reg_rests fun y => store_rests (binary_rests operation x y)).halts
  | not => exact (reg_rests fun v => Rests.get_bind fun m => (setReg_local _ _).rests).halts
  | list | map => exact (store_rests (onHeap_local _).rests).halts
  | push => exact (reg_rests fun v => reg_rests fun item => (onHeap_local (Heap.listPush v item)).rests).halts
  | index => exact (reg_rests fun container => reg_rests fun index => store_rests (readHeap_local (indexValue · container index)).rests).halts
  | setIndex => exact (reg_rests fun container => reg_rests fun index => reg_rests fun v => setIndexed_rests container index v).halts
  | slice => exact (reg_rests fun _ => reg_rests fun _ => reg_rests fun _ => store_rests (onHeap_local _).rests).halts
  | locals => exact (listed_rests currentLocals_rests).halts
  | outer => exact (listed_rests outerVariables_rests).halts
  | globals => exact (listed_rests (frameLocals_rests 0)).halts
  | jump => exact jump_halts _
  | test comparison => exact ((decides_rests comparison _ _ _ _).bind fun decision => (setReg_local _ (.ofBool decision)).rests).halts
  | branchTrue | branchFalse =>
      exact Halts.bind (reg_local word.a).rests fun v => Halts.get_bind fun m => jumpIf_halts _ _
  | branch comparison => exact Halts.bind (decides_rests comparison _ _ _ _) fun decision => jumpIf_halts decision _
  | skip comparison => exact Halts.bind (decides_rests comparison _ _ _ _) fun decision => skipIf_halts (!decision)
  | next =>
      refine Halts.bind (reg_local _).rests fun v => Halts.bind (setReg_local _ _).rests fun _ => ?_
      refine Halts.bind (reg_local _).rests fun container => Halts.get_bind fun m => ?_
      simp only
      split
      · exact Sure.halts fun m => ⟨_,_,rfl⟩
      · exact (Rests.pure _).halts
  | argumentBlock => exact argumentBlock_halts _
  | argument | argumentInt => exact (Rests.throw _).halts
  | callFunction => exact Halts.get_bind fun m => enter_halts _
  | callNamed =>
      refine Halts.bind (constant_rests _) fun name => Halts.get_bind fun m => ?_
      simp only
      split
      · exact (Rests.throw _).halts
      · exact enter_halts _
  | call =>
      refine Halts.bind (reg_local _).rests fun target => Halts.get_bind fun m => ?_
      split
      · exact callRef_halts _ _ _
      · exact ((pending_rests fun _ => none).bind fun _ => (setReg_local _ target).rests).halts
  | new => exact (reg_rests fun parent => store_rests (onHeap_local (newChild parent)).rests).halts
  | isa => exact (reg_rests fun v => reg_rests fun target => Rests.get_bind fun m => (setReg_local _ _).rests).halts
  | findMethod => exact (reg_rests fun container => reg_rests fun key => store_rests (findMethod_rests container key)).halts
  | setSelf => exact (reg_rests fun receiver => pending_rests fun m => some (receiver,(m.pending.map Prod.snd).getD .null)).halts
  | callIfRef =>
      refine Halts.bind (reg_local _).rests fun v => Halts.get_bind fun m => ?_
      split
      · exact callAbove_halts _ _
      · exact (pending_rests fun _ => none).halts
  | iterGet => exact (reg_rests fun container => reg_rests fun index => store_rests (iterated_rests container index.asInt)).halts

-- The frame is popped before its variables are gathered; the place is the callee's until then.
theorem leave_halts : Halts leave := by
  rw [leave_parts]
  refine Halts.get_bind fun m => ?_
  simp only
  split
  · exact (Rests.pure _).halts
  · split
    · exact (Rests.pure _).halts
    · rename_i frame _
      have resumes : Sure (resume frame (m.heap.registerValue m.base)) := by
        intro s
        unfold resume
        cases frame.call.destination <;> exact ⟨_,_,rfl⟩
      refine Halts.bind (fun _ => rfl) fun _ => ?_
      split
      · exact ((onHeap_local _).rests.halts).sure fun _ => resumes
      · exact resumes.halts

theorem dispatch_halts (word : Word) : Halts (dispatch word) := by
  unfold dispatch
  split
  · exact (Rests.throw _).halts
  · exact leave_halts.sure fun result => by cases result <;> exact fun m => ⟨_,_,rfl⟩
  · exact (perform_halts _ word).sure fun _ m => ⟨_,_,rfl⟩

theorem step_halts (next : m.nextWord? = some word) (failed : step m = .error e m') :
    m'.pc = m.pc + 1 ∧ m'.function = m.function ∧ m'.functions = m.functions ∧ m'.errors = m.errors := by
  obtain ⟨log,dispatched,_⟩ := step_dispatches next
  have here := dispatch_halts word _ e m' (dispatched.symm.trans failed)
  exact ⟨congrArg Place.pc here,congrArg Place.function here,congrArg Place.functions here,congrArg Place.errors here⟩

-- A run that comes to a failing instruction ends there, whatever is left of its budget.
theorem run_fails {start m : Machine} (started : start.isRunning = true) (before : execute n { start with state := .running } = .ok none m)
    (running : m.state = .running) (failed : step m = .error e m') (enough : n < budget) : start.run budget = (.null,m'.raise e) := by
  obtain ⟨rest,rfl⟩ : ∃ rest, budget = n + (rest + 1) := ⟨budget - n - 1,by omega⟩
  have ends : execute (rest + 1) m = .error e m' := by
    simp only [execute,running,ne_eq,not_true_eq_false,if_false,failed]
  rw [run_concludes _ started,execute_add,before]
  simp only [ends]
  rfl

-- From any machine that is running: when it has executed some instructions and the next word, of whatever
-- opcode, is fetched and fails, then the fault has the error, the function and the position of that word, one
-- entry is added to the errors, and nothing is executed after it, in this run or later.
theorem fault_located {start m m' : Machine} {f : Function} (started : start.isRunning = true)
    (before : execute n { start with state := .running } = .ok none m) (running : m.state = .running)
    (current : m.functions[m.function]? = some f) (fetched : f.code[m.pc]? = some word) (failed : step m = .error e m') :
    ∃ faulted : Machine, faulted.state = .faulted ∧ faulted.fault = some { error := e,function := f.name,pc := m.pc } ∧
      faulted.errors = m.errors.push s!"Runtime Error: {e.message} [{f.name} line {m.pc}]" ∧
      (∀ budget, n < budget → start.run budget = (.null,faulted)) ∧ ∀ budget, faulted.run budget = (.null,faulted) := by
  have next : m.nextWord? = some word := by rw [nextWord?,current,Option.bind_some,fetched]
  obtain ⟨pc,function,functions,errors⟩ := step_halts next failed
  have name : m'.functionName m'.function = f.name := by rw [functionName,functions,function,current]
  have position : m'.pc - 1 = m.pc := by rw [pc,Nat.add_sub_cancel]
  refine ⟨m'.raise e,rfl,?_,?_,fun budget enough => run_fails started before running failed enough,fun budget => run_idle budget rfl⟩
  · simp only [raise,name,position]
  · simp only [raise,addLog,name,position,errors]

-- A jump leads to an argument block whose second word is no argument, in a function that was called.
def garbledBlock : Program where
  functions := [
    { name := "@main",registers := some 4,parameters := [],constants := []
      code := [.named "FUNCREF_iA_iBC" [1,1],.named "CALL_rA_rB_rC" [2,4,1],.named "RETURN" []] },
    { name := "inner",registers := some 4,parameters := [⟨"a",.null⟩,⟨"b",.null⟩],constants := []
      code := [.named "JUMP_iABC" [1],.named "NOOP" [],.named "FUNCREF_iA_iBC" [3,1],.named "ARGBLK_iABC" [2],.named "ARG_rA" [1],
        .named "NOOP" [],.named "CALL_rA_rB_rC" [0,4,3],.named "RETURN" []] }]

theorem fault_located_garbled : ∃ m faulted : Machine, m.Reachable ∧ m.errors = #[] ∧ m.run unlimited = (.null,faulted) ∧
    faulted.fault = some { error := .sequencing "Expected ARG opcode in ARGBLK",function := "inner",pc := 3 } ∧
    faulted.errors = #["Runtime Error: Expected ARG opcode in ARGBLK [inner line 3]"] := by
  obtain ⟨m,reachable,whole⟩ : ∃ m, m.Reachable ∧ m = Machine.load (.new { stackSlots := 16 }) garbledBlock true :=
    ⟨_,.load garbledBlock true (.new { stackSlots := 16 }),rfl⟩
  obtain ⟨reached,reaches⟩ : ∃ reached, reached = result? (execute 4 { m with state := .running }) := ⟨_,rfl⟩
  have facts : (m.isRunning = true ∧ m.errors = #[]) ∧
      reached.map (fun out => (out.1,out.2.state,out.2.pc,out.2.errors)) = some (none,.running,3,#[]) ∧
      reached.map (fun out => (out.2.functions[out.2.function]?.map (·.name),out.2.nextWord?.isSome,failure? (step out.2))) =
        some (some "inner",true,some (.sequencing "Expected ARG opcode in ARGBLK")) := by
    rw [reaches,whole]
    decide +kernel
  obtain ⟨⟨started,clean⟩,place,error⟩ := facts
  obtain ⟨⟨result,s⟩,there,place⟩ := Option.map_eq_some_iff.mp place
  simp only [Prod.mk.injEq] at place
  obtain ⟨rfl,running,pc,errors⟩ := place
  have before := result?_some (reaches.symm.trans there)
  rw [there,Option.map_some] at error
  simp only [Option.some.injEq,Prod.mk.injEq] at error
  obtain ⟨named,present,error⟩ := error
  obtain ⟨f,current,name⟩ := Option.map_eq_some_iff.mp named
  obtain ⟨word,next⟩ := Option.isSome_iff_exists.mp present
  rw [nextWord?,current,Option.bind_some] at next
  obtain ⟨s',failed⟩ := failure?_some error
  obtain ⟨faulted,_,fault,entries,run,_⟩ := fault_located started before running current next failed
  rw [name,pc] at fault entries
  rw [errors] at entries
  exact ⟨m,faulted,reachable,clean,run unlimited (by decide),fault,entries⟩

end RegisterMachine.Machine
