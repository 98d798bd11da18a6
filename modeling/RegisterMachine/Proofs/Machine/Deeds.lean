import RegisterMachine.Proofs.Heap.MethodBalance
import RegisterMachine.Proofs.Machine.Bodies

namespace RegisterMachine.Machine

inductive Deeds (body : Machine → Machine → Prop) : Machine → Machine → Prop where
  | refl : Deeds body m m
  | trans : Deeds body m m' → Deeds body m' m'' → Deeds body m m''
  | heap {m : Machine} : Heap.Tended True m.heap h → Deeds body m { m with heap := h }
  | tools {m : Machine} {pc : Nat} {console : Array ConsoleEvent} {inputs : List String} {log : Array LogLine} :
      Deeds body m { m with pc,console,inputs,log }
  | pending (pending : Option (Value × Value)) : Deeds body m (m.setPending pending)
  | locals {m : Machine} {frame : Frame} : m.localsMap frame m.heap = .ok v h → Deeds body m (setFrameLocals { m with heap := h } i v)
  | push {function base : Nat} {call : CallInfo} {outer : Value} {waits : Option (Value × Value)} :
      Deeds body m (m.pushFrame { function,base,call } outer waits)
  | pop {m : Machine} {frame : Frame} {pc base function : Nat} : m.topFrame? = some frame →
      Deeds body m { m with frames := m.frames.pop,heap := frame.release m.heap,pc,base,function }
  | lose {m : Machine} {frame : Frame} : m.topFrame? = some frame → frame.locals.value = .map r → m.heap.isLive r = false →
      Deeds body m { m with frames := m.frames.pop }
  | raise (e : Error) : Deeds body m (m.raise e)
  | native : body m m' → Deeds body m m'

def Does (body : Machine → Machine → Prop) (operation : MachineM α) : Prop := ∀ m, Deeds body m (left (operation m))

namespace Does

variable {body : Machine → Machine → Prop}

theorem pure (a : α) : Does body (Pure.pure a : MachineM α) := fun _ => .refl

theorem throw (e : Error) : Does body (MonadExcept.throw e : MachineM α) := fun _ => .refl

theorem get_bind {rest : Machine → MachineM β} (follows : ∀ m, Does body (rest m)) : Does body (MonadState.get >>= rest) :=
  fun m => follows m m

theorem bind {first : MachineM α} {rest : α → MachineM β} (does : Does body first) (follows : ∀ a, Does body (rest a)) :
    Does body (first >>= rest) := by
  intro m
  have start := does m
  rcases left_bind first rest m with stopped | ⟨a,_,next⟩
  · rw [stopped]
    exact start
  · rw [next]
    exact start.trans (follows a _)

end Does

variable {body : Machine → Machine → Prop} {m : Machine}

theorem onHeap_does {operation : HeapM α} (tends : Heap.Tends True operation) : Does body (onHeap operation) := by
  intro m
  have tended := tends m.heap
  unfold Heap.after at tended
  unfold onHeap
  cases result : operation m.heap with
  | ok a h =>
      simp only [result] at tended ⊢
      exact .heap tended
  | error e h =>
      simp only [result] at tended ⊢
      exact .heap tended

theorem modifyHeap_does {change : Heap → Heap} (tended : ∀ h, Heap.Tended True h (change h)) : Does body (modifyHeap change) :=
  fun m => .heap (tended m.heap)

theorem readHeap_does (read : Heap → Except Error α) : Does body (readHeap read) := by
  intro m
  unfold readHeap
  cases read m.heap with
  | ok a => exact .refl
  | error e => exact .refl

theorem registers_tended (h : Heap) (registers : Array Register) : Heap.Tended level h { h with registers } :=
  (Heap.registers_abides h registers).tended (Heap.Step.apart (Heap.registers_apart h registers)).intact

theorem reg_does (r : Nat) : Does body (reg r) := fun _ => .refl

theorem setReg_does (r : Nat) (v : Value) : Does body (setReg r v) := fun m => .heap (registers_tended m.heap _)

theorem setRegName_does (r : Nat) (name : Value) : Does body (setRegName r name) := fun m => .heap (registers_tended m.heap _)

theorem store_does {operation : MachineM Value} (does : Does body operation) : Does body (operation >>= setReg r) :=
  does.bind fun v => setReg_does r v

theorem pending_does (pending : Machine → Option (Value × Value)) : Does body (modify fun m => m.setPending (pending m)) :=
  fun m => .pending (pending m)

theorem constant_does (index : Nat) : Does body (constant index) := by
  intro m
  unfold constant
  cases m.functions[m.function]?.bind (·.constants[index]?) with
  | none => exact .refl
  | some v => exact .refl

theorem namedRegister_does (r k : Nat) : Does body (namedRegister r k) := by
  apply (constant_does k).bind
  intro name m
  simp only
  split
  · exact .refl
  · cases m.lookupVariable name with
    | ok v => exact .refl
    | error e => exact .refl

theorem ensureWindow_does (base size : Nat) : Does body (ensureWindow base size) := by
  intro m
  unfold ensureWindow
  by_cases beyond : base + size > m.heap.registers.size
  · simp only [if_pos beyond]
    exact .refl
  · simp only [if_neg beyond]
    exact .refl

theorem runIntrinsic_does (intrinsic : Intrinsic) (arg : Nat → Value) : Does body (runIntrinsic intrinsic arg) := by
  cases intrinsic with
  | print => exact fun m => .tools
  | input =>
      apply Does.get_bind
      intro m
      have asked : Does body (modifyGet (·.askLine (if (arg 0).isNull then "" else m.heap.display (arg 0)))) := fun m => .tools
      exact asked.bind fun line => onHeap_does (Heap.newString_tends line)
  | val | isFrozen | hasIndex | number | string | list | map | funcRef => exact fun m => .refl
  | str => exact onHeap_does (Heap.toStringValue_tends _)
  | len =>
      apply Does.get_bind
      intro m
      simp only
      split
      · exact .pure _
      · exact .throw _
  | remove => exact onHeap_does (Heap.removeFrom_tends _ _)
  | freeze => exact (modifyHeap_does fun h => h.freeze_tended _).bind fun _ => .pure _
  | frozenCopy => exact onHeap_does (Heap.frozenCopy_tends _)
  | push => exact onHeap_does (Heap.pushOnto_tends _ _)
  | pop => exact onHeap_does (Heap.popFrom_tends _)
  | pull => exact onHeap_does (Heap.pullFrom_tends _)
  | insert => exact onHeap_does (Heap.insertInto_tends _ _ _)
  | indexOf => exact readHeap_does (·.indexIn (arg 0) (arg 1))
  | indexes => exact onHeap_does (Heap.indexesOf_tends _)
  | values => exact onHeap_does (Heap.valuesOf_tends _)
  | sort =>
      simp only [runIntrinsic]
      split
      · exact (onHeap_does (Heap.listSort_tends _ _)).bind fun _ => .pure _
      · exact .pure _
  | join => exact onHeap_does (Heap.joinItems_tends _ _)
  | upper | lower | trim =>
      simp only [runIntrinsic]
      split
      · exact onHeap_does (Heap.mapText_tends _ _)
      · exact .pure _
  | split => exact onHeap_does (Heap.splitAt_tends _ _)
  | replace => exact onHeap_does (Heap.replaceIn_tends _ _ _)
  | slice => exact onHeap_does (Heap.sliceOf_tends _ _ _ _)

theorem runNative_does (native : Native) (base : Nat) : Does body (runNative native base) := by
  apply Does.get_bind
  intro m
  simp only
  cases native with
  | intrinsic intrinsic => exact runIntrinsic_does intrinsic _
  | host function =>
      cases function with
      | raise => exact fun m => .raise _
      | fail => exact fun m => .refl
      | pair => exact onHeap_does (Heap.newListOf_tends _ _)

theorem own_does (callee : Function) (base : Nat) : Does body (own callee base) := by
  unfold own
  split
  · exact runNative_does _ _
  · exact .pure _

theorem assignAll_tended (steps : List α) (register : α → Nat) (name value : α → Value) (h : Heap) :
    Heap.Tended level h (steps.foldl (fun h a => h.assignRegister (register a) (name a) (value a)) h) := by
  induction steps generalizing h with
  | nil => exact .refl h
  | cons a rest ih => exact (registers_tended h _).trans (ih _)

theorem fillParameters_tended (callee : Function) (base p : Nat) (values : List Value) (h : Heap) :
    Heap.Tended level h (fillParameters callee base p values h) := by
  induction values generalizing p h with
  | nil => exact .refl h
  | cons v rest ih => exact (registers_tended h _).trans (ih _ _)

theorem fillDefaults_tended (callee : Function) (filled base : Nat) (h : Heap) : Heap.Tended level h (fillDefaults callee filled base h) :=
  assignAll_tended _ (base + 1 + ·) (fun p => (callee.parameters.getD p default).name)
    (fun p => (callee.parameters.getD p default).default) h

theorem clearWindow_tended (callee : Function) (base : Nat) (h : Heap) : Heap.Tended level h (clearWindow callee base h) :=
  (registers_tended h _).trans (assignAll_tended _ (base + ·) (fun _ => .null) (fun _ => .null) _)

theorem passArguments_does (callee : Function) (count first base : Nat) : Does body (passArguments callee count first base) := by
  intro m
  simp only [passArguments]
  by_cases many : count > callee.parameters.size - first
  · rw [if_pos many]
    exact .refl
  · rw [if_neg many]
    generalize argumentValues m _ count m.pc = read
    cases read with
    | error e => exact .refl
    | ok values =>
        refine .heap ?_
        exact ((fillParameters_tended callee base first values m.heap).trans (fillDefaults_tended callee _ base _)).trans
          (clearWindow_tended callee base _)

theorem seat_does (request : CallRequest) (callee : Function) (binds : Bool) (pending : Option (Value × Value)) :
    Does body (seat request callee binds pending) := by
  refine (ensureWindow_does _ _).bind fun _ => ?_
  have passed : Does body (seatArguments request callee binds) := by
    unfold seatArguments
    split
    · exact passArguments_does _ _ _ _
    · exact .pure _
  refine passed.bind fun _ => (pending_does fun _ => none).bind fun _ => ?_
  unfold seatReceiver
  split
  · exact modifyHeap_does fun h => registers_tended h _
  · exact .pure _

section

variable {bodies : Bodies} (natives : ∀ callee base, Does body (bodies callee base))
include natives

theorem launchWith_does (request : CallRequest) (callee : Function) (pending : Option (Value × Value)) :
    Does body (launchWith bodies request callee pending) := by
  unfold launchWith
  cases native : callee.native with
  | some known =>
      simp only [Option.isSome_some,if_true]
      refine (natives callee request.base).bind fun result => Does.get_bind fun m => ?_
      refine (modifyHeap_does fun h => registers_tended h _).bind fun _ => ?_
      exact fun m => .tools
  | none =>
      simp only [Option.isSome_none,Bool.false_eq_true,if_false,launch,native]
      exact fun m => .push

theorem enterWith_does (request : CallRequest) : Does body (enterWith bodies request) := by
  apply Does.get_bind
  intro m
  split
  · exact .throw _
  · simp only
    split
    · exact fun m => .refl
    · exact (seat_does _ _ _ _).bind fun _ => launchWith_does natives _ _ _

theorem callRefWith_does (f : FuncRef) (base destination : Nat) : Does body (callRefWith bodies f base destination) :=
  Does.get_bind fun _ => enterWith_does natives _

theorem callAboveWith_does (f : FuncRef) (destination : Nat) : Does body (callAboveWith bodies f destination) :=
  Does.get_bind fun _ => callRefWith_does natives _ _ _

theorem argumentBlockWith_does (count : Int) : Does body (argumentBlockWith bodies count) := by
  unfold argumentBlockWith
  simp only
  split
  · exact fun m => .refl
  · apply Does.get_bind
    intro m
    split
    · exact .throw _
    · split
      · exact fun m => .refl
      · split
        · exact .throw _
        · exact enterWith_does natives _

end

theorem localsMap_tends (m : Machine) (frame : Frame) : Heap.Tends level (m.localsMap frame) := by
  unfold localsMap
  split
  · exact Heap.newMap_tends 4
  · exact Heap.newAliasMap_tends _ _

theorem localsMap_tended {frame : Frame} (made : m.localsMap frame m.heap = .ok v h) : Heap.Tended True m.heap h := by
  have tended : Heap.Tended True m.heap (Heap.after (m.localsMap frame) m.heap) := m.localsMap_tends frame m.heap
  rwa [Heap.after,made] at tended

theorem frameLocals_does (index : Nat) : Does body (frameLocals index) := by
  intro m
  simp only [frameLocals,bind,EStateM.bind,get_ok]
  cases m.frames[index]? with
  | none => exact .refl
  | some frame =>
      simp only
      split
      · exact .refl
      · have tended : Heap.Tended True m.heap (Heap.after (m.localsMap frame) m.heap) := m.localsMap_tends frame m.heap
        unfold Heap.after at tended
        simp only [onHeap,EStateM.bind]
        cases made : m.localsMap frame m.heap with
        | ok v h =>
            simp only [localsMap] at made
            simp only [made]
            exact .locals (m := m) (show m.localsMap frame m.heap = .ok v h by simpa only [localsMap] using made)
        | error e h =>
            rw [made] at tended
            simp only [localsMap] at made
            simp only [made]
            exact .heap tended

theorem currentLocals_does : Does body currentLocals := Does.get_bind fun _ => frameLocals_does _

theorem outerVariables_does : Does body outerVariables := by
  apply Does.get_bind
  intro m
  split
  · split
    · exact .pure _
    · exact frameLocals_does 0
  · exact frameLocals_does 0

theorem nameRegister_does (r : Nat) (name : Value) : Does body (nameRegister r name) := by
  refine (setRegName_does r name).bind fun _ => Does.get_bind fun m => ?_
  split
  · split
    · exact onHeap_does (Heap.bindRegister_tends _ _ _)
    · exact .pure _
  · exact .pure _

theorem findMethod_does (container key : Value) : Does body (findMethod container key) := by
  apply Does.get_bind
  intro m
  simp only
  split
  · exact (pending_does fun _ => _).bind fun _ => .pure _
  · split
    · exact (pending_does fun _ => _).bind fun _ => .pure _
    · split
      · exact .throw _
      · exact readHeap_does _
      · exact readHeap_does _
      · exact readHeap_does _
      · exact .throw _

theorem resume_does {frame : Frame} {h : Heap} (result : Value) (top : m.topFrame? = some frame) :
    Deeds body { m with heap := h } (left (resume frame result { m with frames := m.frames.pop,heap := h })) := by
  have popped : Deeds body { m with heap := h } { m with
      frames := m.frames.pop
      heap := frame.release h
      pc := frame.call.returnPc
      base := frame.call.returnBase
      function := frame.call.returnFunction } := .pop (m := { m with heap := h }) top
  unfold resume
  cases frame.call.destination with
  | none => exact popped
  | some d => exact popped.trans (@setReg_does body d result _)

theorem gather_lost {h h' : Heap} (failed : Heap.gather (.map r) h = .error e h') : h' = h ∧ h.isLive r = false := by
  simp only [Heap.gather,Heap.mapHandle] at failed
  cases live : h.isLive r with
  | false =>
      simp only [live] at failed
      cases failed
      exact ⟨rfl,rfl⟩
  | true =>
      simp only [live,if_true] at failed
      split at failed
      · cases failed
      · cases failed

theorem leave_does : Does body leave := by
  intro m
  rw [leave_parts]
  simp only [bind,EStateM.bind,get_ok]
  split
  · exact .refl
  · cases top : m.topFrame? with
    | none => exact .refl
    | some frame =>
        simp only [EStateM.bind,modify_ok]
        cases map : frame.locals.value with
        | map r =>
            have tended : Heap.Tended True m.heap (Heap.after (Heap.gather (.map r)) m.heap) := Heap.gather_tends (.map r) m.heap
            unfold Heap.after at tended
            simp only [Value.isMap,↓reduceIte,EStateM.bind,onHeap]
            cases gathered : Heap.gather (.map r) m.heap with
            | ok _ h =>
                rw [gathered] at tended
                exact (Deeds.heap tended).trans (resume_does _ top)
            | error e h =>
                obtain ⟨rfl,lost⟩ := gather_lost gathered
                exact .lose top map lost
        | null | int | double | short | str | list | funcRef => exact resume_does (h := m.heap) _ top

theorem jump_does (offset : Int) : Does body (jump offset) := by
  intro m
  simp only [jump,bind,EStateM.bind,get_ok]
  split
  · exact .refl
  · exact .tools

theorem skipNext_does : Does body skipNext := fun _ => .tools

theorem decides_does (comparison : Comparison) (leftReg rightReg : Nat) (leftImm rightImm : Int) :
    Does body (decides comparison leftReg rightReg leftImm rightImm) := by
  intro m
  unfold decides
  cases comparison.sides <;> exact .refl

theorem binary_does (operation : BinaryOperation) (x y : Value) : Does body (binary operation x y) := by
  cases operation with
  | add => exact onHeap_does (Heap.add_tends _ _)
  | mult => exact onHeap_does (Heap.mult_tends _ _)
  | div => exact onHeap_does (Heap.div_tends _ _)
  | sub | mod | and | or => exact fun m => .refl

theorem setIndexed_does (container index v : Value) : Does body (setIndexed container index v) := by
  unfold setIndexed
  split
  · exact onHeap_does (Heap.listSet_tends _ _ _)
  · exact onHeap_does (Heap.mapSet_tends _ _ _)
  · exact Does.get_bind fun m => .throw _

theorem iterated_does (container : Value) (index : Int32) : Does body (iterated container index) := by
  unfold iterated
  split
  · exact readHeap_does _
  · exact readHeap_does _
  · exact readHeap_does _
  · exact onHeap_does (Heap.entryPair_tends _ _)
  · exact .pure _

theorem performWith_does {bodies : Bodies} (natives : ∀ callee base, Does body (bodies callee base)) (op : Opcode) (word : Word) :
    Does body (performWith bodies op word) := by
  have read : ∀ r, Does body (reg r) := reg_does
  cases op with
  | noop | ret => exact .pure _
  | copy => exact (read _).bind fun _ => setReg_does _ _
  | loadInt | loadNull => exact setReg_does _ _
  | loadConstant => exact store_does (constant_does _)
  | loadVariable => exact store_does (namedRegister_does _ _)
  | loadCall =>
      refine (namedRegister_does _ _).bind fun v => Does.get_bind fun m => ?_
      split
      · exact callAboveWith_does natives _ _
      · exact setReg_does _ _
  | funcRef => exact currentLocals_does.bind fun _ => store_does (onHeap_does (Heap.newFuncRef_tends _ _))
  | assign =>
      exact (read _).bind fun _ => (setReg_does _ _).bind fun _ => (constant_does _).bind fun name => nameRegister_does _ _
  | name => exact (constant_does _).bind fun name => nameRegister_does _ _
  | binary operation => exact (read _).bind fun _ => (read _).bind fun _ => store_does (binary_does _ _ _)
  | not => exact (read _).bind fun _ => Does.get_bind fun m => setReg_does _ _
  | list => exact store_does (onHeap_does (Heap.newListOf_tends _ _))
  | map => exact store_does (onHeap_does (Heap.newMap_tends _))
  | push => exact (read _).bind fun _ => (read _).bind fun _ => onHeap_does (Heap.updateList_tends _ _)
  | index => exact (read _).bind fun _ => (read _).bind fun _ => store_does (readHeap_does _)
  | setIndex => exact (read _).bind fun _ => (read _).bind fun _ => (read _).bind fun _ => setIndexed_does _ _ _
  | slice =>
      exact (read _).bind fun _ => (read _).bind fun _ => (read _).bind fun _ => store_does (onHeap_does (Heap.sliceOf_tends _ _ _ _))
  | locals => exact currentLocals_does.bind fun _ => (setReg_does _ _).bind fun _ => setRegName_does _ _
  | outer => exact outerVariables_does.bind fun _ => (setReg_does _ _).bind fun _ => setRegName_does _ _
  | globals => exact (frameLocals_does 0).bind fun _ => (setReg_does _ _).bind fun _ => setRegName_does _ _
  | jump => exact jump_does _
  | test comparison => exact (decides_does _ _ _ _ _).bind fun _ => setReg_does _ _
  | branchTrue =>
      refine (read _).bind fun _ => Does.get_bind fun m => ?_
      split
      · exact jump_does _
      · exact .pure _
  | branchFalse =>
      refine (read _).bind fun _ => Does.get_bind fun m => ?_
      split
      · exact jump_does _
      · exact .pure _
  | branch comparison =>
      refine (decides_does _ _ _ _ _).bind fun _ => ?_
      split
      · exact jump_does _
      · exact .pure _
  | skip comparison =>
      refine (decides_does _ _ _ _ _).bind fun _ => ?_
      split
      · exact skipNext_does
      · exact .pure _
  | next =>
      refine (read _).bind fun _ => (setReg_does _ _).bind fun _ => (read _).bind fun _ => Does.get_bind fun m => ?_
      simp only
      split
      · exact skipNext_does
      · exact .pure _
  | argumentBlock => exact argumentBlockWith_does natives _
  | argument | argumentInt => exact .throw _
  | callFunction => exact Does.get_bind fun m => enterWith_does natives _
  | callNamed =>
      refine (constant_does _).bind fun name => Does.get_bind fun m => ?_
      simp only
      split
      · exact .throw _
      · exact enterWith_does natives _
  | call =>
      refine (read _).bind fun _ => Does.get_bind fun m => ?_
      split
      · exact callRefWith_does natives _ _ _
      · exact (pending_does fun _ => none).bind fun _ => setReg_does _ _
  | new => exact (read _).bind fun _ => store_does (onHeap_does (Heap.newChild_tends _))
  | isa => exact (read _).bind fun _ => (read _).bind fun _ => Does.get_bind fun m => setReg_does _ _
  | findMethod => exact (read _).bind fun _ => (read _).bind fun _ => store_does (findMethod_does _ _)
  | setSelf => exact (read _).bind fun receiver => pending_does fun m => some (receiver,(m.pending.map Prod.snd).getD .null)
  | callIfRef =>
      refine (read _).bind fun _ => Does.get_bind fun m => ?_
      split
      · exact callAboveWith_does natives _ _
      · exact pending_does fun _ => none
  | iterGet => exact (read _).bind fun _ => (read _).bind fun _ => store_does (iterated_does _ _)

theorem fetch_does : Does body fetch := by
  intro m
  unfold fetch
  cases m.functions[m.function]? with
  | none => exact .refl
  | some f =>
      simp only
      cases f.code[m.pc]? with
      | none => exact .refl
      | some word => cases m.config.trace <;> exact .tools

theorem stepWith_does {bodies : Bodies} (natives : ∀ callee base, Does body (bodies callee base)) : Does body (stepWith bodies) := by
  apply fetch_does.bind
  intro word
  split
  · exact .throw _
  · apply leave_does.bind
    intro result
    split
    · exact .pure _
    · exact .pure _
  · exact (performWith_does natives _ word).bind fun _ => .pure _

theorem perform_does (op : Opcode) (word : Word) : Does body (perform op word) := by
  rw [← performWith_own]
  exact performWith_does own_does op word

theorem step_does : Does body step := by
  rw [← stepWith_own]
  exact stepWith_does own_does

end RegisterMachine.Machine
