import RegisterMachine.Proofs.Machine.Fitting
import Mathlib.Logic.Relation

namespace RegisterMachine.Machine

-- What leaves state, fault and errors alone, and errors raised.
inductive Reports : Machine → Machine → Prop where
  | aside : m'.state = m.state → m'.fault = m.fault → m'.errors = m.errors → m.heap.roots.size ≤ m'.heap.roots.size → Reports m m'
  | raise (m : Machine) (e : Error) : Reports m (m.raise e)
  | trans : Reports m m' → Reports m' m'' → Reports m m''

-- Native functions that work within the run that they are called in.
def Confined (bodies : Bodies) : Prop := ∀ callee base m, Reports m (left (bodies callee base m))

-- What happens to a machine from outside; true when it loads functions.
inductive Drive (bodies : Bodies) (m : Machine) : Bool → Machine → Prop where
  | load {functions : Array Function} : reset functions m = .ok () m' → Drive bodies m true m'
  | refuse {functions : Array Function} : reset functions m = .error e m' → Drive bodies m false m'
  | register (f : Function) : Drive bodies m false (m.registerFunction f).2
  | run (budget : Nat) : Drive bodies m false (m.runWith bodies budget).2

inductive Driven (bodies : Bodies) : Machine → Prop where
  | new (config : MachineConfig) : Driven bodies (Machine.new config)
  | drive : Driven bodies m → Drive bodies m loads m' → Driven bodies m'

-- The fault is that of a faulted machine, and the result has its root.
structure Settled (m : Machine) : Prop where
  fault : m.fault.isSome = true ↔ m.state = .faulted
  places : resultRoot < m.heap.roots.size

-- Errors are kept, and one is added before the machine counts as faulted.
structure Logged (m m' : Machine) : Prop where
  kept : m.errors.toList <+: m'.errors.toList
  noted : m.state ≠ .faulted → m'.state = .faulted → m.errors.size < m'.errors.size

variable {m m' : Machine} {bodies : Bodies}

theorem Logged.refl (m : Machine) : Logged m m := ⟨List.prefix_refl _,fun other same => absurd same other⟩

theorem Logged.more (logged : Logged m m') : m.errors.size ≤ m'.errors.size := by simpa using logged.kept.length_le

theorem Logged.trans (first : Logged m m') (second : Logged m' m'') : Logged m m'' := by
  refine ⟨first.kept.trans second.kept,fun before after => ?_⟩
  by_cases between : m'.state = .faulted
  · exact Nat.lt_of_lt_of_le (first.noted before between) second.more
  · exact Nat.lt_of_le_of_lt first.more (second.noted between after)

theorem Reports.settled (reports : Reports m m') (settled : m.Settled) : m'.Settled := by
  induction reports with
  | aside state fault _ places => exact ⟨by rw [state,fault]; exact settled.fault,Nat.lt_of_lt_of_le settled.places places⟩
  | raise m e => exact ⟨⟨fun _ => rfl,fun _ => rfl⟩,settled.places⟩
  | trans _ _ first second => exact second (first settled)

theorem raise_logged (m : Machine) (e : Error) : Logged m (m.raise e) := by
  refine ⟨?_,fun _ _ => ?_⟩
  · simp [raise,addLog]
  · simp [raise,addLog]

theorem Reports.logged (reports : Reports m m') : Logged m m' := by
  induction reports with
  | @aside m m' state _ errors _ =>
      refine ⟨errors ▸ List.prefix_refl _,fun before after => ?_⟩
      rw [state] at after
      exact absurd after before
  | raise m e => exact raise_logged m e
  | trans _ _ first second => exact first.trans second

theorem Deeds.reports (deeds : Deeds Reports m m') : Reports m m' := by
  induction deeds with
  | refl => exact .aside rfl rfl rfl (Nat.le_refl _)
  | trans _ _ first second => exact first.trans second
  | heap tended => exact .aside rfl rfl rfl (by rw [tended.roots])
  | tools | lose => exact .aside rfl rfl rfl (Nat.le_refl _)
  | pending pending => exact .aside rfl rfl rfl (setPending_level _ pending).places
  | @locals v h i m frame made =>
      have tended := localsMap_tended made
      have set := setFrameLocals_level { m with heap := h } i v
      refine .aside ?_ ?_ ?_ (by rw [← tended.roots]; exact set.places)
      all_goals
        unfold setFrameLocals
        split <;> rfl
  | push => exact .aside rfl rfl rfl (pushFrame_level _ _ _ _).places
  | pop => exact .aside rfl rfl rfl (release_level _ _).places
  | raise e => exact .raise _ e
  | native reports => exact reports

theorem Ran.reports (confined : Confined bodies) (ran : Ran bodies m m') : Reports m m' :=
  (ran.deeds fun callee base m => .native (confined callee base m)).reports

theorem stepWith_reports (confined : Confined bodies) (m : Machine) : Reports m (left (stepWith bodies m)) :=
  (stepWith_does (fun callee base m => .native (confined callee base m)) m).reports

theorem own_confined : Confined own := fun callee base m => (own_does callee base m).reports

theorem Loads.errors {result : EStateM.Result Error Machine Unit} (loads : Loads m result) :
    (left result).errors = match entryFunction m with
      | .error e _ => m.errors.push ("Runtime Error: " ++ e.message)
      | .ok _ _ => m.errors := by
  cases loads with
  | rejected refused =>
      rw [refused]
      rfl
  | halted entered furnished =>
      rw [entered]
      exact furnished.errors
  | cramped entered furnished readied | loaded entered furnished readied =>
      rw [entered]
      exact readied.errors.trans furnished.errors

theorem Loads.states {result : EStateM.Result Error Machine Unit} (loads : Loads m result) (idle : m.state = .idle) (clear : m.fault = none) :
    (left result).fault = none ∧ m.heap.roots.size = (left result).heap.roots.size ∧
      ((left result).state = .idle ∨ ∃ s, result = .ok () s ∧ s.state = .running) := by
  cases loads with
  | rejected => exact ⟨clear,rfl,Or.inl idle⟩
  | halted _ furnished => exact ⟨furnished.fault.trans clear,furnished.places.symm,Or.inl (furnished.state.trans idle)⟩
  | cramped _ furnished readied state =>
      have places := furnished.places.symm.trans (congrArg Array.size readied.heap.roots.symm)
      exact ⟨readied.fault.trans (furnished.fault.trans clear),places,Or.inl (state.trans (furnished.state.trans idle))⟩
  | loaded _ furnished readied state =>
      have places := furnished.places.symm.trans (congrArg Array.size readied.heap.roots.symm)
      exact ⟨readied.fault.trans (furnished.fault.trans clear),places,Or.inr ⟨_,rfl,state⟩⟩

theorem reset_states (functions : Array Function) (m : Machine) : (left (reset functions m)).fault = none ∧
    m.heap.roots.size ≤ (left (reset functions m)).heap.roots.size ∧
    ((left (reset functions m)).state = .idle ∨ ∃ s, reset functions m = .ok () s ∧ s.state = .running) := by
  obtain ⟨clear,places,state⟩ := (reset_loads functions m).states rfl rfl
  exact ⟨clear,(m.unload_level functions).places.trans (Nat.le_of_eq places),state⟩

theorem reset_loaded {functions : Array Function} (running : (left (reset functions m)).state = .running) :
    reset functions m = .ok () (left (reset functions m)) := by
  obtain ⟨_,_,idle | ⟨s,done,_⟩⟩ := reset_states functions m
  · rw [idle] at running
    cases running
  · rw [done]
    rfl

theorem reset_kept (functions : Array Function) (m : Machine) : m.errors.toList <+: (left (reset functions m)).errors.toList := by
  rw [(reset_loads functions m).errors]
  split
  · rw [Array.toList_push]
    exact List.prefix_append _ _
  · exact List.prefix_refl _

theorem Settled.calm (settled : m.Settled) (calm : m.state ≠ .faulted) {state : RunState} (other : state ≠ .faulted) :
    { m with state }.Settled :=
  ⟨⟨fun there => absurd (settled.fault.mp there) calm,fun same => absurd same other⟩,settled.places⟩

theorem Logged.calm (m : Machine) {state : RunState} (other : state ≠ .faulted) : Logged m { m with state } :=
  ⟨List.prefix_refl _,fun _ same => absurd same other⟩

theorem running_calm (running : m.isRunning = true) : m.state ≠ .faulted := by
  intro faulted
  rw [isRunning,faulted] at running
  cases running

theorem Ran.settled_logged (confined : Confined bodies) (settled : m.Settled) (running : m.isRunning = true)
    (ran : Ran bodies { m with state := .running } s) : s.Settled ∧ Logged m s := by
  have reports := ran.reports confined
  exact ⟨reports.settled (settled.calm (running_calm running) RunState.noConfusion),(Logged.calm m RunState.noConfusion).trans reports.logged⟩

theorem Ends.settled_logged {result : Value × Machine} (ends : Ends bodies m result) (confined : Confined bodies) (settled : m.Settled) :
    result.2.Settled ∧ Logged m result.2 := by
  cases ends with
  | still => exact ⟨settled,.refl m⟩
  | stopped running ran => exact ran.settled_logged confined settled running
  | suspended running ran on =>
      obtain ⟨inside,logged⟩ := ran.settled_logged confined settled running
      exact ⟨inside.calm (by rw [on]; exact RunState.noConfusion) RunState.noConfusion,logged.trans (.calm _ RunState.noConfusion)⟩
  | @returned v s s' running ran on last =>
      obtain ⟨inside,logged⟩ := ran.settled_logged confined settled running
      obtain ⟨pc,log,rfl⟩ := stepWith_finished last
      have returned : { s with state := .returned }.Settled := inside.calm (by rw [on]; exact RunState.noConfusion) RunState.noConfusion
      refine ⟨⟨returned.fault,?_⟩,⟨logged.kept,fun _ same => absurd same RunState.noConfusion⟩⟩
      rw [Ledger.setRoot_size]
      exact returned.places
  | @failed e s s' running ran _ last =>
      obtain ⟨inside,logged⟩ := ran.settled_logged confined settled running
      have stepped := stepWith_reports confined s
      rw [last] at stepped
      have reports := stepped.trans (.raise s' e)
      exact ⟨reports.settled inside,logged.trans reports.logged⟩

theorem reset_settled_logged (functions : Array Function) (settled : m.Settled) :
    (left (reset functions m)).Settled ∧ Logged m (left (reset functions m)) := by
  obtain ⟨clear,places,state⟩ := reset_states functions m
  have calm : (left (reset functions m)).state ≠ .faulted := by
    rcases state with idle | ⟨s,done,running⟩
    · rw [idle]
      exact RunState.noConfusion
    · rw [done,left,running]
      exact RunState.noConfusion
  refine ⟨⟨⟨fun there => ?_,fun same => absurd same calm⟩,Nat.lt_of_lt_of_le settled.places places⟩,
    ⟨reset_kept functions m,fun _ same => absurd same calm⟩⟩
  rw [clear] at there
  cases there

theorem Drive.settled_logged (drive : Drive bodies m loads m') (confined : Confined bodies) (settled : m.Settled) : m'.Settled ∧ Logged m m' := by
  cases drive with
  | @load _ functions done | @refuse _ _ functions done =>
      have reset := reset_settled_logged functions settled
      rw [done] at reset
      exact reset
  | register f => exact ⟨⟨settled.fault,settled.places⟩,⟨List.prefix_refl _,fun other same => absurd same other⟩⟩
  | run budget => exact (m.runWith_ends bodies budget).settled_logged confined settled

theorem new_settled (config : MachineConfig) : (Machine.new config).Settled := by
  refine ⟨⟨fun there => (by cases there),fun same => (by cases same)⟩,?_⟩
  have size : (Machine.new config).heap.roots.size = fixedRoots := rfl
  rw [size]
  decide

theorem Driven.settled (driven : Driven bodies m) (confined : Confined bodies) : m.Settled := by
  induction driven with
  | new config => exact new_settled config
  | drive _ drive ih => exact (drive.settled_logged confined ih).1

theorem runWith_still (still : m.isRunning = false) (budget : Nat) : m.runWith bodies budget = (.null,m) := by
  unfold runWith
  rw [still]
  rfl

theorem Drive.still (drive : Drive bodies m false m') (still : m.isRunning = false) : m'.isRunning = false := by
  cases drive with
  | @refuse _ _ functions done =>
      obtain ⟨_,_,idle | ⟨s,loaded,_⟩⟩ := reset_states functions m
      · rw [done,left] at idle
        rw [isRunning,idle]
        rfl
      · rw [done] at loaded
        cases loaded
  | register f => exact still
  | run budget =>
      rw [runWith_still still]
      exact still

-- For any native functions that work within a run, and any sequence of loads, registrations and runs:
-- there is a fault exactly in a faulted machine; one that is idle, returned or faulted is left as it is
-- by every run, until functions are loaded; a run executes instructions only in a running machine, up
-- to the first that fails or returns from the entry function; a value other than null is the result of
-- a program that has returned just now; and errors are kept, with one more when the machine faults.
theorem run_states (confined : Confined bodies) (driven : Driven bodies m) :
    (m.fault.isSome = true ↔ m.state = .faulted) ∧
    (m.state = .idle ∨ m.state = .returned ∨ m.state = .faulted →
      ∀ m', Relation.ReflTransGen (Drive bodies · false ·) m m' → m'.isRunning = false ∧ ∀ budget, m'.runWith bodies budget = (.null,m')) ∧
    (∀ budget, Ends bodies m (m.runWith bodies budget)) ∧
    (∀ budget, (m.runWith bodies budget).1 ≠ .null → m.state ≠ .returned ∧ (m.runWith bodies budget).2.state = .returned ∧
      (m.runWith bodies budget).2.result = (m.runWith bodies budget).1) ∧
    ∀ loads m', Drive bodies m loads m' → m.errors.toList <+: m'.errors.toList ∧
      (m.state ≠ .faulted → m'.state = .faulted → m.errors.size < m'.errors.size) := by
  have settled := driven.settled confined
  refine ⟨settled.fault,fun resting => ?_,m.runWith_ends bodies,fun budget => ?_,fun loads m' drive => ?_⟩
  · have still : m.isRunning = false := by
      rcases resting with state | state | state <;> rw [isRunning,state] <;> rfl
    intro m' path
    have rests : m'.isRunning = false := by
      induction path with
      | refl => exact still
      | tail _ drive ih => exact drive.still ih
    exact ⟨rests,runWith_still rests⟩
  · have ends := m.runWith_ends bodies budget
    generalize m.runWith bodies budget = result at ends
    intro value
    cases ends with
    | still | stopped | suspended | failed => exact absurd rfl value
    | @returned v s s' running ran on last =>
        obtain ⟨inside,_⟩ := ran.settled_logged confined settled running
        obtain ⟨pc,log,rfl⟩ := stepWith_finished last
        refine ⟨fun returned => ?_,rfl,?_⟩
        · rw [isRunning,returned] at running
          cases running
        · have stored := Ledger.setRoot_here inside.places v
          simp only [result,Heap.root,Array.getD_eq_getD_getElem?,stored]
          rfl
  · have logged := (drive.settled_logged confined settled).2
    exact ⟨logged.kept,logged.noted⟩

def raising : Array Function :=
  #[{ name := "@main",code := #[Instruction.encodeUnchecked .callFunction [1,1],Instruction.encodeUnchecked .ret []],registers := 2 },
    { name := "hostRaise",registers := 1,native := some (.host .raise) }]

def returning : Array Function :=
  #[{ name := "@main",code := #[Instruction.encodeUnchecked .loadInt [0,7],Instruction.encodeUnchecked .ret []],registers := 1 }]

-- The error stops the first program although the call goes through; the second program returns.
theorem run_states_raised : ∃ m s t : Machine, Driven own m ∧ Drive own m false s ∧ s.state = .faulted ∧ s.pc = 1 ∧
    s.fault.isSome = true ∧ m.errors.size < s.errors.size ∧ s.runWith own 5 = (.null,s) ∧ Drive own s true t ∧
    (t.runWith own 2).1 = .int 7 ∧ (t.runWith own 2).2.result = .int 7 := by
  obtain ⟨m,first⟩ : ∃ m, m = left (reset raising (Machine.new { stackSlots := 2 })) := ⟨_,rfl⟩
  obtain ⟨s,second⟩ : ∃ s, s = (m.runWith own 5).2 := ⟨_,rfl⟩
  obtain ⟨t,third⟩ : ∃ t, t = left (reset returning s) := ⟨_,rfl⟩
  have facts : m.state = .running ∧ s.state = .faulted ∧ s.pc = 1 ∧ t.state = .running ∧ (t.runWith own 2).1 = .int 7 := by
    rw [third,second,first]
    decide +kernel
  obtain ⟨started,stopped,pc,again,value⟩ := facts
  have driven : Driven own m := .drive (.new { stackSlots := 2 }) (.load (first ▸ reset_loaded (first ▸ started)))
  have run : Drive own m false s := second ▸ .run 5
  have reload : Drive own s true t := .load (third ▸ reset_loaded (third ▸ again))
  have faulted := run_states own_confined (driven.drive run)
  have logged := (run_states own_confined driven).2.2.2.2 false s run
  have returned := (run_states own_confined ((driven.drive run).drive reload)).2.2.2.1 2 (by rw [value]; exact Value.noConfusion)
  refine ⟨m,s,t,driven,run,stopped,pc,faulted.1.mpr stopped,?_,?_,reload,value,returned.2.2.trans value⟩
  · exact logged.2 (by rw [started]; exact RunState.noConfusion) stopped
  · exact (faulted.2.1 (Or.inr (Or.inr stopped)) s .refl).2 5

-- A reset that fails leaves an idle machine that no run changes. Of the errors it can fail with only
-- those about the entry function are noted; when memory runs out while the intrinsics are installed, or
-- the window of the entry function does not fit, the errors are what they were.
theorem failed_reset {functions : Array Function} (failed : reset functions m = .error e m') :
    m'.state = .idle ∧ m'.fault = none ∧ (∀ bodies budget, m'.runWith bodies budget = (.null,m')) ∧
    match entryFunction (m.unload functions) with
    | .error _ _ => (e = .noEntryFunction ∨ e = .emptyEntryFunction) ∧ m'.errors = m.errors.push ("Runtime Error: " ++ e.message)
    | .ok _ _ => m'.errors = m.errors := by
  obtain ⟨clear,_,state⟩ := reset_states functions m
  have errors := (reset_loads functions m).errors
  have parts := reset_reads functions m
  rw [failed] at clear state errors parts
  have idle : m'.state = .idle := by
    rcases state with idle | ⟨s,done,_⟩
    · exact idle
    · cases done
  refine ⟨idle,clear,fun bodies budget => runWith_still ?_ budget,?_⟩
  · rw [isRunning,idle]
    rfl
  · cases entered : entryFunction (m.unload functions) with
    | error e' s =>
        rw [entered] at errors parts
        cases parts
        exact ⟨(entryFunction_rejects entered).1,errors⟩
    | ok entry s =>
        rw [entered] at errors
        exact errors

-- Loading nothing into a machine whose program has returned.
theorem failed_reset_empty : ∃ m m' : Machine, m.state = .returned ∧ reset #[] m = .error .noEntryFunction m' ∧ m'.state = .idle ∧
    m'.errors = m.errors.push "Runtime Error: No @main function found" := by
  obtain ⟨m,before⟩ : ∃ m, m = ((left (reset returning (Machine.new { stackSlots := 1 }))).runWith own 2).2 := ⟨_,rfl⟩
  have returned : m.state = .returned := by
    rw [before]
    decide +kernel
  have nameless : entryFunction (m.unload #[]) = rejectLoad .noEntryFunction (m.unload #[]) := by
    simp [entryFunction,bind,EStateM.bind,get_ok,unload,setPending]
  have refused : reset #[] m = rejectLoad .noEntryFunction (m.unload #[]) := by
    rw [reset_reads,nameless]
    rfl
  obtain ⟨idle,_,_,errors⟩ := failed_reset refused
  rw [nameless] at errors
  exact ⟨m,_,returned,refused,idle,errors.2⟩

def spacious : Array Function := #[{ name := "@main",code := #[Instruction.encodeUnchecked .ret []],registers := 8 }]

theorem failed_reset_silent : ∃ m', reset spacious (Machine.new { stackSlots := 4 }) = .error (.stackOverflow 8 4) m' ∧
    m'.errors ≠ (Machine.new { stackSlots := 4 }).errors.push ("Runtime Error: " ++ (Error.stackOverflow 8 4).message) := by
  have facts : (match reset spacious (Machine.new { stackSlots := 4 }) with
      | .ok _ s => (none,s.errors)
      | .error e s => (some e,s.errors)) = (some (.stackOverflow 8 4),#[]) := by decide +kernel
  cases result : reset spacious (Machine.new { stackSlots := 4 }) with
  | ok _ s =>
      rw [result] at facts
      cases facts
  | error e s =>
      rw [result] at facts
      obtain ⟨same,errors⟩ := Prod.mk.inj facts
      cases same
      exact ⟨s,rfl,by rw [errors]; exact fun same => by simpa using congrArg Array.size same⟩

end RegisterMachine.Machine
