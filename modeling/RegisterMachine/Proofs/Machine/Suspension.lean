import RegisterMachine.Proofs.Machine.RunStates
import Mathlib.Algebra.BigOperators.Group.List.Basic
import Mathlib.Data.Nat.Find

namespace RegisterMachine.Machine

-- The machine after some slices of a run, each with its budget.
def slicedWith (bodies : Bodies) (m : Machine) (slices : List Nat) : Machine :=
  slices.foldl (fun m budget => (m.runWith bodies budget).2) m

variable {m m' : Machine} {bodies : Bodies}

theorem Reports.state (reports : Reports m m') : m'.state = m.state ∨ m'.state = .faulted := by
  induction reports with
  | aside state => exact Or.inl state
  | raise => exact Or.inr rfl
  | trans _ _ first second =>
      rcases second with same | stopped
      · rw [same]
        exact first
      · exact Or.inr stopped

theorem executeWith_stopped (budget : Nat) (stopped : m.state ≠ .running) : executeWith bodies budget m = .ok none m := by
  cases budget with
  | zero => rfl
  | succ budget => simp only [executeWith,if_pos stopped]

-- A loop that runs out of its budget goes on with the rest.
theorem executeWith_add (a b : Nat) (m : Machine) : executeWith bodies (a + b) m = match executeWith bodies a m with
    | .ok none m' => executeWith bodies b m'
    | outcome => outcome := by
  induction a generalizing m with
  | zero => rw [Nat.zero_add]; rfl
  | succ a ih =>
      by_cases running : m.state = .running
      · rw [Nat.add_right_comm,executeWith,executeWith]
        simp only [running,ne_eq,not_true_eq_false,if_false]
        cases result : stepWith bodies m with
        | error e m' => rfl
        | ok progress m' =>
            cases progress with
            | finished v => rfl
            | next => exact ih m'
      · rw [executeWith_stopped _ running,executeWith_stopped _ running]
        exact (executeWith_stopped b running).symm

theorem executeWith_state (confined : Confined bodies) {budget : Nat} (running : m.state = .running)
    (done : executeWith bodies budget m = .ok none m') : m'.state = .running ∨ m'.state = .faulted := by
  have ran := executeWith_ran bodies budget m
  rw [done] at ran
  rw [← running]
  exact (ran.reports confined).state

-- What a run makes of the outcome of its loop.
def conclude : EStateM.Result Error Machine (Option Value) → Value × Machine
  | .ok (some result) m => (result, { m with state := .returned, heap := m.heap.setRoot resultRoot result })
  | .ok none m => (.null, if m.state = .running then { m with state := .suspended } else m)
  | .error e m => (.null, m.raise e)

theorem runWith_concludes (budget : Nat) (running : m.isRunning = true) :
    m.runWith bodies budget = conclude (executeWith bodies budget { m with state := .running }) := by
  simp only [runWith,running,Bool.not_true,Bool.false_eq_true,if_false]
  cases executeWith bodies budget { m with state := .running } with
  | error e m' => rfl
  | ok result m' => cases result <;> rfl

theorem runWith_suspended (confined : Confined bodies) {a : Nat} (going : (m.runWith bodies a).2.isRunning = true) :
    ∃ m', executeWith bodies a { m with state := .running } = .ok none m' ∧ m'.state = .running ∧ m.isRunning = true ∧
      m.runWith bodies a = (.null,{ m' with state := .suspended }) := by
  have running : m.isRunning = true := by
    by_contra idle
    have still : m.isRunning = false := by simpa using idle
    rw [runWith_still still a] at going
    exact idle going
  have concluded : m.runWith bodies a = conclude (executeWith bodies a { m with state := .running }) := runWith_concludes a running
  rw [concluded] at going ⊢
  cases outcome : executeWith bodies a { m with state := .running } with
  | error e m' => rw [outcome] at going; cases going
  | ok result m' =>
      rw [outcome] at going
      cases result with
      | some v => cases going
      | none =>
          rcases executeWith_state confined rfl outcome with goes | stopped
          · exact ⟨m',rfl,goes,running,by simp only [conclude,goes,if_true]⟩
          · simp [conclude,stopped,isRunning] at going

theorem runWith_runWith (confined : Confined bodies) {a : Nat} (b : Nat) (going : (m.runWith bodies a).2.isRunning = true) :
    (m.runWith bodies a).2.runWith bodies b = m.runWith bodies (a + b) := by
  obtain ⟨m',outcome,state,running,suspended⟩ := runWith_suspended confined going
  have same : { m' with state := .running } = m' := by rw [← state]
  rw [runWith_concludes b going,runWith_concludes (a + b) running,executeWith_add,outcome,suspended]
  simp only [same]

theorem runWith_ended {a : Nat} (b : Nat) (ended : (m.runWith bodies a).2.isRunning = false) :
    m.runWith bodies (a + b) = m.runWith bodies a := by
  cases running : m.isRunning with
  | false => rw [runWith_still running,runWith_still running]
  | true =>
      rw [runWith_concludes _ running] at ended ⊢
      rw [runWith_concludes _ running,executeWith_add]
      cases outcome : executeWith bodies a { m with state := .running } with
      | error e m' => rfl
      | ok result m' =>
          cases result with
          | some v => rfl
          | none =>
              have stopped : m'.state ≠ .running := by
                intro goes
                rw [outcome] at ended
                simp [conclude,goes,isRunning] at ended
              simp only [executeWith_stopped b stopped]

theorem runWith_again (confined : Confined bodies) (a b : Nat) :
    ((m.runWith bodies a).2.runWith bodies b).2 = (m.runWith bodies (a + b)).2 := by
  cases going : (m.runWith bodies a).2.isRunning with
  | true => rw [runWith_runWith confined b going]
  | false => rw [runWith_still going,runWith_ended b going]

theorem runWith_enough {a b : Nat} (ended : (m.runWith bodies a).2.isRunning = false) (more : a ≤ b) :
    m.runWith bodies b = m.runWith bodies a := by
  obtain ⟨k,rfl⟩ := Nat.exists_eq_add_of_le more
  exact runWith_ended k ended

theorem slicedWith_cons (confined : Confined bodies) (first : Nat) (rest : List Nat) :
    m.slicedWith bodies (first :: rest) = (m.runWith bodies (first + rest.sum)).2 := by
  induction rest generalizing first with
  | nil => rfl
  | cons second rest ih =>
      have joined : m.slicedWith bodies (first :: second :: rest) = m.slicedWith bodies ((first + second) :: rest) := by
        simp only [slicedWith,List.foldl_cons,runWith_again confined]
      rw [joined,ih,List.sum_cons,Nat.add_assoc]

theorem execute_stopped (budget : Nat) (stopped : m.state ≠ .running) : execute budget m = .ok none m := by
  rw [← executeWith_own]
  exact executeWith_stopped budget stopped

theorem execute_add (a b : Nat) (m : Machine) : execute (a + b) m = match execute a m with
    | .ok none m' => execute b m'
    | outcome => outcome := by
  simp only [← executeWith_own]
  exact executeWith_add a b m

theorem run_concludes (budget : Nat) (running : m.isRunning = true) :
    m.run budget = conclude (execute budget { m with state := .running }) := by
  rw [← runWith_own,← executeWith_own]
  exact runWith_concludes budget running

theorem run_idle (budget : Nat) (idle : m.isRunning = false) : m.run budget = (.null,m) := by
  rw [← runWith_own]
  exact runWith_still idle budget

theorem run_suspended {a : Nat} (going : (m.run a).2.isRunning = true) : ∃ m', execute a { m with state := .running } = .ok none m' ∧
    m'.state = .running ∧ m.isRunning = true ∧ m.run a = (.null,{ m' with state := .suspended }) := by
  simp only [← runWith_own,← executeWith_own] at going ⊢
  exact runWith_suspended own_confined going

-- Running within a budget and going on within another is running within both, for any native functions that work within
-- the run: all that the loop knows between two instructions is in the machine, console and input included. So it does not
-- matter into which slices a run is cut, also where a slice ends inside a callee or between finding a method and calling it.
theorem run_sliced (confined : Confined bodies) (m : Machine) :
    (∀ a b, ((m.runWith bodies a).2.runWith bodies b).2 = (m.runWith bodies (a + b)).2 ∧
        m.runWith bodies (a + b) = if (m.runWith bodies a).2.isRunning then (m.runWith bodies a).2.runWith bodies b else m.runWith bodies a) ∧
      (m.isRunning = true → (m.runWith bodies unlimited).2.isRunning = false → ∃ cycles ≤ unlimited, ∀ slices : List Nat,
        ((m.slicedWith bodies slices).isRunning = true ↔ slices.sum < cycles) ∧
          (cycles ≤ slices.sum → m.slicedWith bodies slices = (m.runWith bodies unlimited).2) ∧
          ∀ last, slices.sum < cycles → cycles ≤ slices.sum + last →
            (m.slicedWith bodies slices).runWith bodies last = m.runWith bodies unlimited) := by
  refine ⟨fun a b => ⟨runWith_again confined a b,?_⟩,fun running ends => ?_⟩
  · cases going : (m.runWith bodies a).2.isRunning with
    | true => rw [if_pos rfl,runWith_runWith confined b going]
    | false => simp only [Bool.false_eq_true,if_false,runWith_ended b going]
  · -- The least budget within which the run ends.
    have some_end : ∃ n, (m.runWith bodies n).2.isRunning = false := ⟨unlimited,ends⟩
    obtain ⟨cycles,ended,least⟩ : ∃ n, (m.runWith bodies n).2.isRunning = false ∧ ∀ k < n, (m.runWith bodies k).2.isRunning = true :=
      ⟨Nat.find some_end,Nat.find_spec some_end,fun k early => by simpa using Nat.find_min some_end early⟩
    have within : cycles ≤ unlimited := by
      by_contra late
      rw [least unlimited (by omega)] at ends
      cases ends
    have started : 0 < cycles := by
      rw [Nat.pos_iff_ne_zero]
      rintro rfl
      rw [runWith_concludes 0 running] at ended
      cases ended
    have goes : ∀ n, (m.runWith bodies n).2.isRunning = true ↔ n < cycles := by
      intro n
      constructor
      · intro going
        by_contra late
        rw [runWith_enough ended (by omega),ended] at going
        cases going
      · exact least n
    have whole : ∀ n, cycles ≤ n → m.runWith bodies n = m.runWith bodies unlimited := fun n enough => by
      rw [runWith_enough ended enough,runWith_enough ended within]
    refine ⟨cycles,within,fun slices => ?_⟩
    cases slices with
    | nil =>
        refine ⟨⟨fun _ => started,fun _ => running⟩,fun enough => ?_,fun last _ enough => ?_⟩
        · exact absurd started (by simpa using enough)
        · exact whole last (by simpa using enough)
    | cons first rest =>
        rw [slicedWith_cons confined,List.sum_cons]
        refine ⟨goes _,fun enough => by rw [whole _ enough],fun last early enough => ?_⟩
        rw [runWith_runWith confined last ((goes _).mpr early),whole _ enough]

theorem cycles_exact {n cycles : Nat} (counts : ∀ slices : List Nat, (m.slicedWith bodies slices).isRunning = true ↔ slices.sum < cycles)
    (going : (m.runWith bodies n).2.isRunning = true) (ended : (m.runWith bodies (n + 1)).2.isRunning = false) : cycles = n + 1 := by
  have late : n < cycles := by simpa using (counts [n]).mp going
  have early : ¬ n + 1 < cycles := fun fewer => by
    have still := (counts [n + 1]).mpr (by simpa using fewer)
    rw [show m.slicedWith bodies [n + 1] = (m.runWith bodies (n + 1)).2 from rfl,ended] at still
    cases still
  omega

-- A method that is found in one slice and called in the next.
def shouted : Program where
  functions := [
    { name := "@main",registers := some 4,parameters := [],constants := [.string "abc",.string "upper"]
      code := [.named "LOAD_rA_kBC" [1,0],.named "LOAD_rA_kBC" [3,1],.named "METHFIND_rA_rB_rC" [2,1,3],
        .named "CALL_rA_rB_rC" [0,4,2],.named "RETURN" []] }]

-- A host function that prints its argument and gives it back in a list, and raises an error when it gets null.
def announcing : Bodies := fun callee base m =>
  let v := m.heap.registerValue (base + 1)
  if callee.name ≠ "hostPair" then own callee base m
  else if v.isNull then .ok .null (m.raise (.sequencing "nothing to announce"))
  else onHeap (Heap.listOfItems #[v]) (m.printText (m.heap.display v))

theorem announcing_confined : Confined announcing := by
  intro callee base m
  unfold announcing
  by_cases other : callee.name ≠ "hostPair"
  · rw [if_pos other]
    exact own_confined callee base m
  · simp only [if_neg other]
    split
    · exact .raise _ _
    · have printed : Reports m (m.printText (m.heap.display (m.heap.registerValue (base + 1)))) := .aside rfl rfl rfl (Nat.le_refl _)
      exact printed.trans (onHeap_does (Heap.newListOf_tends _ 1) _).reports

def announced : Array Function :=
  #[{ name := "@main",registers := 2
      code := #[Instruction.encodeUnchecked .loadInt [1,7],Instruction.encodeUnchecked .callFunction [0,1],Instruction.encodeUnchecked .ret []] },
    { name := "hostPair",registers := 2,native := some (.host .pair) }]

theorem run_sliced_method :
    (∃ m : Machine, m.Reachable ∧ (m.slicedWith own [1,0,2]).pending.isSome = true ∧
      (m.slicedWith own [1,0,2]).run 2 = m.run unlimited ∧ (m.run unlimited).1 = .shortText "ABC") ∧
    ∃ m : Machine, (m.slicedWith announcing [1,0]).runWith announcing 2 = m.runWith announcing unlimited ∧
      (m.slicedWith announcing [1,0]).console = #[] ∧ (m.runWith announcing unlimited).2.console = #[.printed "7"] := by
  constructor
  · have reachable := Reachable.load shouted true (.new { stackSlots := 6 })
    generalize whole : Machine.load _ shouted true = m at reachable
    have facts : m.isRunning = true ∧ (m.runWith own 4).2.isRunning = true ∧ (m.runWith own 5).2.isRunning = false ∧
        (m.slicedWith own [1,0,2]).pending.isSome = true ∧ (m.runWith own 5).1 = .shortText "ABC" := by
      rw [← whole]
      decide +kernel
    obtain ⟨running,going,ended,found,result⟩ := facts
    have same : m.runWith own unlimited = m.runWith own 5 := runWith_enough ended (by decide)
    obtain ⟨cycles,_,slicing⟩ := (run_sliced own_confined m).2 running (by rw [same]; exact ended)
    obtain rfl := cycles_exact (fun slices => (slicing slices).1) going ended
    refine ⟨m,reachable,found,?_,?_⟩
    · rw [← runWith_own,← runWith_own]
      exact (slicing [1,0,2]).2.2 2 (by decide) (by decide)
    · rw [← runWith_own,same]
      exact result
  · obtain ⟨m,whole⟩ : ∃ m, m = left (reset announced (Machine.new { stackSlots := 4 })) := ⟨_,rfl⟩
    have facts : m.isRunning = true ∧ (m.runWith announcing 2).2.isRunning = true ∧ (m.runWith announcing 3).2.isRunning = false ∧
        (m.slicedWith announcing [1,0]).console = #[] ∧ (m.runWith announcing 3).2.console = #[.printed "7"] := by
      rw [whole]
      decide +kernel
    obtain ⟨running,going,ended,silent,printed⟩ := facts
    have same : m.runWith announcing unlimited = m.runWith announcing 3 := runWith_enough ended (by decide)
    obtain ⟨cycles,_,slicing⟩ := (run_sliced announcing_confined m).2 running (by rw [same]; exact ended)
    obtain rfl := cycles_exact (fun slices => (slicing slices).1) going ended
    exact ⟨m,(slicing [1,0]).2.2 2 (by decide) (by decide),silent,by rw [same]; exact printed⟩

end RegisterMachine.Machine
