import RegisterMachine.Proofs.Machine.Fitting
import RegisterMachine.Proofs.Machine.Suspension

namespace RegisterMachine.Machine

-- A table that goes on from another one with functions that have no code.
def Appends (m m' : Machine) : Prop := ∃ added : Array Function, m'.functions = m.functions ++ added ∧ ∀ f ∈ added, f.code = #[]

theorem Appends.same {m m' : Machine} (functions : m'.functions = m.functions) : Appends m m' := ⟨#[],by simp [functions],by simp⟩

theorem Appends.trans {m m' m'' : Machine} (first : Appends m m') (second : Appends m' m'') : Appends m m'' := by
  obtain ⟨added,table,bare⟩ := first
  obtain ⟨further,later,bare'⟩ := second
  refine ⟨added ++ further,by rw [later,table,Array.append_assoc],fun f member => ?_⟩
  rcases Array.mem_append.mp member with before | after
  · exact bare f before
  · exact bare' f after

def Appending (operation : MachineM α) : Prop := ∀ m, Appends m (left (operation m))

namespace Appending

theorem pure (a : α) : Appending (Pure.pure a) := fun _ => .same rfl

theorem get_bind {rest : Machine → MachineM β} (follows : ∀ m, Appending (rest m)) : Appending (MonadState.get >>= rest) :=
  fun m => follows m m

theorem bind {first : MachineM α} {rest : α → MachineM β} (appending : Appending first) (follows : ∀ a, Appending (rest a)) :
    Appending (first >>= rest) := by
  intro m
  have start := appending m
  rcases left_bind first rest m with stopped | ⟨a,_,next⟩
  · rw [stopped]
    exact start
  · rw [next]
    exact start.trans (follows a _)

theorem inScope {operation : MachineM α} (appending : Appending operation) : Appending (Machine.inScope operation) := by
  intro m
  have inside := appending { m with heap := m.heap.pushScope }
  unfold Machine.inScope
  split <;> rename_i done <;> rw [done] at inside <;> exact inside

end Appending

theorem onHeap_appending (operation : HeapM α) : Appending (onHeap operation) := by
  intro m
  unfold onHeap
  cases result : operation m.heap <;> exact .same (by simp only [left,result])

theorem installIntrinsic_appending (table : Value) (maps : Array Value) (intrinsic : Intrinsic) :
    Appending (installIntrinsic table maps intrinsic) := by
  refine Appending.get_bind fun m => Appending.bind (fun s => ?_) fun _ => onHeap_appending _
  refine ⟨#[(Function.ofNative intrinsic.name intrinsic.parameters (.intrinsic intrinsic) s.heap).1],?_,?_⟩
  · exact Array.push_eq_append
  · intro f member
    rw [Array.mem_singleton.mp member]
    rfl

theorem installAll_appending (table : Value) (maps : Array Value) (intrinsics : List Intrinsic) :
    Appending (installAll table maps intrinsics) := by
  induction intrinsics with
  | nil => exact .pure _
  | cons intrinsic rest ih => exact (installIntrinsic_appending table maps intrinsic).bind fun _ => ih

theorem installIntrinsics_appending : Appending installIntrinsics := by
  unfold installIntrinsics
  refine ((onHeap_appending _).bind fun made => ?_).inScope
  exact (installAll_appending made.1 made.2 _).bind fun _ _ => .same rfl

theorem reset_functions {functions : Array Function} {m m' : Machine} (done : reset functions m = .ok () m') :
    ∃ added : Array Function, m'.functions = functions ++ added ∧ ∀ f ∈ added, f.code = #[] := by
  rw [reset_reads] at done
  cases started : entryFunction (m.unload functions) with
  | error e s =>
      simp only [started] at done
      cases done
  | ok entry s =>
      obtain ⟨rfl,_⟩ := entryFunction_done started
      have appended := installIntrinsics_appending (m.unload functions)
      cases installed : installIntrinsics (m.unload functions) with
      | error e s =>
          simp only [started,installed] at done
          cases done
      | ok _ s =>
          rw [installed] at appended
          simp only [started,installed,ensureWindow] at done
          split at done
          · rename_i failed
            cases done
          · rename_i there
            cases done
            split at there
            · cases there
            · cases there
              exact appended

theorem Shift.functions (shift : Shift written m m') : m'.functions = m.functions := by
  cases shift with
  | stay | ret => rfl
  | bind =>
      unfold setFrameLocals
      split <;> rfl
  | call aside => exact aside.functions

theorem step_functions (done : step m = .ok progress m') : m'.functions = m.functions := by
  have turns := step_turns m
  rw [Turns,done] at turns
  obtain ⟨s,s',first,_,shift,last⟩ := turns
  rw [last.functions,shift.functions,first.functions]

theorem execute_functions {v : Option Value} (budget : Nat) (done : execute budget m = .ok v m') : m'.functions = m.functions := by
  induction budget generalizing m with
  | zero =>
      cases done
      rfl
  | succ budget ih =>
      by_cases running : m.state = .running
      · simp only [execute,running,ne_eq,not_true_eq_false,if_false] at done
        cases stepped : step m with
        | error e s =>
            rw [stepped] at done
            cases done
        | ok progress s =>
            rw [stepped] at done
            have same := step_functions stepped
            cases progress with
            | finished v =>
                cases done
                exact same
            | next => exact (ih done).trans same
      · rw [execute_stopped _ running] at done
        cases done
        rfl

end RegisterMachine.Machine
