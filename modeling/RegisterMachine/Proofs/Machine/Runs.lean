import RegisterMachine.Proofs.Machine.Deeds

namespace RegisterMachine.Machine

inductive Ran (bodies : Bodies) : Machine → Machine → Prop where
  | refl : Ran bodies m m
  | next : m.state = .running → stepWith bodies m = .ok .next s → Ran bodies s m' → Ran bodies m m'

-- How a run ends, with its value and the machine it leaves.
inductive Ends (bodies : Bodies) (m : Machine) : Value × Machine → Prop where
  | still : m.isRunning = false → Ends bodies m (.null,m)
  | stopped : m.isRunning = true → Ran bodies { m with state := .running } s → s.state ≠ .running → Ends bodies m (.null,s)
  | suspended {s : Machine} : m.isRunning = true → Ran bodies { m with state := .running } s → s.state = .running →
      Ends bodies m (.null,{ s with state := .suspended })
  | returned {s s' : Machine} : m.isRunning = true → Ran bodies { m with state := .running } s → s.state = .running →
      stepWith bodies s = .ok (.finished v) s' →
      Ends bodies m (v,{ s' with state := .returned,heap := s'.heap.setRoot resultRoot v })
  | failed {s s' : Machine} : m.isRunning = true → Ran bodies { m with state := .running } s → s.state = .running →
      stepWith bodies s = .error e s' → Ends bodies m (.null,s'.raise e)

theorem executeWith_ran (bodies : Bodies) (budget : Nat) (m : Machine) : match executeWith bodies budget m with
    | .ok none s => Ran bodies m s
    | .ok (some v) s' => ∃ s, Ran bodies m s ∧ s.state = .running ∧ stepWith bodies s = .ok (.finished v) s'
    | .error e s' => ∃ s, Ran bodies m s ∧ s.state = .running ∧ stepWith bodies s = .error e s' := by
  induction budget generalizing m with
  | zero => exact .refl
  | succ budget ih =>
      unfold executeWith
      by_cases running : m.state = .running
      · rw [if_neg (not_not_intro running)]
        cases stepped : stepWith bodies m with
        | error e s' => exact ⟨m,.refl,running,stepped⟩
        | ok progress s' =>
            cases progress with
            | finished v => exact ⟨m,.refl,running,stepped⟩
            | next =>
                have later := ih s'
                simp only
                split at later
                · exact .next running stepped later
                · obtain ⟨s,ran,last⟩ := later
                  exact ⟨s,.next running stepped ran,last⟩
                · obtain ⟨s,ran,last⟩ := later
                  exact ⟨s,.next running stepped ran,last⟩
      · rw [if_pos running]
        exact .refl

theorem runWith_ends (bodies : Bodies) (m : Machine) (budget : Nat) : Ends bodies m (m.runWith bodies budget) := by
  unfold runWith
  cases running : m.isRunning with
  | false => exact .still running
  | true =>
      have ran := executeWith_ran bodies budget { m with state := .running }
      simp only [Bool.not_true,Bool.false_eq_true,if_false]
      split at ran
      · rename_i s done
        rw [done]
        by_cases on : s.state = .running
        · simp only [if_pos on]
          exact .suspended running ran on
        · simp only [if_neg on]
          exact .stopped running ran on
      · rename_i done
        obtain ⟨s,before,on,last⟩ := ran
        rw [done]
        exact .returned running before on last
      · rename_i done
        obtain ⟨s,before,on,last⟩ := ran
        rw [done]
        exact .failed running before on last

theorem run_ends (m : Machine) (budget : Nat) : Ends own m (m.run budget) := by
  rw [← runWith_own]
  exact runWith_ends own m budget

theorem fetch_plain (m : Machine) : ∃ pc log, left (fetch m) = { m with pc,log } := by
  unfold fetch
  cases m.functions[m.function]? with
  | none => exact ⟨_,_,rfl⟩
  | some f =>
      simp only
      cases f.code[m.pc]? with
      | none => exact ⟨_,_,rfl⟩
      | some word => cases m.config.trace <;> exact ⟨_,_,rfl⟩

theorem resume_none {frame : Frame} {value : Value} (done : resume frame value m = .ok v m') : v = none := by
  unfold resume at done
  cases destination : frame.call.destination with
  | none =>
      simp only [destination] at done
      cases done
      rfl
  | some d =>
      simp only [destination] at done
      cases done
      rfl

theorem leave_some (done : leave m = .ok (some v) m') : m' = m := by
  rw [leave_parts] at done
  obtain ⟨_,_,got,done⟩ := bind_ok done
  cases got
  by_cases last : m.frames.size ≤ 1
  · simp only [if_pos last] at done
    cases done
    rfl
  · simp only [if_neg last] at done
    cases top : m.topFrame? with
    | none =>
        simp only [top] at done
        cases done
        rfl
    | some frame =>
        simp only [top] at done
        obtain ⟨_,_,_,done⟩ := bind_ok done
        by_cases map : frame.locals.value.isMap = true
        · simp only [if_pos map] at done
          obtain ⟨_,_,_,done⟩ := bind_ok done
          cases resume_none done
        · simp only [if_neg map] at done
          cases resume_none done

theorem stepWith_finished {bodies : Bodies} (done : stepWith bodies m = .ok (.finished v) m') : ∃ pc log, m' = { m with pc,log } := by
  obtain ⟨pc,log,fetched⟩ := m.fetch_plain
  obtain ⟨word,s,start,done⟩ := bind_ok done
  rw [start] at fetched
  cases known : word.opcode? with
  | none =>
      simp only [known] at done
      cases done
  | some op =>
      cases op with
      | ret =>
          simp only [known] at done
          obtain ⟨value,s',returned,done⟩ := bind_ok done
          cases value with
          | none => cases done
          | some value =>
              cases done
              exact ⟨pc,log,(leave_some returned).trans fetched⟩
      | _ =>
          simp only [known] at done
          obtain ⟨_,_,_,done⟩ := bind_ok done
          cases done

variable {body : Machine → Machine → Prop} {bodies : Bodies}

theorem Ran.deeds (natives : ∀ callee base, Does body (bodies callee base)) (ran : Ran bodies m m') : Deeds body m m' := by
  induction ran with
  | refl => exact .refl
  | @next m s m' _ stepped _ ih =>
      have first := stepWith_does natives m
      rw [stepped] at first
      exact first.trans ih

end RegisterMachine.Machine
