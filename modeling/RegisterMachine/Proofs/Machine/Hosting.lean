import RegisterMachine.Proofs.Machine.Fitting

namespace RegisterMachine

namespace Machine

inductive Hosted (calls : Heap.Call → Prop) : Machine → Prop where
  | new (config : MachineConfig) : Hosted calls (Machine.new config)
  | call {m : Machine} (call : Heap.Call) : calls call → Hosted calls m → Hosted calls { m with heap := call.run m.heap }
  | feed {m : Machine} (inputs : List String) : Hosted calls m → Hosted calls { m with inputs }
  | reset {m : Machine} (functions : Array Function) : Hosted calls m → Hosted calls (left (reset functions m))
  | register {m : Machine} (f : Function) : Hosted calls m → Hosted calls (m.registerFunction f).2
  | step {m : Machine} : Hosted calls m → Hosted calls (left (step m))
  | run {m : Machine} (budget : Nat) : Hosted calls m → Hosted calls (m.run budget).2

variable {m m' : Machine}

theorem Ends.keeps {kept : Machine → Prop} {result : Value × Machine} (ends : Ends own m result)
    (deeds : ∀ s s', Deeds (fun _ _ => False) s s' → kept s → kept s') (state : ∀ s state, kept s → kept { s with state })
    (closes : ∀ s v, kept s → kept { s with heap := s.heap.setRoot resultRoot v }) (start : kept m) : kept result.2 := by
  have ran : ∀ s, Ran own { m with state := .running } s → kept s := fun s ran => deeds _ s (ran.deeds own_does) (state m .running start)
  cases ends with
  | still => exact start
  | stopped _ before => exact ran _ before
  | suspended _ before => exact state _ .suspended (ran _ before)
  | @returned v s s' _ before _ last =>
      have stepped : Deeds (fun _ _ => False) s (left (stepWith own s)) := stepWith_does own_does s
      rw [last] at stepped
      exact state _ .returned (closes s' v (deeds s s' stepped (ran s before)))
  | @failed e s s' _ before _ last =>
      have stepped : Deeds (fun _ _ => False) s (left (stepWith own s)) := stepWith_does own_does s
      rw [last] at stepped
      exact deeds s' _ (.raise e) (deeds s s' stepped (ran s before))

theorem new_accounted (config : MachineConfig) : (Machine.new config).Accounted where
  intact := (new_safe config).toIntact
  account := by
    refine ⟨(new_secure config).ledger,rfl,?_,fun id free => by cases free⟩
    intro id lasts
    have inside : id < fixedRoots := by
      simp only [Ledger.lasting,typeRoot,typeRootCount,fixedRoots,List.mem_range'_1] at lasts ⊢
      omega
    exact ⟨.null,by simp [Machine.new,inside]⟩
  locals := fun frame member => (Array.not_mem_empty frame member).elim

theorem Accounted.run (accounted : m.Accounted) (budget : Nat) : (m.run budget).2.Accounted := by
  refine (m.run_ends budget).keeps (fun _ _ deeds => deeds.accounted) (fun _ _ before => before.same rfl rfl rfl) ?_ accounted
  intro s v before
  refine before.rebooked (by constructor <;> rfl) (before.account.setLasting v (by decide)) before.locals

theorem Hosted.accounted (hosted : Hosted (·.roots = false) m) : m.Accounted := by
  induction hosted with
  | new config => exact new_accounted config
  | @call m call apart _ ih =>
      obtain ⟨roots,freeRoots,anchored⟩ := Heap.Call.rooted apart m.heap
      exact ih.onHeap ((call.steps m.heap).intact ih.intact) roots freeRoots (anchored ih.intact)
  | feed | register => rename_i ih; exact ih.same rfl rfl rfl
  | reset functions _ ih => exact ih.reset functions
  | @step m _ ih => exact (step_does m).accounted ih
  | run budget _ ih => exact ih.run budget

theorem run_grounded (grounded : m.heap.Grounded) (budget : Nat) : (m.run budget).2.heap.Grounded := by
  have instructions : ∀ s s' : Machine, Deeds (fun _ _ => False) s s' → s.heap.Grounded → s'.heap.Grounded :=
    fun s s' deeds before => (deeds.level before).grounded before
  refine (m.run_ends budget).keeps instructions (fun _ _ before => before) ?_ grounded
  exact fun s v before => (s.heap.setRoot_level resultRoot v).grounded before

theorem Hosted.grounded (hosted : Hosted calls m) : m.heap.Grounded := by
  induction hosted with
  | new config => exact List.pairwise_singleton _ _
  | @call m call _ _ ih => exact call.grounded ih
  | feed | register => assumption
  | reset functions _ ih => exact reset_grounded functions ih
  | @step m _ ih => exact ((step_does m).level ih).grounded ih
  | run budget _ ih => exact run_grounded ih budget

-- Protected values and scopes change through the four calls made for it and through nothing else:
-- whatever the state and the arguments, no other operation of the heap, no native function and no
-- instruction leaves anything protected, releases what it did not protect, or leaves a scope open.
theorem protected_untouched : (∀ h, Heap.Reachable h → h.Grounded) ∧ (∀ m : Machine, Hosted (fun _ => True) m → m.heap.Grounded) ∧
    (∀ (h : Heap) (call : Heap.Call), h.Grounded → call.scopes = false → Heap.Balanced h (call.run h)) ∧
    ∀ m : Machine, m.heap.Grounded →
      (∀ intrinsic arg, Heap.Balanced m.heap (left (runIntrinsic intrinsic arg m)).heap) ∧
      (∀ op word, Heap.Balanced m.heap (left (perform op word m)).heap) ∧ Heap.Balanced m.heap (left (step m)).heap := by
  refine ⟨fun h => Heap.Reachable.grounded,fun m => Hosted.grounded,fun h call grounded apart => ?_,fun m grounded => ⟨?_,?_,?_⟩⟩
  · exact Heap.Call.balanced apart grounded
  · exact fun intrinsic arg => ((runIntrinsic_does intrinsic arg m).level grounded).toBalanced
  · exact fun op word => ((perform_does op word m).level grounded).toBalanced
  · exact ((step_does m).level grounded).toBalanced

-- A list of two lists, with memory for the copy of one of them. In the scope of a caller that has
-- protected it, the frozen copy fails half way.
theorem protected_untouched_half_way : ∃ h, Heap.Reachable h ∧ h.shadow = [.list ⟨2,0⟩,.list ⟨2,0⟩] ∧ h.scopes = [1] ∧ h.live = 3 ∧
    (match Heap.frozenCopy (.list ⟨2,0⟩) h with | .ok _ s => (none,s.live) | .error e s => (some e,s.live)) = (some (.outOfMemory 88),5) ∧
    Heap.Balanced h ((Heap.Call.frozenCopy (.list ⟨2,0⟩)).run h) ∧
    Heap.Balanced h (left (runIntrinsic .frozenCopy (fun _ => .list ⟨2,0⟩) { Machine.new {} with heap := h })).heap := by
  have inner := Heap.Reachable.call (.newList 0) (.call (.newList 0) (.new { maxBytes := some 520 }))
  have outer := Heap.Reachable.call (.protect (.list ⟨2,0⟩)) (.call (.newListOf #[.list ⟨0,0⟩,.list ⟨1,0⟩] 2) inner)
  have reachable := Heap.Reachable.call (.protect (.list ⟨2,0⟩)) (.call .pushScope outer)
  generalize whole : Heap.Call.run _ _ = h at reachable
  have grounded := protected_untouched.1 h reachable
  refine ⟨h,reachable,?_,?_,?_,?_,?_,?_⟩
  · rw [← whole]
    decide +kernel
  · rw [← whole]
    decide +kernel
  · rw [← whole]
    decide +kernel
  · rw [← whole]
    decide +kernel
  · exact protected_untouched.2.2.1 h _ grounded rfl
  · exact (protected_untouched.2.2.2 { Machine.new {} with heap := h } grounded).1 .frozenCopy _

end Machine

end RegisterMachine
