import RegisterMachine.Proofs.Machine.Accounting
import RegisterMachine.Proofs.Machine.Levels
import RegisterMachine.Proofs.Machine.Resetting

namespace RegisterMachine

namespace Machine

variable {m : Machine}

theorem unload_level (m : Machine) (functions : Array Function) : Heap.Level m.heap (m.unload functions).heap := by
  have released : Heap.Level m.heap (m.frames.foldl (fun h frame => frame.release h) m.heap) := by
    rw [← Array.foldl_toList]
    refine List.foldlRecOn (motive := fun h => Heap.Level m.heap h) m.frames.toList _ (.refl m.heap) fun h level frame _ => ?_
    exact level.trans (release_level frame h)
  unfold Machine.unload
  generalize m.frames.foldl (fun h frame => frame.release h) m.heap = h at released ⊢
  exact ((released.trans (Heap.setRoot_level _ _ _)).trans (Heap.setRoot_level _ _ _)).trans (Heap.setRoot_level _ _ _)

theorem Accounted.unload (accounted : m.Accounted) (functions : Array Function) : (m.unload functions).Accounted where
  intact := (@unload_acts (fun _ => True) functions m).intact accounted.intact
  account := by
    have released := releaseAll_books Account.bookkeeping m.frames.toList m.waiting (accounted.account.perm List.perm_append_comm)
    rw [Array.foldl_toList] at released
    unfold Machine.unload
    generalize m.frames.foldl (fun h frame => frame.release h) m.heap = h at released ⊢
    have dropped : Account h ({ m with heap := h,frames := #[] } : Machine).pinned := released.perm (.of_eq (List.append_nil _).symm)
    exact (pending_books Account.bookkeeping none dropped).setLasting .null (by decide)
  locals := fun frame member => (Array.not_mem_empty frame member).elim

-- The register file is new and the entry function has a frame, which holds nothing yet.
structure Readied (m m' : Machine) : Prop where
  heap : Heap.Tended True m.heap m'.heap
  frames : ∃ entry, m'.frames = m.frames.push { function := entry,base := 0 }
  pending : m'.pending = m.pending
  fault : m'.fault = m.fault
  errors : m'.errors = m.errors

-- The ways in which loading ends on a machine without a program. Only a missing or an empty entry
-- function is noted among the errors.
inductive Loads (m : Machine) : EStateM.Result Error Machine Unit → Prop where
  | rejected {log : Array LogLine} :
      entryFunction m = .error e { m with errors := m.errors.push ("Runtime Error: " ++ e.message),log } →
      Loads m (.error e { m with errors := m.errors.push ("Runtime Error: " ++ e.message),log })
  | halted : entryFunction m = .ok entry m → Furnished m s → Loads m (.error e s)
  | cramped : entryFunction m = .ok entry m → Furnished m s → Readied s m' → m'.state = s.state → Loads m (.error e m')
  | loaded : entryFunction m = .ok entry m → Furnished m s → Readied s m' → m'.state = .running → Loads m (.ok () m')

theorem ready_readied (m : Machine) (entry : Nat) : Readied m (m.ready entry) ∧ (m.ready entry).state = m.state := by
  unfold ready
  exact ⟨⟨(registers_tended m.heap _).trans (registers_tended _ _),⟨entry,rfl⟩,rfl,rfl,rfl⟩,rfl⟩

theorem reset_loads (functions : Array Function) (m : Machine) : Loads (m.unload functions) (reset functions m) := by
  rw [reset_reads]
  cases started : entryFunction (m.unload functions) with
  | error e s =>
      obtain ⟨_,log,rfl⟩ := entryFunction_rejects started
      exact .rejected started
  | ok entry s =>
      obtain ⟨rfl,_⟩ := entryFunction_done started
      have furnished := installIntrinsics_furnishes (m.unload functions)
      cases result : installIntrinsics (m.unload functions) with
      | error e s =>
          rw [result] at furnished
          simp only [result]
          exact .halted started furnished
      | ok _ s =>
          rw [result] at furnished
          obtain ⟨readied,state⟩ := s.ready_readied entry
          simp only [result,ensureWindow]
          generalize s.ready entry = ready at readied state ⊢
          by_cases beyond : 0 + ready.windowSize entry > ready.heap.registers.size
          · rw [if_pos beyond]
            exact .cramped started furnished readied state
          · rw [if_neg beyond]
            obtain ⟨heap,frames,pending,fault,errors⟩ := readied
            exact .loaded started furnished ⟨heap,frames,pending,fault,errors⟩ rfl

theorem Furnished.accounted (furnished : Furnished m s) (accounted : m.Accounted) (fresh : m.frames = #[]) : s.Accounted where
  intact := furnished.acts.intact accounted.intact
  account := by
    have same : s.pinned = m.pinned := by rw [pinned,pinned,waiting,waiting,furnished.pending,furnished.frames]
    rw [same]
    exact furnished.account m.pinned accounted.account
  locals := by
    rw [furnished.frames,fresh]
    exact fun frame member => (Array.not_mem_empty frame member).elim

theorem Accounted.readied (accounted : m.Accounted) (readied : Readied m s) : s.Accounted := by
  obtain ⟨intact,account,locals⟩ := accounted.tended readied.heap
  obtain ⟨entry,frames⟩ := readied.frames
  have pushed := (pinned_push { m with heap := s.heap } { function := entry,base := 0 }).symm
  have same : s.pinned = { m with heap := s.heap,frames := m.frames.push { function := entry,base := 0 } }.pinned := by
    rw [pinned,waiting,frames,readied.pending]
    rfl
  refine ⟨intact,same ▸ account.blank.blank.blank.blank.perm pushed,fun frame member => ?_⟩
  rw [frames] at member
  rcases Array.mem_push.mp member with before | new
  · exact locals frame before
  · rw [new]
    exact Or.inl rfl

theorem Loads.accounted {result : EStateM.Result Error Machine Unit} (loads : Loads m result) (accounted : m.Accounted)
    (fresh : m.frames = #[]) : (left result).Accounted := by
  cases loads with
  | rejected => exact accounted.same rfl rfl rfl
  | halted _ furnished => exact furnished.accounted accounted fresh
  | cramped _ furnished readied | loaded _ furnished readied => exact (furnished.accounted accounted fresh).readied readied

theorem Loads.grounded {result : EStateM.Result Error Machine Unit} (loads : Loads m result) (grounded : m.heap.Grounded) :
    (left result).heap.Grounded := by
  cases loads with
  | rejected => exact grounded
  | halted _ furnished => exact (furnished.nested grounded).grounded grounded
  | cramped _ furnished readied | loaded _ furnished readied => exact readied.heap.grounded ((furnished.nested grounded).grounded grounded)

theorem Accounted.reset (accounted : m.Accounted) (functions : Array Function) : (left (reset functions m)).Accounted :=
  (reset_loads functions m).accounted (accounted.unload functions) rfl

theorem reset_grounded (functions : Array Function) (grounded : m.heap.Grounded) : (left (reset functions m)).heap.Grounded :=
  (reset_loads functions m).grounded ((m.unload_level functions).grounded grounded)

end Machine

end RegisterMachine
