import RegisterMachine.Proofs.Table.Probing

namespace RegisterMachine.Table

variable {cells : Array (Option Entry)}

-- An entry at `p` reaches its home through occupied cells and, possibly, the first `done` cells
-- after `origin`; the latter only if `p` itself is among the cells from `done` up to `stop`.
def Attached (cells : Array (Option Entry)) (origin done stop p : Nat) (entry : Entry) : Prop :=
  ∃ d < cells.size, (home cells entry.hash + d) % cells.size = p ∧
    ∀ c < d, (cellAt cells ((home cells entry.hash + c) % cells.size)).isSome = true ∨
      (∃ k < done, (home cells entry.hash + c) % cells.size = (origin + k) % cells.size) ∧
      ∃ k, done ≤ k ∧ k < stop ∧ p = (origin + k) % cells.size

-- The state of the loop after `done` of the cells from `origin` up to the free cell at `stop`.
structure Loosened (cells : Array (Option Entry)) (origin done stop : Nat) : Prop where
  within : stop < cells.size
  free : cellAt cells ((origin + stop) % cells.size) = none
  rest : ∀ k, done ≤ k → k < stop → (cellAt cells ((origin + k) % cells.size)).isSome = true
  attached : ∀ p entry, cellAt cells p = some entry → Attached cells origin done stop p entry

theorem Loosened.unbroken (loose : Loosened cells origin stop stop) : Unbroken cells := by
  intro p entry found
  obtain ⟨d,bound,arrives,path⟩ := loose.attached p entry found
  refine ⟨d,bound,arrives,?_⟩
  intro c below
  rcases path c below with occupied | ⟨_,k,lower,upper,_⟩
  · exact occupied
  · omega

-- A path that passes the next cell of the loop ends in a cell that the loop has still to visit.
theorem Loosened.ahead (loose : Loosened cells origin done stop) (early : done < stop)
    (found : cellAt cells p = some entry)
    (arrives : (home cells entry.hash + d) % cells.size = p)
    (path : ∀ c < d, (cellAt cells ((home cells entry.hash + c) % cells.size)).isSome = true)
    (below : c < d) (passes : (home cells entry.hash + c) % cells.size = (origin + done) % cells.size) :
    ∃ k, done + 1 ≤ k ∧ k < stop ∧ p = (origin + k) % cells.size := by
  have short : done + (d-c) < stop := by
    by_contra long
    have meets := round_shift (stop-done) passes
    rw [Nat.add_sub_cancel' (Nat.le_of_lt early)] at meets
    have distance : c + (stop-done) ≤ d := by omega
    rcases Nat.lt_or_eq_of_le distance with inside | last
    · have occupied := path _ inside
      rw [meets,loose.free] at occupied
      cases occupied
    · rw [last,arrives] at meets
      rw [meets,loose.free] at found
      cases found
  have reaches := round_shift (d-c) passes
  rw [Nat.add_sub_cancel' (Nat.le_of_lt below),arrives] at reaches
  exact ⟨done+(d-c),by omega,short,reaches⟩

-- The next cell is emptied. Paths through it belong to entries that come later.
theorem Loosened.vacate (loose : Loosened cells origin done stop) (early : done < stop) :
    Loosened (cells.setIfInBounds ((origin + done) % cells.size) none) origin (done + 1) stop := by
  have within := loose.within
  have apart : ∀ k, done < k → k ≤ stop → (origin + done) % cells.size ≠ (origin + k) % cells.size := by
    intro k lower upper same
    have := round_injective origin (by omega) (by omega) same
    omega
  constructor
  · simpa using within
  · rw [size_set,cellAt_set_other (apart stop early (Nat.le_refl _)),loose.free]
  · intro k lower upper
    rw [size_set,cellAt_set_other (apart k (by omega) (Nat.le_of_lt upper))]
    exact loose.rest k (by omega) upper
  · intro p entry found
    have moved : p ≠ (origin + done) % cells.size := by
      rintro rfl
      rw [cellAt_set_same (Nat.mod_lt _ (by omega))] at found
      cases found
    rw [cellAt_set_other moved.symm] at found
    obtain ⟨d,bound,arrives,path⟩ := loose.attached p entry found
    simp only [Attached,home,size_set] at arrives path ⊢
    refine ⟨d,bound,arrives,?_⟩
    by_cases waiting : ∃ k, done ≤ k ∧ k < stop ∧ p = (origin + k) % cells.size
    · obtain ⟨k,lower,upper,place⟩ := waiting
      have later : done + 1 ≤ k := by
        rcases Nat.lt_or_eq_of_le lower with less | rfl
        · exact less
        · exact absurd place moved
      intro c below
      by_cases here : (origin + done) % cells.size = (entry.hash.toNat % cells.size + c) % cells.size
      · exact Or.inr ⟨⟨done,Nat.lt_succ_self _,here.symm⟩,k,later,upper,place⟩
      · rw [cellAt_set_other here]
        rcases path c below with occupied | ⟨⟨j,less,hole⟩,_⟩
        · exact Or.inl occupied
        · exact Or.inr ⟨⟨j,Nat.lt_succ_of_lt less,hole⟩,k,later,upper,place⟩
    · have occupied : ∀ c < d, (cellAt cells ((home cells entry.hash + c) % cells.size)).isSome = true :=
        fun c below => (path c below).resolve_right fun hole => waiting hole.2
      intro c below
      by_cases here : (origin + done) % cells.size = (entry.hash.toNat % cells.size + c) % cells.size
      · obtain ⟨k,lower,upper,place⟩ := loose.ahead early found arrives occupied below here.symm
        exact absurd ⟨k,Nat.le_of_succ_le lower,upper,place⟩ waiting
      · rw [cellAt_set_other here]
        exact Or.inl (occupied c below)

-- The entry taken out is placed in a cell that was emptied, at the latest in its own.
theorem Loosened.refill (loose : Loosened cells origin done stop) (early : done < stop)
    (found : cellAt cells ((origin + done) % cells.size) = some entry) :
    Loosened (place (cells.setIfInBounds ((origin + done) % cells.size) none) entry) origin (done + 1) stop := by
  have within := loose.within
  have vacated := loose.vacate early
  obtain ⟨d,bound,arrives,path⟩ := loose.attached _ _ found
  have own : cellAt (cells.setIfInBounds ((origin + done) % cells.size) none) ((origin + done) % cells.size) = none :=
    cellAt_set_same (Nat.mod_lt _ (by omega))
  generalize emptied : cells.setIfInBounds ((origin + done) % cells.size) none = left at vacated own ⊢
  have size : left.size = cells.size := by rw [← emptied,size_set]
  obtain ⟨e,ebound,target,free,run⟩ := freeCell_home entry
    ⟨_,by rw [size]; exact Nat.mod_lt _ (by omega),own⟩
  simp only [home,size] at target free run arrives path own
  -- The first free cell comes no later than the cell that the entry leaves.
  have first : e ≤ d := by
    by_contra late
    have occupied := run d (by omega)
    rw [size,arrives,own] at occupied
    cases occupied
  have emptiedCell : ∃ k ≤ done, (entry.hash.toNat % cells.size + e) % cells.size = (origin + k) % cells.size := by
    rcases Nat.lt_or_eq_of_le first with less | rfl
    · rcases path e less with occupied | ⟨⟨k,lower,hole⟩,_⟩
      · by_cases here : (origin + done) % cells.size = (entry.hash.toNat % cells.size + e) % cells.size
        · exact ⟨done,Nat.le_refl _,here.symm⟩
        · rw [← emptied,cellAt_set_other here] at free
          rw [free] at occupied
          cases occupied
      · exact ⟨k,Nat.le_of_lt lower,hole⟩
    · exact ⟨done,Nat.le_refl _,arrives⟩
  obtain ⟨k,behind,position⟩ := emptiedCell
  have apart : ∀ j, done < j → j ≤ stop →
      (entry.hash.toNat % cells.size + e) % cells.size ≠ (origin + j) % cells.size := by
    intro j lower upper same
    rw [position] at same
    have := round_injective origin (by omega) (by omega) same
    omega
  have inside : (entry.hash.toNat % cells.size + e) % cells.size < left.size := by
    rw [size]; exact Nat.mod_lt _ (by omega)
  simp only [place,home,size,target]
  constructor
  · simpa [size] using within
  · rw [size_set,size,cellAt_set_other (apart stop early (Nat.le_refl _)),← size]
    exact vacated.free
  · intro j lower upper
    rw [size_set,size,cellAt_set_other (apart j (by omega) (Nat.le_of_lt upper)),← size]
    exact vacated.rest j lower upper
  · intro p other present
    by_cases here : (entry.hash.toNat % cells.size + e) % cells.size = p
    · subst p
      rw [cellAt_set_same inside] at present
      cases present
      refine ⟨e,by simpa [size] using ebound,by simp only [home,size_set,size],?_⟩
      intro c below
      refine Or.inl ?_
      have filled : Run (left.setIfInBounds _ (some entry)) _ e := run_fill free run
      simpa only [home,size_set,size] using filled c below
    · rw [cellAt_set_other here] at present
      obtain ⟨b,within',reaches,way⟩ := vacated.attached p other present
      refine ⟨b,by simpa using within',by simpa only [home,size_set] using reaches,?_⟩
      intro c below
      simp only [home,size_set]
      by_cases same : (entry.hash.toNat % cells.size + e) % cells.size = (other.hash.toNat % left.size + c) % left.size
      · rw [← same,cellAt_set_same inside]; exact Or.inl rfl
      · rw [cellAt_set_other same]
        simpa only [home] using way c below

-- The loop without a bound on its steps: it goes on as long as it meets an entry.
inductive Restored : Array (Option Entry) → Nat → Array (Option Entry) → Prop where
  | stop {table : Array (Option Entry)} : cellAt table i = none → Restored table i table
  | move {table : Array (Option Entry)} : cellAt table i = some entry →
      Placed (table.setIfInBounds i none) entry middle →
      Restored middle (next table i) out → Restored table i out

theorem contents_move (found : cellAt cells i = some entry) :
    (contents (place (cells.setIfInBounds i none) entry)).Perm (contents cells) := by
  have removed := contents_vacate found
  have shorter := removed.length_eq
  have bound := contents_length_le cells
  rw [List.length_cons] at shorter
  have room : (contents (cells.setIfInBounds i none)).length < (cells.setIfInBounds i none).size := by
    rw [size_set]; omega
  exact (contents_place entry room).trans removed.symm

-- The bounded loop runs to the end of the run, and mends what the removal broke.
theorem restore_mends (steps : Nat) (loose : Loosened cells origin done stop) (order : done ≤ stop)
    (enough : stop - done ≤ steps) :
    let out := restore steps cells ((origin + done) % cells.size)
    Restored cells ((origin + done) % cells.size) out ∧ Unbroken out ∧ out.size = cells.size ∧
      (contents out).Perm (contents cells) := by
  induction steps generalizing cells done with
  | zero =>
      have finished : done = stop := by omega
      subst done
      exact ⟨.stop loose.free,loose.unbroken,rfl,List.Perm.refl _⟩
  | succ steps ih =>
      rcases Nat.lt_or_eq_of_le order with early | rfl
      · obtain ⟨entry,found⟩ := Option.isSome_iff_exists.mp (loose.rest done (Nat.le_refl _) early)
        have moved := loose.refill early found
        have size : (place (cells.setIfInBounds ((origin + done) % cells.size) none) entry).size = cells.size := by
          rw [size_place,size_set]
        have following : next cells ((origin + done) % cells.size) = (origin + (done + 1)) % cells.size := by
          simp only [next,Nat.mod_add_mod,Nat.add_assoc]
        obtain ⟨loop,unbroken,same,listed⟩ := ih moved early (by omega)
        rw [size] at loop unbroken same listed
        have within := loose.within
        have inside : (origin + done) % cells.size < cells.size := Nat.mod_lt _ (by omega)
        have hole : ∃ p < (cells.setIfInBounds ((origin + done) % cells.size) none).size,
            cellAt (cells.setIfInBounds ((origin + done) % cells.size) none) p = none :=
          ⟨_,by rwa [size_set],cellAt_set_same inside⟩
        simp only [restore,found,following]
        refine ⟨.move found (place_placed entry hole) ?_,unbroken,same,listed.trans (contents_move found)⟩
        rw [following]
        exact loop
      · have ended := loose.free
        simp only [restore,ended]
        exact ⟨.stop ended,loose.unbroken,by simp,by simp⟩

theorem remove_mends (unbroken : Unbroken cells) (found : cellAt cells i = some entry)
    (hole : ∃ p < cells.size, cellAt cells p = none) :
    let left := cells.setIfInBounds i none
    let out := restore left.size left (next left i)
    Restored left (next left i) out ∧ Unbroken out ∧ out.size = cells.size ∧
      (contents cells).Perm (entry :: contents out) := by
  have inside := cellAt_lt found
  have here : (i + 0) % cells.size = i := by rw [Nat.add_zero,Nat.mod_eq_of_lt inside]
  obtain ⟨p,bound,empty⟩ := hole
  obtain ⟨b,less,distance⟩ := round_reaches (Nat.mod_lt (i+1) (show 0 < cells.size by omega)) bound
  obtain ⟨d,below,_,free,run⟩ := freeCell_first cells.size ((i+1) % cells.size) (Nat.mod_lt _ (by omega))
    ⟨b,less,by rw [distance,empty]⟩
  -- The free cell that ends the run is not the removed one, so less than a round away.
  have short : d + 1 < cells.size := by
    by_contra long
    have last : d + 1 = cells.size := by omega
    rw [round_next,last,Nat.add_mod_right,Nat.mod_eq_of_lt inside,found] at free
    cases free
  have start : Loosened cells i 0 (d+1) := by
    refine ⟨short,by rw [← round_next,free],?_,?_⟩
    · intro k _ upper
      rcases Nat.eq_zero_or_pos k with rfl | positive
      · rw [here,found]; rfl
      · have occupied := run (k-1) (by omega)
        rwa [round_next,Nat.sub_add_cancel positive] at occupied
    · intro q other present
      obtain ⟨c,within,arrives,path⟩ := unbroken q other present
      exact ⟨c,within,arrives,fun k less => Or.inl (path k less)⟩
  have loose := start.vacate (Nat.succ_pos d)
  rw [here] at loose
  have size : (cells.setIfInBounds i none).size = cells.size := size_set _ _ _
  obtain ⟨loop,mended,same,listed⟩ := restore_mends cells.size loose (by omega) (by omega)
  have following : next (cells.setIfInBounds i none) i = (i + (0 + 1)) % (cells.setIfInBounds i none).size := by
    simp only [next,Nat.zero_add]
  simp only [following]
  rw [size] at loop mended same listed ⊢
  exact ⟨loop,mended,same,(contents_vacate found).trans (listed.symm.cons entry)⟩

end RegisterMachine.Table
