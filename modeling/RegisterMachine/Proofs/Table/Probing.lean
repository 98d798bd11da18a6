import RegisterMachine.Heap.Table
import Mathlib.Data.List.Perm.Basic
import Mathlib.Data.Nat.ModEq

namespace RegisterMachine.Table

variable {cells : Array (Option Entry)}

-- Cyclic positions. Within one round, different distances lead to different cells.
theorem round_injective {n a b : Nat} (g : Nat) (ha : a < n) (hb : b < n)
    (same : (g + a) % n = (g + b) % n) : a = b := by
  have congruent : a ≡ b [MOD n] := Nat.ModEq.add_left_cancel' g same
  exact Nat.ModEq.eq_of_lt_of_lt congruent ha hb

theorem round_shift {n g b a k : Nat} (t : Nat) (same : (g + a) % n = (b + k) % n) :
    (g + (a + t)) % n = (b + (k + t)) % n := by
  have shifted : g + a + t ≡ b + k + t [MOD n] := Nat.ModEq.add_right t same
  rwa [Nat.add_assoc,Nat.add_assoc] at shifted

theorem round_next (n i c : Nat) : ((i + 1) % n + c) % n = (i + (c + 1)) % n := by
  rw [Nat.mod_add_mod,Nat.add_assoc,Nat.add_comm 1 c]

theorem round_reaches {n i j : Nat} (hi : i < n) (hj : j < n) : ∃ d < n, (i + d) % n = j := by
  by_cases order : i ≤ j
  · refine ⟨j-i,by omega,?_⟩
    rw [Nat.add_sub_cancel' order,Nat.mod_eq_of_lt hj]
  · refine ⟨n-i+j,by omega,?_⟩
    rw [show i + (n-i+j) = j + n by omega,Nat.add_mod_right,Nat.mod_eq_of_lt hj]

-- The first `d` cells from `i` on are occupied.
def Run (cells : Array (Option Entry)) (i d : Nat) : Prop :=
  ∀ c < d, (cellAt cells ((i + c) % cells.size)).isSome = true

theorem home_lt (positive : 0 < cells.size) (hash : UInt32) : home cells hash < cells.size :=
  Nat.mod_lt _ positive

theorem cellAt_lt (found : cellAt cells i = some entry) : i < cells.size := by
  by_contra outside
  simp [cellAt,Array.getD,outside] at found

theorem cellAt_eq (inside : i < cells.size) : cellAt cells i = cells[i] := by
  simp [cellAt,Array.getD,inside]

@[simp] theorem size_set (cells : Array (Option Entry)) (i : Nat) (cell : Option Entry) :
    (cells.setIfInBounds i cell).size = cells.size := Array.size_setIfInBounds

theorem cellAt_set_same (inside : i < cells.size) : cellAt (cells.setIfInBounds i cell) i = cell := by
  simp [cellAt,Array.getD,inside]

theorem cellAt_set_other (other : i ≠ j) : cellAt (cells.setIfInBounds i cell) j = cellAt cells j := by
  simp only [cellAt,Array.getD_eq_getD_getElem?,Array.getElem?_setIfInBounds_ne other]

theorem freeCell_first (steps i : Nat) (hi : i < cells.size)
    (hole : ∃ d < steps, cellAt cells ((i + d) % cells.size) = none) :
    ∃ d < steps, freeCell cells steps i = (i + d) % cells.size ∧
      cellAt cells ((i + d) % cells.size) = none ∧ Run cells i d := by
  induction steps generalizing i with
  | zero => obtain ⟨_,impossible,_⟩ := hole; exact absurd impossible (Nat.not_lt_zero _)
  | succ steps ih =>
      have here : (i + 0) % cells.size = i := by rw [Nat.add_zero,Nat.mod_eq_of_lt hi]
      cases found : cellAt cells i with
      | none =>
          refine ⟨0,Nat.succ_pos _,?_,?_,?_⟩
          · simp only [freeCell,found,here]
          · rw [here,found]
          · intro c bound; exact absurd bound (Nat.not_lt_zero _)
      | some entry =>
          obtain ⟨d,bound,empty⟩ := hole
          have ahead : 0 < d := by
            rcases Nat.eq_zero_or_pos d with rfl | positive
            · rw [here,found] at empty; cases empty
            · exact positive
          have inside : (i + 1) % cells.size < cells.size := Nat.mod_lt _ (by omega)
          have later : ∃ d < steps, cellAt cells (((i + 1) % cells.size + d) % cells.size) = none := by
            refine ⟨d-1,by omega,?_⟩
            rw [round_next,Nat.sub_add_cancel ahead,empty]
          obtain ⟨d,bound,stop,free,run⟩ := ih _ inside later
          refine ⟨d+1,by omega,?_,?_,?_⟩
          · simp only [freeCell,found,next]
            rw [stop,round_next]
          · rw [← round_next,free]
          · intro c below
            rcases Nat.eq_zero_or_pos c with rfl | positive
            · rw [here,found]; rfl
            · have earlier := run (c-1) (by omega)
              rwa [round_next,Nat.sub_add_cancel positive] at earlier

theorem freeCell_home (entry : Entry) (hole : ∃ p < cells.size, cellAt cells p = none) :
    ∃ d < cells.size, freeCell cells cells.size (home cells entry.hash) =
        (home cells entry.hash + d) % cells.size ∧
      cellAt cells ((home cells entry.hash + d) % cells.size) = none ∧
      Run cells (home cells entry.hash) d := by
  obtain ⟨p,inside,empty⟩ := hole
  have start := @home_lt cells (by omega) entry.hash
  obtain ⟨d,bound,distance⟩ := round_reaches start inside
  exact freeCell_first _ _ start ⟨d,bound,by rw [distance,empty]⟩

-- The search without a bound on its steps: it goes on as long as it meets an entry.
inductive Probed (cells : Array (Option Entry)) : Nat → Nat → Prop where
  | stop : cellAt cells i = none → Probed cells i i
  | on : (cellAt cells i).isSome = true → Probed cells (next cells i) j → Probed cells i j

theorem probed_run (hi : i < cells.size) (run : Run cells i d) (free : cellAt cells ((i + d) % cells.size) = none) :
    Probed cells i ((i + d) % cells.size) := by
  induction d generalizing i with
  | zero =>
      rw [Nat.add_zero,Nat.mod_eq_of_lt hi] at free ⊢
      exact .stop free
  | succ d ih =>
      have first := run 0 (Nat.succ_pos _)
      rw [Nat.add_zero,Nat.mod_eq_of_lt hi] at first
      rw [← round_next] at free ⊢
      refine .on first (ih (Nat.mod_lt _ (by omega)) ?_ free)
      intro c below
      have later := run (c+1) (Nat.succ_lt_succ below)
      rwa [← round_next] at later

-- An entry put where the unbounded search from its home ends.
def Placed (cells : Array (Option Entry)) (entry : Entry) (out : Array (Option Entry)) : Prop :=
  ∃ j, Probed cells (home cells entry.hash) j ∧ out = cells.setIfInBounds j (some entry)

theorem place_placed (entry : Entry) (hole : ∃ p < cells.size, cellAt cells p = none) :
    Placed cells entry (place cells entry) := by
  obtain ⟨d,bound,stop,free,run⟩ := freeCell_home entry hole
  exact ⟨_,probed_run (home_lt (by omega) _) run free,by rw [place,stop]⟩

-- Each entry can be reached from its home without meeting a free cell.
def Unbroken (cells : Array (Option Entry)) : Prop :=
  ∀ p entry, cellAt cells p = some entry → ∃ d < cells.size,
    (home cells entry.hash + d) % cells.size = p ∧ Run cells (home cells entry.hash) d

theorem unbroken_empty (n : Nat) : Unbroken (Array.replicate n none) := by
  intro p entry found
  have inside : p < n := by simpa using cellAt_lt found
  simp [cellAt,Array.getD,inside] at found

-- Filling a free cell keeps every run.
theorem run_fill (free : cellAt cells f = none) (run : Run cells i d) :
    Run (cells.setIfInBounds f (some entry)) i d := by
  intro c bound
  have occupied := run c bound
  rw [size_set]
  by_cases here : f = (i + c) % cells.size
  · rw [← here,free] at occupied; cases occupied
  · rw [cellAt_set_other here]; exact occupied

theorem place_unbroken (entry : Entry) (unbroken : Unbroken cells)
    (hole : ∃ p < cells.size, cellAt cells p = none) : Unbroken (place cells entry) := by
  obtain ⟨d,bound,stop,free,run⟩ := freeCell_home entry hole
  have inside : (home cells entry.hash + d) % cells.size < cells.size := Nat.mod_lt _ (by omega)
  intro p other found
  simp only [place,stop] at found ⊢
  simp only [home,size_set]
  by_cases here : (home cells entry.hash + d) % cells.size = p
  · subst p
    rw [cellAt_set_same inside] at found
    cases found
    exact ⟨d,bound,rfl,run_fill free run⟩
  · rw [cellAt_set_other here] at found
    obtain ⟨e,ebound,arrives,path⟩ := unbroken p other found
    exact ⟨e,ebound,arrives,run_fill free path⟩

-- The entries of a table in the order of their cells.
def contents (cells : Array (Option Entry)) : List Entry := cells.toList.filterMap id

private theorem listed_set_none (list : List (Option Entry)) (i : Nat) (found : list[i]? = some (some entry)) :
    (list.filterMap id).Perm (entry :: (list.set i none).filterMap id) := by
  induction list generalizing i with
  | nil => simp at found
  | cons head rest ih =>
      cases i with
      | zero =>
          have first : head = some entry := by simpa using found
          simp [first]
      | succ i =>
          have later := ih i (by simpa using found)
          cases head with
          | none => simpa using later
          | some other =>
              simp only [List.set_cons_succ,List.filterMap_cons,id]
              exact (later.cons other).trans (List.Perm.swap _ _ _)

private theorem listed_set_some (list : List (Option Entry)) (i : Nat) (found : list[i]? = some none) :
    ((list.set i (some entry)).filterMap id).Perm (entry :: list.filterMap id) := by
  induction list generalizing i with
  | nil => simp at found
  | cons head rest ih =>
      cases i with
      | zero =>
          have first : head = none := by simpa using found
          simp [first]
      | succ i =>
          have later := ih i (by simpa using found)
          cases head with
          | none => simpa using later
          | some other =>
              simp only [List.set_cons_succ,List.filterMap_cons,id]
              exact (later.cons other).trans (List.Perm.swap _ _ _)

theorem contents_vacate (found : cellAt cells i = some entry) :
    (contents cells).Perm (entry :: contents (cells.setIfInBounds i none)) := by
  have inside := cellAt_lt found
  rw [cellAt_eq inside] at found
  simpa [contents] using listed_set_none cells.toList i (by simp [inside,found])

theorem contents_fill (inside : i < cells.size) (free : cellAt cells i = none) :
    (contents (cells.setIfInBounds i (some entry))).Perm (entry :: contents cells) := by
  rw [cellAt_eq inside] at free
  simpa [contents] using listed_set_some cells.toList i (by simp [inside,free])

theorem mem_contents : entry ∈ contents cells ↔ ∃ i, cellAt cells i = some entry := by
  constructor
  · intro member
    obtain ⟨cell,present,some⟩ := List.mem_filterMap.mp member
    obtain ⟨i,inside,equal⟩ := List.mem_iff_getElem.mp present
    have bound : i < cells.size := by simpa using inside
    refine ⟨i,?_⟩
    rw [cellAt_eq bound]
    simpa [← equal] using some
  · rintro ⟨i,found⟩
    have inside := cellAt_lt found
    rw [cellAt_eq inside] at found
    refine List.mem_filterMap.mpr ⟨some entry,?_,rfl⟩
    rw [← found]
    exact Array.getElem_mem_toList inside

@[simp] theorem contents_empty (n : Nat) : contents (Array.replicate n none) = [] := by
  simp [contents]

theorem contents_length_le (cells : Array (Option Entry)) : (contents cells).length ≤ cells.size := by
  have bound := List.length_filterMap_le id cells.toList
  simpa [contents] using bound

theorem exists_free (room : (contents cells).length < cells.size) : ∃ p < cells.size, cellAt cells p = none := by
  by_contra full
  have occupied : ∀ cell ∈ cells.toList, ∃ entry, cell = some entry := by
    intro cell member
    obtain ⟨i,inside,equal⟩ := List.mem_iff_getElem.mp member
    have bound : i < cells.size := by simpa using inside
    cases cell with
    | some entry => exact ⟨entry,rfl⟩
    | none => exact absurd ⟨i,bound,by rw [cellAt_eq bound]; simpa using equal⟩ full
  have all : (contents cells).length = cells.toList.length := by
    unfold contents
    apply List.filterMap_length_eq_length.mpr
    intro cell member
    obtain ⟨entry,rfl⟩ := occupied cell member
    rfl
  rw [all,Array.length_toList] at room
  exact absurd room (Nat.lt_irrefl _)

@[simp] theorem size_place (cells : Array (Option Entry)) (entry : Entry) :
    (place cells entry).size = cells.size := by simp [place]

theorem contents_place (entry : Entry) (room : (contents cells).length < cells.size) :
    (contents (place cells entry)).Perm (entry :: contents cells) := by
  obtain ⟨d,bound,stop,free,_⟩ := freeCell_home entry (exists_free room)
  simp only [place,stop]
  exact contents_fill (Nat.mod_lt _ (by omega)) free

-- Entries placed one after the other, each where its own search ends.
inductive PlacedAll : Array (Option Entry) → List Entry → Array (Option Entry) → Prop where
  | nil {table : Array (Option Entry)} : PlacedAll table [] table
  | cons {table : Array (Option Entry)} :
      Placed table entry middle → PlacedAll middle rest out → PlacedAll table (entry :: rest) out

theorem placeAll (entries : List Entry) (unbroken : Unbroken cells)
    (room : (contents cells).length + entries.length ≤ cells.size) :
    PlacedAll cells entries (entries.foldl place cells) ∧ Unbroken (entries.foldl place cells) ∧
      (entries.foldl place cells).size = cells.size ∧
      (contents (entries.foldl place cells)).Perm (entries ++ contents cells) := by
  induction entries generalizing cells with
  | nil => exact ⟨.nil,unbroken,rfl,List.Perm.refl _⟩
  | cons entry rest ih =>
      simp only [List.length_cons] at room
      have space : (contents cells).length < cells.size := by omega
      have placed := contents_place entry space
      have remaining : (contents (place cells entry)).length + rest.length ≤ (place cells entry).size := by
        rw [placed.length_eq,size_place,List.length_cons]; omega
      have hole := exists_free space
      obtain ⟨path,kept,size,listed⟩ := ih (place_unbroken entry unbroken hole) remaining
      rw [List.foldl_cons]
      refine ⟨.cons (place_placed entry hole) path,kept,by rw [size,size_place],?_⟩
      exact (listed.trans (placed.append_left rest)).trans List.perm_middle

end RegisterMachine.Table
