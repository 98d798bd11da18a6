import RegisterMachine.Proofs.Table.Removal

namespace RegisterMachine.Table

variable {cells : Array (Option Entry)} {hash : UInt32}

structure Valid (t : Table) : Prop where
  power : ∃ k, 3 ≤ k ∧ t.cells.size = Nat.pow 2 k
  counted : t.count = (contents t.cells).length
  load : t.count * 4 ≤ t.cells.size * 3
  unbroken : Unbroken t.cells

theorem Valid.size_ge (valid : Valid t) : 8 ≤ t.cells.size := by
  obtain ⟨k,least,size⟩ := valid.power
  rw [size]
  exact Nat.pow_le_pow_right Nat.two_pos least

theorem Valid.room (valid : Valid t) : (contents t.cells).length < t.cells.size := by
  have counted := valid.counted
  have load := valid.load
  have size := valid.size_ge
  omega

theorem Valid.of_same (valid : Valid t) (cells : other.cells = t.cells) (count : other.count = t.count) :
    Valid other := by
  refine ⟨?_,?_,?_,?_⟩
  · rw [cells]; exact valid.power
  · rw [cells,count]; exact valid.counted
  · rw [cells,count]; exact valid.load
  · rw [cells]; exact valid.unbroken

theorem cellsFor_power (wanted : Nat) : ∃ k, 3 ≤ k ∧ cellsFor wanted = Nat.pow 2 k := by
  unfold cellsFor
  split
  · exact ⟨3,Nat.le_refl _,rfl⟩
  · refine ⟨(wanted-1).log2 + 1,?_,rfl⟩
    have large : 8 ≤ wanted - 1 := by omega
    have exponent : 3 ≤ (wanted-1).log2 := (Nat.le_log2 (by omega)).mpr large
    omega

theorem withCapacity_valid (wanted : Nat) : Valid (withCapacity wanted) := by
  refine ⟨?_,?_,?_,?_⟩
  · simpa [withCapacity] using cellsFor_power wanted
  · simp [withCapacity]
  · simp [withCapacity]
  · exact unbroken_empty _

theorem grow_placed (valid : Valid t) :
    PlacedAll (Array.replicate (t.cells.size * 2) none) t.entries t.grow.cells ∧ Unbroken t.grow.cells ∧
      t.grow.cells.size = t.cells.size * 2 ∧ (contents t.grow.cells).Perm (contents t.cells) := by
  have room : (contents (Array.replicate (t.cells.size * 2) none)).length + t.entries.length ≤
      (Array.replicate (t.cells.size * 2) (none : Option Entry)).size := by
    have bound := valid.room
    simp only [contents_empty,List.length_nil,Array.size_replicate]
    change 0 + (contents t.cells).length ≤ _
    omega
  obtain ⟨path,unbroken,size,listed⟩ := placeAll t.entries (unbroken_empty (t.cells.size * 2)) room
  refine ⟨path,unbroken,by simpa [grow] using size,?_⟩
  rw [contents_empty,List.append_nil] at listed
  exact listed

theorem grow_valid (valid : Valid t) : Valid t.grow := by
  obtain ⟨_,unbroken,size,listed⟩ := grow_placed valid
  have load := valid.load
  refine ⟨?_,?_,?_,unbroken⟩
  · obtain ⟨k,least,power⟩ := valid.power
    refine ⟨k+1,Nat.le_succ_of_le least,?_⟩
    rw [size,power]
    rfl
  · rw [listed.length_eq,← valid.counted]; rfl
  · change t.count * 4 ≤ t.grow.cells.size * 3
    omega

-- The table that takes a new entry: grown first when the entry would fill it too far.
def roomy (t : Table) : Table := if t.needsGrowth then t.grow else t

theorem roomy_valid (valid : Valid t) : Valid t.roomy := by
  unfold roomy
  split
  · exact grow_valid valid
  · exact valid

theorem roomy_contents (valid : Valid t) : (contents t.roomy.cells).Perm (contents t.cells) := by
  unfold roomy
  split
  · exact (grow_placed valid).2.2.2
  · exact List.Perm.refl _

theorem roomy_load (valid : Valid t) : (t.roomy.count + 1) * 4 ≤ t.roomy.cells.size * 3 := by
  have size := valid.size_ge
  have load := valid.load
  unfold roomy
  split
  · have doubled := (grow_placed valid).2.2.1
    change (t.count + 1) * 4 ≤ t.grow.cells.size * 3
    omega
  · rename_i small
    simpa [needsGrowth] using small

theorem insertNew_roomy (t : Table) (entry : Entry) :
    t.insertNew entry = { t.roomy with cells := place t.roomy.cells entry, count := t.roomy.count + 1 } := rfl

theorem insertNew_contents (entry : Entry) (valid : Valid t) :
    (contents (t.insertNew entry).cells).Perm (entry :: contents t.cells) := by
  rw [insertNew_roomy]
  exact (contents_place entry (roomy_valid valid).room).trans ((roomy_contents valid).cons entry)

theorem insertNew_parts (entry : Entry) (valid : Valid t) :
    (t.insertNew entry).cells.size = (if t.needsGrowth then 2 * t.cells.size else t.cells.size) ∧
      (t.insertNew entry).resizes = (if t.needsGrowth then t.resizes + 1 else t.resizes) ∧
      (t.insertNew entry).frozen = t.frozen ∧ (t.insertNew entry).aliases = t.aliases := by
  rw [insertNew_roomy,size_place]
  unfold roomy
  split
  · exact ⟨by rw [(grow_placed valid).2.2.1,Nat.mul_comm],rfl,rfl,rfl⟩
  · exact ⟨rfl,rfl,rfl,rfl⟩

theorem size_insertNew {t : Table} (entry : Entry) (roomy : t.needsGrowth = false) : (t.insertNew entry).cells.size = t.cells.size := by
  simp [insertNew,roomy]

theorem insertNew_valid (entry : Entry) (valid : Valid t) : Valid (t.insertNew entry) := by
  have grown := roomy_valid valid
  have room := grown.room
  rw [insertNew_roomy]
  refine ⟨?_,?_,?_,place_unbroken entry grown.unbroken (exists_free room)⟩
  · simpa using grown.power
  · rw [(contents_place entry room).length_eq,List.length_cons,← grown.counted]
  · simpa using roomy_load valid

theorem search_ends (hash : UInt32) (isKey : Value → Bool) (steps i : Nat) (hi : i < cells.size)
    (hole : ∃ d < steps, cellAt cells ((i + d) % cells.size) = none) :
    ∃ d < steps,
      (∀ c < d, ∃ entry, cellAt cells ((i + c) % cells.size) = some entry ∧ (entry.hash == hash && isKey entry.key) = false) ∧
      ((cellAt cells ((i + d) % cells.size) = none ∧ search cells hash isKey steps i = none) ∨
       ∃ entry, cellAt cells ((i + d) % cells.size) = some entry ∧ (entry.hash == hash && isKey entry.key) = true ∧
         search cells hash isKey steps i = some ((i + d) % cells.size)) := by
  induction steps generalizing i with
  | zero => obtain ⟨_,impossible,_⟩ := hole; exact absurd impossible (Nat.not_lt_zero _)
  | succ steps ih =>
      have here : (i + 0) % cells.size = i := by rw [Nat.add_zero,Nat.mod_eq_of_lt hi]
      cases found : cellAt cells i with
      | none =>
          refine ⟨0,Nat.succ_pos _,fun c below => absurd below (Nat.not_lt_zero _),Or.inl ⟨?_,?_⟩⟩
          · rw [here,found]
          · simp only [search,found]
      | some entry =>
          cases test : (entry.hash == hash && isKey entry.key) with
          | true =>
              refine ⟨0,Nat.succ_pos _,fun c below => absurd below (Nat.not_lt_zero _),Or.inr ⟨entry,?_,test,?_⟩⟩
              · rw [here,found]
              · rw [here]
                simp only [search,found,test,if_true]
          | false =>
              obtain ⟨d,bound,empty⟩ := hole
              have ahead : 0 < d := by
                rcases Nat.eq_zero_or_pos d with rfl | positive
                · rw [here,found] at empty; cases empty
                · exact positive
              have later : ∃ d < steps, cellAt cells (((i + 1) % cells.size + d) % cells.size) = none := by
                refine ⟨d-1,by omega,?_⟩
                rw [round_next,Nat.sub_add_cancel ahead,empty]
              obtain ⟨d,bound,passed,ended⟩ := ih _ (Nat.mod_lt _ (by omega)) later
              refine ⟨d+1,by omega,?_,?_⟩
              · intro c below
                rcases Nat.eq_zero_or_pos c with rfl | positive
                · exact ⟨entry,by rw [here,found],test⟩
                · have earlier := passed (c-1) (by omega)
                  rwa [round_next,Nat.sub_add_cancel positive] at earlier
              · rw [round_next] at ended
                simpa [search,found,test,next] using ended

-- A lookup ends at a matching entry or at a free cell, after fewer cells than the table has.
def Ends (t : Table) (hash : UInt32) (isKey : Value → Bool) : Prop :=
  ∃ d < t.cells.size,
    (∀ c < d, ∃ entry, cellAt t.cells ((home t.cells hash + c) % t.cells.size) = some entry ∧
      (entry.hash == hash && isKey entry.key) = false) ∧
    ((cellAt t.cells ((home t.cells hash + d) % t.cells.size) = none ∧ t.find? hash isKey = none) ∨
     ∃ entry, cellAt t.cells ((home t.cells hash + d) % t.cells.size) = some entry ∧
       (entry.hash == hash && isKey entry.key) = true ∧
       t.find? hash isKey = some ((home t.cells hash + d) % t.cells.size))

theorem find_ends (valid : Valid t) (hash : UInt32) (isKey : Value → Bool) : Ends t hash isKey := by
  have start := home_lt (show 0 < t.cells.size by have := valid.size_ge; omega) hash
  obtain ⟨p,inside,empty⟩ := exists_free valid.room
  obtain ⟨d,bound,distance⟩ := round_reaches start inside
  exact search_ends hash isKey _ _ start ⟨d,bound,by rw [distance,empty]⟩

theorem seek_total (hash : UInt32) (isKey : Value → Bool) (steps i : Nat) :
    seek cells hash (fun k => some (isKey k)) steps i = some (search cells hash isKey steps i) := by
  induction steps generalizing i with
  | zero => rfl
  | succ steps ih =>
      simp only [seek,search]
      cases cellAt cells i with
      | none => rfl
      | some entry =>
          cases same : entry.hash == hash with
          | false => simpa [same] using ih _
          | true =>
              cases test : isKey entry.key with
              | true => simp [same,test]
              | false => simpa [same,test] using ih _

-- What matters of a test is what it says of the keys that were filed under the hash.
theorem seek_mono {test test' : Value → Option Bool}
    (refines : ∀ j entry, cellAt cells j = some entry → entry.hash = hash → ∀ decision, test entry.key = some decision → test' entry.key = some decision)
    (ended : seek cells hash test steps i = some found) : seek cells hash test' steps i = some found := by
  induction steps generalizing i with
  | zero => exact ended
  | succ steps ih =>
      simp only [seek] at ended ⊢
      cases present : cellAt cells i with
      | none => rwa [present] at ended
      | some entry =>
          simp only [present] at ended ⊢
          cases same : entry.hash == hash with
          | false =>
              rw [same] at ended
              exact ih ended
          | true =>
              simp only [same,if_true] at ended ⊢
              cases decided : test entry.key with
              | none => rw [decided] at ended; cases ended
              | some decision =>
                  rw [refines i entry present (beq_iff_eq.mp same) _ decided]
                  cases decision with
                  | true => rwa [decided] at ended
                  | false =>
                      rw [decided] at ended
                      exact ih ended

-- The first cell with the hash has a key whose test has no end.
theorem seek_stuck {test : Value → Option Bool} (present : cellAt cells i = some entry) (same : entry.hash = hash) (endless : test entry.key = none)
    (steps : Nat) : seek cells hash test (steps + 1) i = none := by
  simp only [seek,present,same,beq_self_eq_true,if_true,endless]

theorem search_found (found : search cells hash isKey steps i = some j) :
    ∃ entry, cellAt cells j = some entry ∧ (entry.hash == hash && isKey entry.key) = true := by
  induction steps generalizing i with
  | zero => cases found
  | succ steps ih =>
      simp only [search] at found
      split at found
      · cases found
      · rename_i entry present
        split at found
        · rename_i test
          cases found
          exact ⟨entry,present,test⟩
        · exact ih found

theorem find_none (valid : Valid t) {isKey : Value → Bool} (absent : t.find? hash isKey = none) :
    ∀ entry ∈ contents t.cells, (entry.hash == hash && isKey entry.key) = false := by
  intro entry member
  obtain ⟨p,present⟩ := mem_contents.mp member
  by_contra matches_
  rw [Bool.not_eq_false] at matches_
  have same : entry.hash = hash := by
    rw [Bool.and_eq_true,beq_iff_eq] at matches_
    exact matches_.1
  obtain ⟨e,_,arrives,run⟩ := valid.unbroken p entry present
  rw [same] at arrives run
  obtain ⟨d,_,passed,⟨free,_⟩ | ⟨_,_,_,found⟩⟩ := find_ends valid hash isKey
  · -- The entry lies neither before the free cell nor behind it.
    rcases Nat.lt_trichotomy e d with before | rfl | behind
    · obtain ⟨other,held,fails⟩ := passed e before
      rw [arrives,present] at held
      cases held
      rw [matches_] at fails
      cases fails
    · rw [arrives,present] at free
      cases free
    · have occupied := run d behind
      rw [free] at occupied
      cases occupied
  · rw [absent] at found
    cases found

theorem cellAt_setValue (t : Table) (i j : Nat) (value : Value) :
    cellAt (t.setValue i value).cells j =
      if i = j then (cellAt t.cells j).map ({ · with value }) else cellAt t.cells j := by
  simp only [cellAt,setValue,Array.getD_eq_getD_getElem?,Array.getElem?_modify]
  split
  · cases t.cells[j]? <;> rfl
  · rfl

@[simp] theorem size_setValue (t : Table) (i : Nat) (value : Value) :
    (t.setValue i value).cells.size = t.cells.size := by simp [setValue]

theorem occupied_setValue (t : Table) (i j : Nat) (value : Value) :
    (cellAt (t.setValue i value).cells j).isSome = (cellAt t.cells j).isSome := by
  rw [cellAt_setValue]
  split <;> simp

theorem length_setValue (t : Table) (i : Nat) (value : Value) :
    (contents (t.setValue i value).cells).length = (contents t.cells).length := by
  have occupied : ∀ cell : Option Entry, (cell.map ({ · with value })).isSome = cell.isSome := by
    intro cell; cases cell <;> rfl
  simp only [contents,List.length_filterMap_eq_countP,id,setValue,Array.toList_modify]
  induction t.cells.toList generalizing i with
  | nil => simp
  | cons head rest ih =>
      cases i with
      | zero => simp [List.countP_cons,occupied]
      | succ i => simp only [List.modify_succ_cons,List.countP_cons,ih]

theorem setValue_contents {t : Table} (value : Value) (found : cellAt t.cells i = some entry) :
    ∃ rest, (contents t.cells).Perm (entry :: rest) ∧
      (contents (t.setValue i value).cells).Perm ({ entry with value } :: rest) := by
  have inside := cellAt_lt found
  refine ⟨_,contents_vacate found,?_⟩
  have same : (t.setValue i value).cells = (t.cells.setIfInBounds i none).setIfInBounds i (some { entry with value }) := by
    apply Array.ext_getElem?
    intro j
    rw [cellAt_eq inside] at found
    simp only [setValue,Array.getElem?_modify,Array.getElem?_setIfInBounds,Array.size_setIfInBounds]
    by_cases here : i = j
    · subst j
      simp [inside,found]
    · simp [here]
  rw [same]
  exact contents_fill (by rwa [size_set]) (cellAt_set_same inside)

theorem setValue_valid (i : Nat) (value : Value) (valid : Valid t) : Valid (t.setValue i value) := by
  refine ⟨by simpa using valid.power,?_,by rw [size_setValue]; exact valid.load,?_⟩
  · rw [length_setValue]; exact valid.counted
  · intro p entry found
    have original : ∃ old, cellAt t.cells p = some old ∧ old.hash = entry.hash := by
      rw [cellAt_setValue] at found
      split at found
      · obtain ⟨old,present,rfl⟩ := Option.map_eq_some_iff.mp found
        exact ⟨old,present,rfl⟩
      · exact ⟨entry,found,rfl⟩
    obtain ⟨old,present,hash⟩ := original
    obtain ⟨d,bound,arrives,run⟩ := valid.unbroken p old present
    simp only [home,size_setValue,hash] at arrives run ⊢
    refine ⟨d,bound,arrives,?_⟩
    intro c below
    rw [occupied_setValue,size_setValue]
    exact run c below

theorem removeAt_mends (valid : Valid t) (found : cellAt t.cells i = some entry) :
    Restored (t.cells.setIfInBounds i none) (next t.cells i) (t.removeAt i).cells ∧
      Unbroken (t.removeAt i).cells ∧ (t.removeAt i).cells.size = t.cells.size ∧
      (contents t.cells).Perm (entry :: contents (t.removeAt i).cells) := by
  have mended := remove_mends valid.unbroken found (exists_free valid.room)
  simp only [next,size_set] at mended ⊢
  simpa only [removeAt,next,size_set] using mended

theorem size_restore (steps : Nat) (cells : Array (Option Entry)) (i : Nat) : (restore steps cells i).size = cells.size := by
  induction steps generalizing cells i with
  | zero => rfl
  | succ steps ih =>
      unfold restore
      split
      · rfl
      · rw [ih,size_place,size_set]

theorem size_removeAt (t : Table) (i : Nat) : (t.removeAt i).cells.size = t.cells.size := by
  rw [removeAt,size_restore,size_set]

theorem removeAt_valid (valid : Valid t) (found : cellAt t.cells i = some entry) : Valid (t.removeAt i) := by
  obtain ⟨_,unbroken,size,listed⟩ := removeAt_mends valid found
  have counted := valid.counted
  have length := listed.length_eq
  have load := valid.load
  rw [List.length_cons] at length
  refine ⟨by rw [size]; exact valid.power,?_,?_,unbroken⟩
  · change t.count - 1 = _
    omega
  · rw [size]
    change (t.count - 1) * 4 ≤ _
    omega

theorem size_clear (t : Table) : t.clear.cells.size = t.cells.size := by simp [clear]

theorem clear_valid (valid : Valid t) : Valid t.clear := by
  refine ⟨by simpa [clear] using valid.power,by simp [clear],by simp [clear],unbroken_empty _⟩

end RegisterMachine.Table
