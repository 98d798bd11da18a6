import RegisterMachine.Proofs.Machine.Pins
import Mathlib.Data.List.Perm.Subperm

namespace RegisterMachine

structure Account (h : Heap) (pinned : List Pinned) : Prop extends Ledger h pinned where
  whole : (Ledger.ids h pinned).length = h.roots.size
  lasting : ∀ id ∈ Ledger.lasting, ∃ v, h.roots[id]? = some (some v)
  vacant : ∀ id ∈ h.freeRoots, h.roots[id]? = some none

namespace Account

variable {h h' : Heap} {p : Pinned} {pinned rest : List Pinned} {id : Nat}

theorem numbers (account : Account h pinned) : (Ledger.ids h pinned).Perm (List.range h.roots.size) := by
  have known : Ledger.ids h pinned ⊆ List.range h.roots.size := fun j member => List.mem_range.mpr (account.inside j member)
  exact (List.subperm_of_subset account.once known).perm_of_length_le (by rw [List.length_range,account.whole])

theorem listed (account : Account h pinned) (inside : id < h.roots.size) : id ∈ Ledger.ids h pinned :=
  account.numbers.mem_iff.mpr (List.mem_range.mpr inside)

theorem occupied (account : Account h pinned) (id : Nat) :
    (∃ v, h.roots[id]? = some (some v)) ↔ id ∈ Ledger.lasting ∨ id ∈ pinned.flatMap (·.pin.toList) := by
  constructor
  · intro held
    obtain ⟨v,held⟩ := held
    have inside : id < h.roots.size := (Array.getElem?_eq_some_iff.mp held).1
    rcases List.mem_append.mp (account.listed inside) with lasts | other
    · exact Or.inl lasts
    · rcases List.mem_append.mp other with pin | free
      · exact Or.inr pin
      · rw [account.vacant id free] at held
        cases held
  · intro known
    rcases known with lasts | pin
    · exact account.lasting id lasts
    · obtain ⟨p,member,pin⟩ := List.mem_flatMap.mp pin
      have holds := account.held p member
      unfold Pinned.Holds at holds
      rw [Option.mem_toList.mp pin] at holds
      exact ⟨p.value,holds⟩

theorem count (account : Account h pinned) :
    h.roots.countP Option.isSome = Ledger.lasting.length + (pinned.flatMap (·.pin.toList)).length := by
  have spread : h.roots.toList = (List.range h.roots.size).map (h.roots.getD · none) := by
    apply List.ext_getElem
    · simp
    · intro i inside _
      have there : i < h.roots.size := by simpa using inside
      simp [there]
  have filled : (Ledger.lasting ++ pinned.flatMap (·.pin.toList)).countP (Option.isSome ∘ (h.roots.getD · none)) =
      (Ledger.lasting ++ pinned.flatMap (·.pin.toList)).length := by
    apply List.countP_eq_length.mpr
    intro j member
    obtain ⟨v,held⟩ := (account.occupied j).mpr (List.mem_append.mp member)
    simp only [Function.comp,Array.getD_eq_getD_getElem?,held]
    rfl
  have vacant : h.freeRoots.countP (Option.isSome ∘ (h.roots.getD · none)) = 0 := by
    apply List.countP_eq_zero.mpr
    intro j member
    simp only [Function.comp,Array.getD_eq_getD_getElem?,account.vacant j member]
    exact Bool.false_ne_true
  rw [← Array.countP_toList,spread,List.countP_map,← account.numbers.countP_eq,Ledger.ids,← List.append_assoc,List.countP_append,
    vacant,filled,List.length_append]
  rfl

theorem perm (account : Account h pinned) (same : pinned.Perm rest) : Account h rest where
  toLedger := account.toLedger.perm same
  whole := by
    rw [← account.whole]
    exact (((same.flatMap_right _).append_right _).append_left _).length_eq.symm
  lasting := account.lasting
  vacant := account.vacant

theorem steady (account : Account h pinned) (roots : h'.roots = h.roots) (free : h'.freeRoots = h.freeRoots) : Account h' pinned where
  toLedger := account.toLedger.steady roots free
  whole := by
    rw [Ledger.ids,free,roots]
    exact account.whole
  lasting := roots ▸ account.lasting
  vacant := by
    rw [roots,free]
    exact account.vacant

-- One root changed, which is not a lasting one: the lasting roots and the other free ones are as before.
theorem elsewhere (account : Account h pinned) (passing : id ∉ Ledger.lasting) (others : ∀ j, j ≠ id → h'.roots[j]? = h.roots[j]?) :
    (∀ j ∈ Ledger.lasting, ∃ v, h'.roots[j]? = some (some v)) ∧ ∀ j ∈ h.freeRoots, j ≠ id → h'.roots[j]? = some none := by
  refine ⟨fun j lasts => ?_,fun j free other => (others j other).trans (account.vacant j free)⟩
  rw [others j fun same => passing (same ▸ lasts)]
  exact account.lasting j lasts

theorem lasting_apart (account : Account h pinned) (other : id ∈ pinned.flatMap (·.pin.toList) ++ h.freeRoots) : id ∉ Ledger.lasting :=
  fun lasts => (List.nodup_append.mp account.once).2.2 id lasts id other rfl

theorem pin_apart (account : Account h pinned) (pin : id ∈ pinned.flatMap (·.pin.toList)) : id ∉ h.freeRoots :=
  fun free => (List.nodup_append.mp (List.nodup_append.mp account.once).2.1).2.2 id pin id free rfl

theorem setLasting (account : Account h pinned) (v : Value) (lasts : id ∈ Ledger.lasting) : Account (h.setRoot id v) pinned where
  toLedger := account.toLedger.setLasting v lasts
  whole := by
    rw [Ledger.setRoot_size]
    exact account.whole
  lasting := by
    intro j member
    by_cases here : j = id
    · obtain ⟨w,present⟩ := account.lasting id lasts
      exact ⟨v,here ▸ Ledger.setRoot_here (Array.getElem?_eq_some_iff.mp present).1 v⟩
    · rw [Ledger.setRoot_others h id v j here]
      exact account.lasting j member
  vacant := by
    intro j free
    have other : j ≠ id := fun same => account.lasting_apart (List.mem_append_right _ free) (same ▸ lasts)
    rw [Ledger.setRoot_others h id v j other]
    exact account.vacant j free

theorem blank (account : Account h pinned) : Account h ({} :: pinned) where
  toLedger := account.toLedger.blank
  whole := account.whole
  lasting := account.lasting
  vacant := account.vacant

theorem unpin (account : Account h (p :: rest)) (none : p.pin = none) : Account h rest where
  toLedger := account.toLedger.tail
  whole := by
    have ids : Ledger.ids h (p :: rest) = Ledger.ids h rest := by simp [Ledger.ids,none]
    rw [← ids]
    exact account.whole
  lasting := account.lasting
  vacant := account.vacant

theorem add (account : Account h rest) (v : Value) : Account (h.addRoot v).2 ({ value := v,pin := some (h.addRoot v).1 } :: rest) := by
  have ledger := account.toLedger.add v
  have ids := Ledger.cons_ids (h.addRoot v).2 { value := v,pin := some (h.addRoot v).1 } rfl rest
  cases free : h.freeRoots with
  | nil =>
      have made : h.addRoot v = (h.roots.size,{ h with roots := h.roots.push (some v) }) := by simp only [Heap.addRoot,free]
      rw [made] at ledger ids ⊢
      have before : ∀ {j : Nat}, j < h.roots.size → (h.roots.push (some v))[j]? = h.roots[j]? := fun inside => by
        simp [Array.getElem?_push,Nat.ne_of_lt inside]
      refine ⟨ledger,?_,?_,?_⟩
      · rw [ids.length_eq,List.length_cons,Array.size_push,← account.whole]
        rfl
      · intro j lasts
        have inside := account.inside j (List.mem_append_left _ lasts)
        simp only [before inside]
        exact account.lasting j lasts
      · intro j member
        have none : j ∈ h.freeRoots := member
        rw [free] at none
        cases none
  | cons id others =>
      have made : h.addRoot v = (id,{ h with freeRoots := others,roots := h.roots.setIfInBounds id (some v) }) := by
        simp only [Heap.addRoot,free]
      rw [made] at ledger ⊢
      have member : id ∈ h.freeRoots := free ▸ List.mem_cons_self
      have once : (id :: others).Nodup := free ▸ (List.nodup_append.mp (List.nodup_append.mp account.once).2.1).2.1
      have apart := account.elsewhere (account.lasting_apart (List.mem_append_right _ member)) (Ledger.setRoot_others h id v)
      refine ⟨ledger,?_,apart.1,?_⟩
      · have same : (Ledger.ids h rest).length = h.roots.size := account.whole
        simp only [Ledger.ids,free,List.flatMap_cons,Option.toList_some,List.length_append,List.length_cons,List.length_nil,
          Array.size_setIfInBounds] at same ⊢
        omega
      · intro j later
        refine apart.2 j (free ▸ List.mem_cons_of_mem _ later) ?_
        rintro rfl
        exact (List.nodup_cons.mp once).1 later

theorem set (account : Account h (p :: rest)) (v : Value) : Account (p.set h v).2 ((p.set h v).1 :: rest) := by
  cases pin : p.pin with
  | none =>
      by_cases behind : v.handle?.isSome = true
      · have made : p.set h v = ({ value := v,pin := some (h.addRoot v).1 },(h.addRoot v).2) := by
          simp only [Pinned.set,pin,behind,if_true]
        rw [made]
        exact (account.unpin pin).add v
      · have ledger := account.toLedger.set v
        have made : p.set h v = ({ value := v,pin := none },h) := by
          simp only [Pinned.set,pin,behind,Bool.false_eq_true,if_false]
        rw [made] at ledger ⊢
        exact ⟨ledger,by simpa [Ledger.ids] using (account.unpin pin).whole,account.lasting,account.vacant⟩
  | some id =>
      have ledger := account.toLedger.set v
      have made : p.set h v = ({ value := v,pin := some id },h.setRoot id v) := by simp only [Pinned.set,pin]
      rw [made] at ledger ⊢
      have used := @Ledger.mem_pin p (p :: rest) id List.mem_cons_self pin
      have apart := account.elsewhere (account.lasting_apart (List.mem_append_left _ used)) (Ledger.setRoot_others h id v)
      refine ⟨ledger,?_,apart.1,fun j free => apart.2 j free ?_⟩
      · have ids : Ledger.ids (h.setRoot id v) ({ value := v,pin := some id } :: rest) = Ledger.ids h (p :: rest) := by
          simp [Ledger.ids,pin,Heap.setRoot]
        rw [ids,Ledger.setRoot_size]
        exact account.whole
      · rintro rfl
        exact account.pin_apart used free

theorem release (account : Account h (p :: rest)) : Account (p.release h) rest := by
  cases pin : p.pin with
  | none =>
      have made : p.release h = h := by simp only [Pinned.release,pin]
      rw [made]
      exact account.unpin pin
  | some id =>
      have ledger := account.toLedger.release
      have holds := account.held p List.mem_cons_self
      simp only [Pinned.Holds,pin] at holds
      have made : p.release h = { h with roots := h.roots.setIfInBounds id none,freeRoots := id :: h.freeRoots } := by
        simp only [Pinned.release,pin,Heap.removeRoot,Array.getD_eq_getD_getElem?,holds,Option.getD_some]
      rw [made] at ledger ⊢
      have used := @Ledger.mem_pin p (p :: rest) id List.mem_cons_self pin
      have others : ∀ j, j ≠ id → (h.roots.setIfInBounds id none)[j]? = h.roots[j]? := by
        intro j other
        rw [Array.getElem?_setIfInBounds_ne (Ne.symm other)]
      have passing := account.lasting_apart (List.mem_append_left _ used)
      have apart := @elsewhere h { h with roots := h.roots.setIfInBounds id none } (p :: rest) id account passing others
      refine ⟨ledger,?_,apart.1,fun j free => ?_⟩
      · have same : (Ledger.ids h (p :: rest)).length = h.roots.size := account.whole
        simp only [Ledger.ids,List.flatMap_cons,pin,Option.toList_some,List.length_append,List.length_cons,List.length_nil,
          Array.size_setIfInBounds] at same ⊢
        omega
      · by_cases here : j = id
        · rw [here]
          simp [(Array.getElem?_eq_some_iff.mp holds).1]
        · rcases List.mem_cons.mp free with same | before
          · exact absurd same here
          · exact apart.2 j before here

theorem bookkeeping : Bookkeeping Account := ⟨perm,blank,fun v account => account.set v,release⟩

end Account

end RegisterMachine
