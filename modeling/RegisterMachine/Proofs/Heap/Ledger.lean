import RegisterMachine.Proofs.Heap.Reachable
import RegisterMachine.Proofs.Heap.Editing
import Mathlib.Algebra.BigOperators.Group.Finset.Basic
import Mathlib.Algebra.Order.BigOperators.Group.Finset

namespace RegisterMachine

-- One for a slot with an object.
def Slot.occupancy (slot : Slot) : Nat := if slot.object.isSome then 1 else 0

theorem Slot.Alike.occupancy {slot slot' : Slot} (alike : slot.Alike slot') : slot'.occupancy = slot.occupancy := by
  rcases alike.object with ⟨gone,gone'⟩ | ⟨_,_,before,after,_⟩
  · rw [Slot.occupancy,Slot.occupancy,gone,gone']
  · rw [Slot.occupancy,Slot.occupancy,before,after]
    rfl

theorem Slot.Rewritten.charge {slot slot' : Slot} (rewritten : slot.Rewritten slot') : slot'.charge = slot.charge := by
  cases rewritten with
  | same => rfl
  | changed => rfl

namespace Heap

-- A quantity of the slots, added up.
def tally (h : Heap) (quantity : Slot → Nat) : Nat := ∑ i ∈ Finset.range h.slots.size, quantity (h.slotAt i)

section Tally

variable {h h' : Heap} {quantity : Slot → Nat}

theorem slotAt_beyond (beyond : h.slots.size ≤ i) : h.slotAt i = default := slotAt_none (Array.getElem?_eq_none beyond)

theorem tally_range (blank : quantity default = 0) (wide : h.slots.size ≤ n) :
    ∑ i ∈ Finset.range n, quantity (h.slotAt i) = h.tally quantity := by
  symm
  apply Finset.sum_subset
  · exact Finset.range_subset_range.mpr wide
  · intro i _ outside
    rw [slotAt_beyond (Nat.le_of_not_lt fun inside => outside (Finset.mem_range.mpr inside)),blank]

theorem tally_same (blank : quantity default = 0) (same : ∀ i, quantity (h'.slotAt i) = quantity (h.slotAt i)) :
    h'.tally quantity = h.tally quantity := by
  rw [← tally_range blank (Nat.le_max_left h'.slots.size h.slots.size),← tally_range blank (Nat.le_max_right h'.slots.size h.slots.size)]
  exact Finset.sum_congr rfl fun i _ => same i

theorem tally_change {i : Nat} (quantity : Slot → Nat) (blank : quantity default = 0) (others : ∀ j, j ≠ i → h'.slotAt j = h.slotAt j) :
    h'.tally quantity + quantity (h.slotAt i) = h.tally quantity + quantity (h'.slotAt i) := by
  let n := h.slots.size + h'.slots.size + (i + 1)
  have inside : i ∈ Finset.range n := Finset.mem_range.mpr (by omega)
  have rest : ∑ j ∈ (Finset.range n).erase i, quantity (h'.slotAt j) = ∑ j ∈ (Finset.range n).erase i, quantity (h.slotAt j) := by
    refine Finset.sum_congr rfl fun j member => ?_
    rw [others j (Finset.ne_of_mem_erase member)]
  have before := Finset.add_sum_erase (Finset.range n) (fun j => quantity (h.slotAt j)) inside
  have after := Finset.add_sum_erase (Finset.range n) (fun j => quantity (h'.slotAt j)) inside
  rw [← tally_range blank (show h.slots.size ≤ n by omega),← tally_range blank (show h'.slots.size ≤ n by omega)]
  omega

theorem tally_sweep (h : Heap) (quantity : Slot → Nat) (freed : ∀ slot, quantity (emptied slot) = 0) :
    h.sweep.2.tally quantity + (h.dying.map fun i => quantity (h.slotAt i)).sum = h.tally quantity := by
  have gone : (h.dying.map fun i => quantity (h.slotAt i)).sum =
      ∑ i ∈ Finset.range h.slots.size, if dies h.marks i (h.slotAt i) = true then quantity (h.slotAt i) else 0 := by
    rw [← Finset.sum_filter,← List.sum_toFinset _ h.dying_nodup]
    refine Finset.sum_congr ?_ fun _ _ => rfl
    ext i
    simp [dying,slotAt]
  rw [gone,tally,size_sweep,tally,← Finset.sum_add_distrib]
  refine Finset.sum_congr rfl fun i _ => ?_
  rw [sweep_slotAt]
  split
  · rw [freed,Nat.zero_add]
  · exact Nat.add_zero _

theorem le_tally {i : Nat} {slot : Slot} (present : h.slots[i]? = some slot) : quantity slot ≤ h.tally quantity := by
  rw [← slotAt_some present]
  refine Finset.single_le_sum (f := fun i => quantity (h.slotAt i)) (fun _ _ => Nat.zero_le _) ?_
  exact Finset.mem_range.mpr (Array.getElem?_eq_some_iff.mp present).1

end Tally

-- The books of a heap.
structure Booked (h : Heap) : Prop where
  bytes : h.bytes = h.tally Slot.charge
  live : h.live = h.tally Slot.occupancy
  uncharged : ∀ i, (h.slotAt i).object = none ∨ (h.slotAt i).immortal = true → (h.slotAt i).charge = 0

theorem new_booked (config : HeapConfig) : (new config).Booked where
  bytes := rfl
  live := rfl
  uncharged := fun i _ => by
    rw [slotAt_beyond (Nat.zero_le i)]
    rfl

theorem rewrite_booked {h : Heap} {slots : Array Slot} (booked : h.Booked) (size : slots.size = h.slots.size)
    (each : ∀ (i : Nat) (slot : Slot), h.slots[i]? = some slot → ∃ slot', slots[i]? = some slot' ∧ slot.Rewritten slot') :
    { h with slots }.Booked := by
  have rewritten : ∀ i, (h.slotAt i).Rewritten ({ h with slots }.slotAt i) := slotAt_each size each .same
  refine ⟨?_,?_,fun i empty => ?_⟩
  · exact booked.bytes.trans (tally_same rfl fun i => (rewritten i).charge).symm
  · exact booked.live.trans (tally_same rfl fun i => (rewritten i).alike.occupancy).symm
  · have alike := (rewritten i).alike
    rw [(rewritten i).charge]
    apply booked.uncharged i
    rwa [alike.empty,alike.immortal] at empty

theorem sweep_freed (h : Heap) : h.sweep.1.freedBytes = (h.dying.map fun i => (h.slotAt i).charge).sum ∧
    h.sweep.1.freedObjects = (h.dying.map fun i => (h.slotAt i).occupancy).sum := by
  constructor
  · change h.dying.foldl (fun total i => total + (h.slotAt i).charge) 0 = _
    rw [List.sum_eq_foldl,List.foldl_map]
  · have each : ∀ i ∈ h.dying, (h.slotAt i).occupancy = 1 := by
      intro i member
      obtain ⟨slot,present,dead⟩ := mem_dying.mp member
      rw [slotAt_some present,Slot.occupancy,Option.isSome_iff_ne_none.mpr (dies_mortal dead).2]
      rfl
    rw [List.map_congr_left each,List.map_const',List.sum_replicate_nat,Nat.mul_one]
    rfl

theorem sweep_booked {h : Heap} (booked : h.Booked) : h.sweep.2.Booked := by
  obtain ⟨bytes,objects⟩ := h.sweep_freed
  have charges := h.tally_sweep Slot.charge fun _ => rfl
  have occupied := h.tally_sweep Slot.occupancy fun _ => rfl
  rw [← bytes,← booked.bytes] at charges
  rw [← objects,← booked.live] at occupied
  refine ⟨?_,?_,fun i empty => ?_⟩
  · change h.bytes - h.sweep.1.freedBytes = _
    omega
  · change h.live - h.sweep.1.freedObjects = _
    omega
  · rw [sweep_slotAt] at empty ⊢
    split
    · rfl
    · rename_i stays
      rw [if_neg stays] at empty
      exact booked.uncharged i empty

theorem collect_booked {h : Heap} (booked : h.Booked) : h.collect.2.Booked := by
  by_cases enabled : h.disabled = 0
  · have marked : h.mark.Booked := ⟨booked.bytes,booked.live,booked.uncharged⟩
    rw [collect_enabled enabled]
    exact sweep_booked marked
  · rw [collect_disabled enabled]
    exact booked

theorem Installed.booked {object : Object} (installed : Installed h object charge immortal r h') (booked : h.Booked)
    (bytes : h'.bytes = h.bytes + charge) (free : immortal = true → charge = 0) : h'.Booked := by
  have charges := tally_change Slot.charge rfl fun j other => installed.slotAt_other other
  have objects := tally_change Slot.occupancy rfl fun j other => installed.slotAt_other other
  rw [booked.uncharged _ (Or.inl installed.slotAt_vacant),installed.slotAt_here] at charges
  simp only [Slot.occupancy,installed.slotAt_vacant,installed.slotAt_here] at objects
  refine ⟨?_,?_,fun i empty => ?_⟩
  · rw [bytes,booked.bytes]
    exact charges.symm
  · rw [installed.live,booked.live]
    exact objects.symm
  · by_cases here : i = r.index
    · subst here
      rw [installed.slotAt_here] at empty ⊢
      rcases empty with gone | immortal
      · cases gone
      · exact free immortal
    · rw [installed.slotAt_other here] at empty ⊢
      exact booked.uncharged i empty

theorem recharge_cases (h : Heap) (r : Handle) :
    (h.recharge r = h ∧ ((h.slotAt r.index).generation = r.generation → (h.slotAt r.index).immortal = true ∨ (h.slotAt r.index).object = none)) ∨
      ∃ slot object, h.slots[r.index]? = some slot ∧ slot.immortal = false ∧ slot.object = some object ∧
        (h.recharge r).bytes = h.bytes - slot.charge + object.charge ∧ (h.recharge r).live = h.live ∧
        (h.recharge r).slotAt r.index = { slot with charge := object.charge } ∧
        ∀ j, j ≠ r.index → (h.recharge r).slotAt j = h.slotAt j := by
  unfold recharge
  cases found : h.slots[r.index]? with
  | none =>
      rw [slotAt_none found]
      exact Or.inl ⟨rfl,fun _ => Or.inr rfl⟩
  | some slot =>
      rw [slotAt_some found]
      simp only
      cases skipped : slot.immortal || slot.generation != r.generation with
      | true =>
          refine Or.inl ⟨rfl,fun same => Or.inl ?_⟩
          simpa [same] using skipped
      | false =>
          cases content : slot.object with
          | none => exact Or.inl ⟨rfl,fun _ => Or.inr rfl⟩
          | some object =>
              have mortal : slot.immortal = false := (Bool.or_eq_false_iff.mp skipped).1
              refine Or.inr ⟨slot,object,rfl,mortal,content,rfl,rfl,?_,fun j other => ?_⟩
              · apply slotAt_some
                simp only [Bool.false_eq_true,if_false,Array.getElem?_modify,if_true,found,content,Option.map_some]
              · simp only [Bool.false_eq_true,if_false,slotAt,Array.getD_eq_getD_getElem?,Array.getElem?_modify,if_neg (Ne.symm other)]

theorem recharge_booked {h : Heap} (r : Handle) (booked : h.Booked) : (h.recharge r).Booked := by
  rcases recharge_cases h r with ⟨same,_⟩ | ⟨slot,object,present,mortal,content,bytes,live,here,others⟩
  · rw [same]
    exact booked
  · have before := slotAt_some present
    have charges := tally_change Slot.charge rfl others
    have objects := tally_change Slot.occupancy rfl others
    have charged : slot.charge ≤ h.tally Slot.charge := le_tally present
    rw [before,here] at charges objects
    dsimp only at charges
    refine ⟨?_,?_,fun i empty => ?_⟩
    · rw [bytes,booked.bytes]
      omega
    · rw [live,booked.live]
      exact (Nat.add_right_cancel objects).symm
    · by_cases same : i = r.index
      · subst same
        rw [here] at empty
        rcases empty with gone | immortal
        · rw [content] at gone
          cases gone
        · rw [mortal] at immortal
          cases immortal
      · rw [others i same] at empty ⊢
        exact booked.uncharged i empty

theorem install_bytes (h : Heap) (object : Object) (charge : Nat) (immortal : Bool) :
    (h.install object charge immortal).2.bytes = h.bytes := by
  unfold install
  split <;> rfl

theorem allocated_bytes (h : Heap) (object : Object) : (h.allocated object).2.bytes = h.bytes + object.charge :=
  install_bytes _ object object.charge false

theorem intern_bytes (h : Heap) (text : String) : (h.intern text).2.bytes = h.bytes := by
  unfold intern
  split
  · rfl
  · split
    · rfl
    · exact install_bytes h (.str text) 0 true

theorem Step.booked {h h' : Heap} (step : Step h h') (intact : h.Intact) (booked : h.Booked) : h'.Booked := by
  cases step with
  | apart apart =>
      obtain ⟨bytes,live,uncharged⟩ := booked
      have slots : ∀ i, h'.slotAt i = h.slotAt i := fun i => by rw [slotAt,slotAt,apart.slots]
      refine ⟨?_,?_,fun i => by rw [slots]; exact uncharged i⟩
      · rw [apart.bytes,bytes,tally_same rfl fun i => by rw [slots]]
      · rw [apart.live,live,tally_same rfl fun i => by rw [slots]]
  | rewrite size each => exact rewrite_booked booked size each
  | recharge => exact recharge_booked _ booked
  | collect => exact collect_booked booked
  | @install object =>
      exact (allocated_installed intact object).booked booked (allocated_bytes h object) fun immortal => by cases immortal
  | @intern text =>
      rcases intern_changes text intact with same | ⟨_,_,installed,_⟩
      · rw [same]
        exact booked
      · exact installed.booked booked (intern_bytes h text) fun _ => rfl

theorem Steps.booked {h h' : Heap} (steps : Steps h h') (intact : h.Intact) (booked : h.Booked) : h'.Booked := by
  induction steps with
  | refl => exact booked
  | tail before step ih => exact step.booked (Steps.intact before intact) ih

-- Outside some handles, an object that is not immortal is charged for what it takes.
def Exact (loose : Handle → Prop) (h : Heap) : Prop :=
  ∀ i object, (h.slotAt i).object = some object → (h.slotAt i).immortal = false → ¬ loose ⟨i,(h.slotAt i).generation⟩ →
    (h.slotAt i).charge = object.charge

theorem Exact.mono (exact_ : Exact loose h) (wider : ∀ r, loose r → more r) : Exact more h :=
  fun i object content mortal tight => exact_ i object content mortal fun loose => tight (wider _ loose)

theorem Exact.slots {h h' : Heap} (exact_ : Exact loose h) (same : h'.slots = h.slots) : Exact loose h' := by
  have slots : ∀ i, h'.slotAt i = h.slotAt i := fun i => by rw [slotAt,slotAt,same]
  intro i
  rw [slots]
  exact exact_ i

theorem modifyObject_slotAt (h : Heap) (r : Handle) (change : Object → Object) (i : Nat) :
    (h.modifyObject r change).slotAt i =
      if r.index = i then { h.slotAt i with object := (h.slotAt i).object.map change } else h.slotAt i := by
  simp only [slotAt,modifyObject,Array.getD_eq_getD_getElem?,Array.getElem?_modify]
  split
  · cases h.slots[i]? with
    | none => rfl
    | some slot => rfl
  · rfl

theorem modifyObject_exact {h : Heap} {change : Object → Object} (exact_ : Exact loose h) (live : h.isLive r = true)
    (each : ∀ object, h.object? r = some object → loose r ∨ (change object).charge = object.charge) :
    Exact loose (h.modifyObject r change) := by
  intro i object content mortal tight
  rw [modifyObject_slotAt] at content mortal tight ⊢
  split at content
  · rename_i here
    subst here
    rw [if_pos rfl] at mortal tight ⊢
    dsimp only at mortal tight ⊢
    obtain ⟨before,held,rfl⟩ := Option.map_eq_some_iff.mp content
    have generation := (isLive_slotAt.mp live).1
    have charged := exact_ r.index before held mortal tight
    rw [generation] at tight
    rw [charged]
    exact ((each before (object?_slotAt.mpr ⟨generation,held⟩)).resolve_left tight).symm
  · rename_i other
    rw [if_neg other] at mortal tight ⊢
    exact exact_ i object content mortal tight

theorem freezeObject_charge (object : Object) : (freezeObject object).charge = object.charge := by
  cases object with
  | str | list | map | funcRef => rfl

theorem freeze_exact {h : Heap} (v : Value) (exact_ : Exact loose h) : Exact loose (h.freeze v) := by
  have slots : ∀ i, (h.freeze v).slotAt i = h.slotAt i ∨
      (h.freeze v).slotAt i = { h.slotAt i with object := (h.slotAt i).object.map freezeObject } := by
    intro i
    simp only [slotAt,freeze,Array.getD_eq_getD_getElem?,Array.getElem?_mapIdx]
    cases h.slots[i]? with
    | none => exact Or.inl rfl
    | some slot =>
        simp only [Option.map_some,Option.getD_some]
        split
        · exact Or.inr rfl
        · exact Or.inl rfl
  intro i object content mortal tight
  rcases slots i with same | frozen
  · rw [same] at content mortal tight ⊢
    exact exact_ i object content mortal tight
  · rw [frozen] at content mortal tight ⊢
    obtain ⟨before,held,rfl⟩ := Option.map_eq_some_iff.mp content
    rw [freezeObject_charge]
    exact exact_ i before held mortal tight

theorem collect_exact_charges {h : Heap} (exact_ : Exact loose h) : Exact loose h.collect.2 := by
  by_cases enabled : h.disabled = 0
  · rw [collect_enabled enabled]
    intro i object content mortal tight
    rw [sweep_slotAt] at content mortal tight ⊢
    split at content
    · cases content
    · rename_i stays
      rw [if_neg stays] at mortal tight ⊢
      exact exact_ i object content mortal tight
  · rw [collect_disabled enabled]
    exact exact_

theorem Installed.exact {object : Object} (installed : Installed h object charge immortal r h') (exact_ : Exact loose h)
    (charged : immortal = false → charge = object.charge) : Exact loose h' := by
  intro i other content mortal tight
  by_cases here : i = r.index
  · subst here
    rw [installed.slotAt_here] at content mortal ⊢
    cases content
    exact charged mortal
  · rw [installed.slotAt_other here] at content mortal tight ⊢
    exact exact_ i other content mortal tight

theorem recharge_exact {h : Heap} (exact_ : Exact (fun q => loose q ∨ q = r) h) : Exact loose (h.recharge r) := by
  intro i object content mortal tight
  rcases recharge_cases h r with ⟨same,skipped⟩ | ⟨slot,held,_,_,here,_,_,charged,others⟩
  · rw [same] at content mortal tight ⊢
    refine exact_ i object content mortal ?_
    rintro (loose | rfl)
    · exact tight loose
    · rcases skipped rfl with immortal | gone
      · rw [mortal] at immortal
        cases immortal
      · rw [content] at gone
        cases gone
  · by_cases at_ : i = r.index
    · subst at_
      rw [charged] at content ⊢
      rw [here] at content
      cases content
      rfl
    · rw [others i at_] at content mortal tight ⊢
      refine exact_ i object content mortal ?_
      rintro (loose | same)
      · exact tight loose
      · exact at_ (by rw [← same])

theorem Deeds.exact (deeds : Deeds named written loose h h') (intact : h.Intact) (exact_ : Exact loose h) : Exact loose h' := by
  induction deeds with
  | refl => exact exact_
  | trans first _ ih ih' => exact ih' (first.intact intact) (ih intact exact_)
  | reroot => exact exact_.slots (by rfl)
  | register => exact exact_.slots (by rfl)
  | list live room =>
      refine modifyObject_exact exact_ live fun object present => ?_
      cases object with
      | list l => exact (room l present).imp_right fun same => by simp only [Object.charge,same]
      | str | map | funcRef => exact Or.inr rfl
  | table live edits =>
      refine modifyObject_exact exact_ live fun object present => ?_
      cases object with
      | map t => exact (edits t present).2
      | str | list | funcRef => exact Or.inr rfl
  | settle _ ih => exact recharge_exact (ih intact (exact_.mono fun _ => Or.inl))
  | freeze => exact freeze_exact _ exact_
  | collect => exact collect_exact_charges exact_
  | install => exact (allocated_installed intact _).exact exact_ fun _ => rfl
  | @intern _ _ h text =>
      rcases intern_changes text intact with same | ⟨_,_,installed,_⟩
      · rwa [same]
      · exact installed.exact exact_ fun mortal => by cases mortal
  | besides _ _ ih => exact ih intact exact_

theorem Course.exact (course : Course named written loose h h') (intact : h.Intact) (exact_ : Exact loose h) : Exact loose h' := by
  cases course with
  | apart apart => exact exact_.slots apart.slots
  | deeds deeds => exact deeds.exact intact exact_
  | aliasMap deeds => exact (allocated_installed (deeds.intact intact) _).exact (deeds.exact intact exact_) fun _ => rfl

-- Heaps after some calls, with the lists that were sorted by keys on the way and are still there.
inductive Called : (Handle → Prop) → Heap → Prop where
  | new (config : HeapConfig) : Called (fun _ => False) (Heap.new config)
  | call (call : Call) : Called sorted h →
      Called (fun r => (sorted r ∨ call.SortsByKey r) ∧ (call.run h).isLive r = true) (call.run h)

theorem Called.reachable (called : Called sorted h) : Reachable h := by
  induction called with
  | new config => exact .new config
  | call call _ ih => exact .call call ih

theorem Reachable.booked (reachable : Reachable h) : h.Booked := by
  induction reachable with
  | new config => exact new_booked config
  | call call before ih => exact (call.steps _).booked before.intact ih

theorem Called.exact (called : Called sorted h) : Exact sorted h := by
  induction called with
  | new config =>
      intro i object content
      rw [slotAt_beyond (Nat.zero_le i)] at content
      cases content
  | @call sorted h call before ih =>
      have course : Course (fun _ => True) (fun _ => True) (fun r => sorted r ∨ call.SortsByKey r) h (call.run h) :=
        call.runs h (fun _ _ => trivial) fun r sorts => Or.inr sorts
      have kept := course.exact before.reachable.intact (ih.mono fun r => Or.inl)
      intro i object content mortal tight
      refine kept i object content mortal fun loose => tight ⟨loose,?_⟩
      exact isLive_slotAt.mpr ⟨rfl,by rw [content]; rfl⟩

-- The ledger of a heap in which some lists were sorted by keys.
structure Ledger (sorted : Handle → Prop) (h : Heap) : Prop where
  bytes : h.bytes = h.tally Slot.charge
  uncharged : ∀ (i : Nat) slot, h.slots[i]? = some slot → slot.object = none ∨ slot.immortal = true → slot.charge = 0
  free : ∀ i, i ∈ h.free ↔ ∃ slot, h.slots[i]? = some slot ∧ slot.object = none
  once : h.free.Nodup
  live : h.live = h.tally Slot.occupancy
  marks : h.marks = Array.replicate h.slots.size false
  exact : ∀ (r : Handle) slot object, h.slots[r.index]? = some slot → slot.generation = r.generation → slot.object = some object →
    slot.immortal = false → ¬ sorted r → slot.charge = object.charge

-- No subtraction of the ledger goes below zero, and no object is put where another one is.
structure Solvent (h : Heap) : Prop where
  charge : ∀ (i : Nat) slot, h.slots[i]? = some slot → slot.charge ≤ h.bytes
  freedBytes : h.mark.sweep.1.freedBytes ≤ h.bytes
  freedObjects : h.mark.sweep.1.freedObjects ≤ h.live
  vacant : ∀ object charge immortal slot, h.slots[(h.install object charge immortal).1.index]? = some slot → slot.object = none

theorem Booked.solvent {h : Heap} (booked : h.Booked) (intact : h.Intact) : h.Solvent := by
  obtain ⟨bytes,objects⟩ := h.mark.sweep_freed
  have charges := h.mark.tally_sweep Slot.charge fun _ => rfl
  have occupied := h.mark.tally_sweep Slot.occupancy fun _ => rfl
  rw [← bytes,show h.mark.tally Slot.charge = h.bytes from booked.bytes.symm] at charges
  rw [← objects,show h.mark.tally Slot.occupancy = h.live from booked.live.symm] at occupied
  refine ⟨fun i slot present => ?_,by omega,by omega,fun object charge immortal => (install_installed intact object charge immortal).vacant⟩
  rw [booked.bytes]
  exact le_tally present

theorem Clean.marks_clear {h : Heap} (clean : h.Clean) : h.marks = Array.replicate h.slots.size false := by
  apply Array.ext
  · rw [clean.sized,Array.size_replicate]
  · intro i inside _
    have unset := clean.unmarked i
    rw [Array.getD_eq_getD_getElem?,Array.getElem?_eq_getElem inside,Option.getD_some] at unset
    rw [unset,Array.getElem_replicate]

-- The books are right after every call, whether it succeeded or failed, and at every step of the next ones.
theorem called_ledger (called : Called sorted h) : h.Ledger sorted ∧ ∀ s, Steps h s → s.Solvent := by
  have intact := called.reachable.intact
  have booked := called.reachable.booked
  refine ⟨⟨booked.bytes,fun i slot present => ?_,intact.vacant,intact.once,booked.live,intact.toClean.marks_clear,?_⟩,fun s steps => ?_⟩
  · rw [← slotAt_some present]
    exact booked.uncharged i
  · intro r slot object present generation content mortal tight
    have kept := called.exact r.index object
    rw [slotAt_some present,generation] at kept
    exact kept content mortal tight
  · exact (steps.booked intact booked).solvent (steps.intact intact)

-- A list that was sorted by a key lost its room and is charged for it all the same; the map made after it is charged for
-- its cells.
theorem called_ledger_sorted :
    ∃ sorted h, Called sorted h ∧ sorted ⟨0,0⟩ ∧ ¬ sorted ⟨1,0⟩ ∧ h.Ledger sorted ∧ h.Solvent ∧
      h.object? ⟨0,0⟩ = some (.list ⟨#[],0,false⟩) ∧ (h.slotAt 0).charge = 88 + 16 * 3 ∧
      (h.slotAt 1).charge = (Object.map (.withCapacity 4)).charge := by
  have called := Called.call (.newMap 4) (.call (.listSort (.list ⟨0,0⟩) (.int 0)) (.call (.newList 3) (.new {})))
  obtain ⟨ledger,solvent⟩ := called_ledger called
  have accepted : (Call.run (new {}) (.newList 3)).writableList (.list ⟨0,0⟩) = .ok ⟨0,0⟩ := rfl
  have items : (Call.run (new {}) (.newList 3)).items? (.list ⟨0,0⟩) = some #[] := rfl
  have sorts : Call.run (Call.run (new {}) (.newList 3)) (.listSort (.list ⟨0,0⟩) (.int 0)) =
      ((Call.run (new {}) (.newList 3)).modifyList ⟨0,0⟩ fun l => { l with items := #[] }).modifyList ⟨0,0⟩
        fun l => { l with items := #[],capacity := 0 } := by
    change after (listSort (.list ⟨0,0⟩) (.int 0)) (Call.run (new {}) (.newList 3)) = _
    simp [after,listSort,accepted,items,Value.isNull]
  refine ⟨_,_,called,⟨Or.inl ⟨Or.inr ⟨.int 0,rfl,rfl⟩,?_⟩,?_⟩,?_,ledger,solvent _ .refl,?_,?_,?_⟩
  · rw [sorts]
    decide +kernel
  · rw [sorts]
    decide +kernel
  · rintro ⟨⟨⟨impossible | ⟨_,other,_⟩,_⟩ | ⟨_,other,_⟩,_⟩ | ⟨_,other,_⟩,_⟩
    · exact impossible
    · cases other
    · cases other
    · cases other
  · rw [sorts]
    decide +kernel
  · rw [sorts]
    decide +kernel
  · rw [sorts]
    decide +kernel

end Heap

end RegisterMachine
