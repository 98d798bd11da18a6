import RegisterMachine.Proofs.Heap.Steps
import RegisterMachine.Proofs.Heap.Marking

namespace RegisterMachine.Heap

-- A heap between collections: no slot is marked and nothing waits to be traced.
structure Clean (h : Heap) : Prop where
  sized : h.marks.size = h.slots.size
  unmarked : ∀ i, h.marks.getD i false = false
  idle : h.work = []

-- A handle of a slot that is never freed.
def Immortal (h : Heap) (r : Handle) : Prop :=
  ∃ slot, h.slots[r.index]? = some slot ∧ slot.generation = r.generation ∧ slot.immortal = true

def Survives (h : Heap) (r : Handle) : Prop := h.Immortal r ∨ h.Reached r

theorem emptyAll_slot (dying : List Nat) (once : dying.Nodup) (slots : Array Slot) (i : Nat) :
    (dying.foldl (fun slots i => slots.modify i emptied) slots)[i]? =
      if i ∈ dying then slots[i]?.map emptied else slots[i]? := by
  induction dying generalizing slots with
  | nil => simp
  | cons first rest ih =>
      obtain ⟨fresh,others⟩ := List.nodup_cons.mp once
      rw [List.foldl_cons,ih others,Array.getElem?_modify]
      by_cases here : first = i
      · subst i
        simp [fresh]
      · simp [here,Ne.symm here]

-- The slots that a sweep empties.
def dying (h : Heap) : List Nat :=
  (List.range h.slots.size).filter fun i => dies h.marks i (h.slots.getD i default)

theorem getD_slot {h : Heap} (present : h.slots[i]? = some slot) : h.slots.getD i default = slot := by
  rw [Array.getD_eq_getD_getElem?,present]
  rfl

-- The slot at an index. Beyond the last one there are empty slots at their first generation.
def slotAt (h : Heap) (i : Nat) : Slot := h.slots.getD i default

theorem slotAt_none {h : Heap} (outside : h.slots[i]? = none) : h.slotAt i = default := by
  rw [slotAt,Array.getD_eq_getD_getElem?,outside]
  rfl

theorem slotAt_some {h : Heap} (present : h.slots[i]? = some slot) : h.slotAt i = slot := getD_slot present

theorem object?_slotAt {h : Heap} {object : Object} :
    h.object? r = some object ↔ (h.slotAt r.index).generation = r.generation ∧ (h.slotAt r.index).object = some object := by
  rw [object?_slot]
  constructor
  · rintro ⟨slot,present,held⟩
    rwa [slotAt_some present]
  · intro held
    cases present : h.slots[r.index]? with
    | none =>
        rw [slotAt_none present] at held
        cases held.2
    | some slot =>
        rw [slotAt_some present] at held
        exact ⟨slot,rfl,held⟩

theorem isLive_slotAt {h : Heap} :
    h.isLive r = true ↔ (h.slotAt r.index).generation = r.generation ∧ (h.slotAt r.index).object.isSome = true := by
  simp only [isLive,Option.isSome_iff_exists,object?_slotAt,exists_and_left]

theorem mem_dying {h : Heap} : i ∈ h.dying ↔ ∃ slot, h.slots[i]? = some slot ∧ dies h.marks i slot = true := by
  rw [dying,List.mem_filter,List.mem_range]
  constructor
  · rintro ⟨inside,dead⟩
    have present : h.slots[i]? = some h.slots[i] := Array.getElem?_eq_getElem inside
    exact ⟨_,present,by rwa [getD_slot present] at dead⟩
  · rintro ⟨slot,present,dead⟩
    exact ⟨(Array.getElem?_eq_some_iff.mp present).1,by rwa [getD_slot present]⟩

theorem dying_nodup (h : Heap) : h.dying.Nodup := List.nodup_range.filter _

theorem sweep_slot (h : Heap) (i : Nat) :
    h.sweep.2.slots[i]? = h.slots[i]?.map fun slot => if dies h.marks i slot then emptied slot else slot := by
  have swept := emptyAll_slot h.dying h.dying_nodup h.slots i
  change h.sweep.2.slots[i]? = _ at swept
  rw [swept]
  cases present : h.slots[i]? with
  | none => simp
  | some slot =>
      by_cases dead : dies h.marks i slot = true
      · rw [if_pos (mem_dying.mpr ⟨slot,present,dead⟩),Option.map_some,Option.map_some,if_pos dead]
      · have stays : i ∉ h.dying := by
          intro member
          obtain ⟨other,same,gone⟩ := mem_dying.mp member
          rw [present] at same
          cases same
          exact dead gone
        rw [if_neg stays,Option.map_some,if_neg dead]

theorem sweep_slotAt (h : Heap) (i : Nat) :
    h.sweep.2.slotAt i = if dies h.marks i (h.slotAt i) then emptied (h.slotAt i) else h.slotAt i := by
  have swept := h.sweep_slot i
  cases present : h.slots[i]? with
  | none =>
      rw [present] at swept
      rw [slotAt_none present,slotAt_none swept,if_neg]
      simp [dies,default,instInhabitedSlot.default]
  | some slot =>
      rw [present] at swept
      rw [slotAt_some present,slotAt_some swept]

theorem size_sweep (h : Heap) : h.sweep.2.slots.size = h.slots.size := by
  change (h.dying.foldl (fun slots i => slots.modify i emptied) h.slots).size = _
  generalize h.slots = slots
  induction h.dying generalizing slots with
  | nil => rfl
  | cons first rest ih => rw [List.foldl_cons,ih,Array.size_modify]

theorem collect_enabled {h : Heap} (enabled : h.disabled = 0) :
    h.collect = (h.mark.sweep.1.freedBytes,h.mark.sweep.2) := by
  simp [collect,enabled]

theorem collect_disabled {h : Heap} (disabled : h.disabled ≠ 0) : h.collect = (0,h) := by
  simp [collect,Nat.pos_of_ne_zero disabled]

theorem mark_dies {h : Heap} (clean : h.Clean) (present : h.slots[i]? = some slot) (full : slot.object.isSome = true) :
    dies h.mark.marks i slot = true ↔ ¬ h.Survives ⟨i,slot.generation⟩ := by
  obtain ⟨_,_,marked⟩ := h.reached_exact clean.sized clean.unmarked clean.idle
  have live : Marking.holds h.slots ⟨i,slot.generation⟩ = true := Marking.holds_slot.mpr ⟨slot,present,rfl,full⟩
  have found : h.mark.marks.getD i false = true ↔ h.Reached ⟨i,slot.generation⟩ := by
    rw [← marked]
    exact ⟨fun set => ⟨live,set⟩,fun both => both.2⟩
  have eternal : slot.immortal = true ↔ h.Immortal ⟨i,slot.generation⟩ := by
    constructor
    · exact fun set => ⟨slot,present,rfl,set⟩
    · rintro ⟨other,same,_,set⟩
      rw [present] at same
      cases same
      exact set
  rw [Survives,← eternal,← found,dies,full]
  cases h.mark.marks.getD i false <;> cases slot.immortal <;> simp

theorem collect_object {h : Heap} (clean : h.Clean) (enabled : h.disabled = 0) :
    h.collect.2.object? r = some object ↔ h.object? r = some object ∧ h.Survives r := by
  rw [collect_enabled enabled,object?_slot,object?_slot]
  simp only [sweep_slot]
  have slots : h.mark.slots = h.slots := rfl
  rw [slots]
  constructor
  · rintro ⟨slot,present,generation,content⟩
    obtain ⟨old,before,rfl⟩ := Option.map_eq_some_iff.mp present
    split at generation
    · rename_i dead
      rw [if_pos dead] at content
      cases content
    · rename_i stays
      rw [if_neg stays] at content
      refine ⟨⟨old,before,generation,content⟩,?_⟩
      by_contra gone
      obtain ⟨index,generation'⟩ := r
      cases generation
      exact stays ((mark_dies clean before (by rw [content]; rfl)).mpr gone)
  · rintro ⟨⟨slot,present,generation,content⟩,survives⟩
    obtain ⟨index,generation'⟩ := r
    cases generation
    have stays : ¬ dies h.mark.marks index slot = true := by
      rw [mark_dies clean present (by rw [content]; rfl)]
      exact fun gone => gone survives
    exact ⟨slot,by rw [present,Option.map_some,if_neg stays],rfl,content⟩

-- Slots that lost their object from one heap to another.
def freedSlots (h h' : Heap) : List Nat :=
  (List.range h.slots.size).filter fun i =>
    (h.slots.getD i default).object.isSome && (h'.slots.getD i default).object.isNone

theorem freedSlots_collect {h : Heap} (enabled : h.disabled = 0) : h.freedSlots h.collect.2 = h.mark.dying := by
  rw [collect_enabled enabled]
  apply List.filter_congr
  intro i inside
  obtain ⟨slot,present⟩ : ∃ slot, h.slots[i]? = some slot :=
    ⟨_,Array.getElem?_eq_getElem (List.mem_range.mp inside)⟩
  have after := h.mark.sweep_slot i
  rw [show h.mark.slots[i]? = some slot from present,Option.map_some] at after
  rw [getD_slot after,getD_slot present,getD_slot (show h.mark.slots[i]? = some slot from present)]
  by_cases dead : dies h.mark.marks i slot = true
  · have full : slot.object.isSome = true := by simp only [dies,Bool.and_eq_true] at dead; exact dead.2
    simp [dead,full,emptied]
  · cases content : slot.object with
    | none => simp [dead,content]
    | some object => simp [dead,content]

theorem collect_bytes {h : Heap} (enabled : h.disabled = 0) :
    h.collect.1 = ((h.freedSlots h.collect.2).map fun i => (h.slots.getD i default).charge).sum := by
  rw [freedSlots_collect enabled,collect_enabled enabled]
  change h.mark.dying.foldl (fun total i => total + (h.slots.getD i default).charge) 0 = _
  rw [List.sum_eq_foldl,List.foldl_map]

theorem collect_clean {h : Heap} (clean : h.Clean) : h.collect.2.Clean := by
  by_cases enabled : h.disabled = 0
  · obtain ⟨size,done,_⟩ := h.reached_exact clean.sized clean.unmarked clean.idle
    rw [collect_enabled enabled]
    refine ⟨?_,?_,done⟩
    · rw [size_sweep]
      change (h.mark.marks.map fun _ => false).size = h.slots.size
      rw [Array.size_map]
      exact size
    · intro i
      change (h.mark.marks.map fun _ => false).getD i false = false
      rw [Array.getD_eq_getD_getElem?,Array.getElem?_map]
      cases h.mark.marks[i]? <;> rfl
  · rw [collect_disabled enabled]
    exact clean

end RegisterMachine.Heap
