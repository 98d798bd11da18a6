import RegisterMachine.Proofs.Heap.Collection
import Mathlib.Data.List.Nodup

namespace RegisterMachine

-- Slots of one generation with objects of one kind.
structure Slot.Alike (slot slot' : Slot) : Prop where
  generation : slot'.generation = slot.generation
  immortal : slot'.immortal = slot.immortal
  object : (slot.object = none ∧ slot'.object = none) ∨
    ∃ before after, slot.object = some before ∧ slot'.object = some after ∧ before.Rewritten after

theorem Slot.Alike.charged (slot : Slot) (charge : Nat) : slot.Alike { slot with charge } := by
  obtain ⟨content,generation,_,immortal⟩ := slot
  cases content with
  | none => exact ⟨rfl,rfl,Or.inl ⟨rfl,rfl⟩⟩
  | some object => exact ⟨rfl,rfl,Or.inr ⟨object,object,rfl,rfl,.refl object⟩⟩

theorem Slot.Rewritten.alike {slot slot' : Slot} (rewritten : slot.Rewritten slot') : slot.Alike slot' := by
  cases rewritten with
  | same => exact .charged slot slot.charge
  | changed content change => exact ⟨rfl,rfl,Or.inr ⟨_,_,content,rfl,change⟩⟩

theorem Slot.Alike.empty {slot slot' : Slot} (alike : slot.Alike slot') : slot'.object = none ↔ slot.object = none := by
  rcases alike.object with ⟨gone,gone'⟩ | ⟨before,after,old,new,_⟩
  · rw [gone,gone']
  · simp [old,new]

theorem Slot.Alike.text {slot slot' : Slot} {text : String} (alike : slot.Alike slot') :
    slot'.object = some (.str text) ↔ slot.object = some (.str text) := by
  rcases alike.object with ⟨gone,gone'⟩ | ⟨before,after,old,new,change⟩
  · rw [gone,gone']
  · rw [old,new]
    cases change with
    | str | funcRef => exact Iff.rfl
    | list | map => simp

namespace Heap

structure Intact (h : Heap) : Prop extends Clean h where
  once : h.free.Nodup
  vacant : ∀ i, i ∈ h.free ↔ ∃ slot, h.slots[i]? = some slot ∧ slot.object = none
  eternal : ∀ (i : Nat) (slot : Slot), h.slots[i]? = some slot → slot.immortal = true → ∃ text, slot.object = some (.str text)
  interned : ∀ text r, h.interned.get? text = some r → ∃ slot, h.slots[r.index]? = some slot ∧
    slot.generation = r.generation ∧ slot.immortal = true ∧ slot.object = some (.str text)
  tables : ∀ (i : Nat) (slot : Slot) (table : Table), h.slots[i]? = some slot → slot.object = some (.map table) → table.Valid

theorem new_intact (config : HeapConfig) : (new config).Intact where
  sized := rfl
  unmarked := by simp [new]
  idle := rfl
  once := List.nodup_nil
  vacant := by simp [new]
  eternal := by simp [new]
  interned := by simp [new]
  tables := by simp [new]

theorem Intact.table {h : Heap} {table : Table} (intact : h.Intact) (object : h.object? r = some (.map table)) :
    table.Valid := by
  obtain ⟨slot,present,_,content⟩ := object?_slot.mp object
  exact intact.tables _ slot table present content

theorem slot_origin {slots slots' : Array Slot} {becomes : Slot → Slot → Prop} (size : slots'.size = slots.size)
    (each : ∀ (i : Nat) (slot : Slot), slots[i]? = some slot → ∃ slot', slots'[i]? = some slot' ∧ becomes slot slot')
    {i : Nat} {slot' : Slot} (present : slots'[i]? = some slot') : ∃ slot, slots[i]? = some slot ∧ becomes slot slot' := by
  have inside : i < slots.size := by rw [← size]; exact (Array.getElem?_eq_some_iff.mp present).1
  obtain ⟨other,same,becomes⟩ := each i slots[i] (Array.getElem?_eq_getElem inside)
  rw [present] at same
  cases same
  exact ⟨_,Array.getElem?_eq_getElem inside,becomes⟩

theorem slotAt_each {h h' : Heap} {becomes : Slot → Slot → Prop} (size : h'.slots.size = h.slots.size)
    (each : ∀ (i : Nat) (slot : Slot), h.slots[i]? = some slot → ∃ slot', h'.slots[i]? = some slot' ∧ becomes slot slot')
    (beyond : becomes default default) (i : Nat) : becomes (h.slotAt i) (h'.slotAt i) := by
  cases present : h.slots[i]? with
  | none =>
      have outside : h'.slots[i]? = none := by rwa [Array.getElem?_eq_none_iff,size,← Array.getElem?_eq_none_iff]
      rwa [slotAt_none present,slotAt_none outside]
  | some slot =>
      obtain ⟨slot',present',becomes⟩ := each i slot present
      rwa [slotAt_some present,slotAt_some present']

theorem Intact.reslot {h h' : Heap} (intact : h.Intact) (size : h'.slots.size = h.slots.size)
    (each : ∀ (i : Nat) (slot : Slot), h.slots[i]? = some slot → ∃ slot', h'.slots[i]? = some slot' ∧ slot.Alike slot')
    (marks : h'.marks = h.marks) (work : h'.work = h.work) (free : h'.free = h.free)
    (interned : h'.interned = h.interned) : h'.Intact := by
  refine ⟨⟨by rw [marks,size,intact.sized],by rw [marks]; exact intact.unmarked,by rw [work,intact.idle]⟩,
    by rw [free]; exact intact.once,?_,?_,?_,?_⟩
  · intro i
    rw [free,intact.vacant]
    constructor
    · rintro ⟨slot,present,empty⟩
      obtain ⟨slot',present',alike⟩ := each i slot present
      exact ⟨slot',present',alike.empty.mpr empty⟩
    · rintro ⟨slot',present',empty⟩
      obtain ⟨slot,present,alike⟩ := slot_origin size each present'
      exact ⟨slot,present,alike.empty.mp empty⟩
  · intro i slot' present' immortal
    obtain ⟨slot,present,alike⟩ := slot_origin size each present'
    obtain ⟨text,content⟩ := intact.eternal i slot present (by rw [← alike.immortal]; exact immortal)
    exact ⟨text,alike.text.mpr content⟩
  · intro text r found
    rw [interned] at found
    obtain ⟨slot,present,generation,immortal,content⟩ := intact.interned text r found
    obtain ⟨slot',present',alike⟩ := each _ slot present
    exact ⟨slot',present',by rw [alike.generation,generation],by rw [alike.immortal,immortal],alike.text.mpr content⟩
  · intro i slot' table present' content
    obtain ⟨slot,present,alike⟩ := slot_origin size each present'
    rcases alike.object with ⟨_,gone⟩ | ⟨before,after,old,new,change⟩
    · rw [content] at gone; cases gone
    · rw [content] at new
      cases new
      cases change with
      | map keeps => exact keeps (intact.tables i slot _ present old)

theorem recharge_slot (h : Heap) (r : Handle) {i : Nat} {slot : Slot} (present : h.slots[i]? = some slot) :
    ∃ charge, (h.recharge r).slots[i]? = some { slot with charge } := by
  unfold recharge
  cases found : h.slots[r.index]? with
  | none => exact ⟨slot.charge,present⟩
  | some held =>
      simp only
      cases held.immortal || held.generation != r.generation with
      | true => exact ⟨slot.charge,present⟩
      | false =>
          cases held.object with
          | none => exact ⟨slot.charge,present⟩
          | some object =>
              simp only [Bool.false_eq_true,if_false,Array.getElem?_modify,present]
              split
              · exact ⟨object.charge,rfl⟩
              · exact ⟨slot.charge,rfl⟩

@[simp] theorem size_recharge (h : Heap) (r : Handle) : (h.recharge r).slots.size = h.slots.size := by
  unfold recharge
  repeat' split
  all_goals simp

theorem recharge_others (h : Heap) (r : Handle) :
    (h.recharge r).marks = h.marks ∧ (h.recharge r).work = h.work ∧ (h.recharge r).free = h.free ∧
      (h.recharge r).interned = h.interned := by
  unfold recharge
  repeat' split
  all_goals exact ⟨rfl,rfl,rfl,rfl⟩

theorem recharge_history (h : Heap) (r : Handle) : (h.recharge r).history = h.history := by
  unfold recharge
  repeat' split
  all_goals rfl

theorem recharge_intact {h : Heap} (r : Handle) (intact : h.Intact) : (h.recharge r).Intact := by
  obtain ⟨marks,work,free,interned⟩ := h.recharge_others r
  refine intact.reslot (size_recharge h r) ?_ marks work free interned
  intro i slot present
  obtain ⟨charge,charged⟩ := recharge_slot h r present
  exact ⟨_,charged,.charged slot charge⟩

theorem dies_mortal {marks : Array Bool} {slot : Slot} (dead : dies marks i slot = true) :
    slot.immortal = false ∧ slot.object ≠ none := by
  simp only [dies,Bool.and_eq_true,Bool.not_eq_true'] at dead
  exact ⟨dead.1.2,Option.isSome_iff_ne_none.mp dead.2⟩

theorem dies_immortal {marks : Array Bool} {slot : Slot} (immortal : slot.immortal = true) : ¬ dies marks i slot = true := by
  intro dead
  rw [(dies_mortal dead).1] at immortal
  cases immortal

theorem swept_slot {h : Heap} {i : Nat} {slot' : Slot} : h.mark.sweep.2.slots[i]? = some slot' ↔
    ∃ slot, h.slots[i]? = some slot ∧ (if dies h.mark.marks i slot then emptied slot else slot) = slot' := by
  rw [sweep_slot]
  exact Option.map_eq_some_iff

theorem sweep_intact {h : Heap} (intact : h.Intact) (clean : h.mark.sweep.2.Clean) : h.mark.sweep.2.Intact where
  toClean := clean
  once := by
    refine List.Nodup.append (List.nodup_reverse.mpr h.mark.dying_nodup) intact.once ?_
    intro i dead vacant
    obtain ⟨slot,present,dies⟩ := mem_dying.mp (List.mem_reverse.mp dead)
    obtain ⟨other,same,empty⟩ := (intact.vacant i).mp vacant
    rw [show h.slots[i]? = some slot from present] at same
    cases same
    exact (dies_mortal dies).2 empty
  vacant := by
    intro i
    change i ∈ h.mark.dying.reverse ++ h.free ↔ _
    rw [List.mem_append,List.mem_reverse,mem_dying,intact.vacant]
    constructor
    · rintro (⟨slot,present,dead⟩ | ⟨slot,present,empty⟩)
      · exact ⟨emptied slot,swept_slot.mpr ⟨slot,present,if_pos dead⟩,rfl⟩
      · exact ⟨slot,swept_slot.mpr ⟨slot,present,if_neg fun dead => (dies_mortal dead).2 empty⟩,empty⟩
    · rintro ⟨slot',present',empty⟩
      obtain ⟨slot,present,same⟩ := swept_slot.mp present'
      by_cases dead : dies h.mark.marks i slot = true
      · exact Or.inl ⟨slot,present,dead⟩
      · rw [if_neg dead] at same
        exact Or.inr ⟨slot,present,by rw [same]; exact empty⟩
  eternal := by
    intro i slot' present' immortal
    obtain ⟨slot,present,same⟩ := swept_slot.mp present'
    have old : slot.immortal = true := by
      rw [← same] at immortal
      split at immortal <;> exact immortal
    rw [if_neg (dies_immortal old)] at same
    rw [← same]
    exact intact.eternal i slot present old
  interned := by
    intro text r found
    obtain ⟨slot,present,generation,immortal,content⟩ := intact.interned text r found
    exact ⟨slot,swept_slot.mpr ⟨slot,present,if_neg (dies_immortal immortal)⟩,generation,immortal,content⟩
  tables := by
    intro i slot' table present' content
    obtain ⟨slot,present,same⟩ := swept_slot.mp present'
    by_cases dead : dies h.mark.marks i slot = true
    · rw [if_pos dead] at same
      rw [← same] at content
      cases content
    · rw [if_neg dead] at same
      rw [← same] at content
      exact intact.tables i slot table present content

theorem collect_intact {h : Heap} (intact : h.Intact) : h.collect.2.Intact := by
  have clean := collect_clean intact.toClean
  by_cases enabled : h.disabled = 0
  · rw [collect_enabled enabled] at clean ⊢
    exact sweep_intact intact clean
  · rw [collect_disabled enabled]
    exact intact

-- Where an object is put: into a slot that was free or not there, under a handle that fits it.
structure Installed (h : Heap) (object : Object) (charge : Nat) (immortal : Bool) (r : Handle) (h' : Heap) : Prop where
  slots : ∀ i, h'.slots[i]? =
    if i = r.index then some { object := some object, generation := r.generation, charge, immortal } else h.slots[i]?
  vacant : ∀ slot, h.slots[r.index]? = some slot → slot.object = none
  generation : r.generation = (h.slotAt r.index).generation
  live : h'.live = h.live + 1
  history : h'.history = h.history
  once : h'.free.Nodup
  free : ∀ i, i ∈ h'.free ↔ i ∈ h.free ∧ i ≠ r.index
  clean : h'.Clean

theorem install_installed {h : Heap} (intact : h.Intact) (object : Object) (charge : Nat) (immortal : Bool) :
    Installed h object charge immortal (h.install object charge immortal).1 (h.install object charge immortal).2 := by
  unfold install
  cases listed : h.free with
  | cons i rest =>
      have once := intact.once
      rw [listed] at once
      obtain ⟨fresh,others⟩ := List.nodup_cons.mp once
      obtain ⟨slot,present,empty⟩ := (intact.vacant i).mp (by rw [listed]; exact List.mem_cons_self)
      have inside := (Array.getElem?_eq_some_iff.mp present).1
      simp only
      refine ⟨?_,?_,rfl,rfl,rfl,others,?_,⟨?_,intact.unmarked,intact.idle⟩⟩
      · intro j
        rw [Array.getElem?_setIfInBounds]
        by_cases same : i = j
        · subst j
          simp [inside]
        · simp [same,Ne.symm same]
      · intro other same
        rw [present] at same
        cases same
        exact empty
      · intro j
        rw [listed,List.mem_cons]
        constructor
        · intro member
          refine ⟨Or.inr member,?_⟩
          rintro rfl
          exact fresh member
        · rintro ⟨rfl | member,different⟩
          · exact absurd rfl different
          · exact member
      · rw [Array.size_setIfInBounds]
        exact intact.sized
  | nil =>
      have absent : ∀ slot, h.slots[h.slots.size]? ≠ some slot := by
        intro slot present
        exact absurd (Array.getElem?_eq_some_iff.mp present).1 (Nat.lt_irrefl _)
      simp only
      refine ⟨?_,fun slot present => absurd present (absent slot),?_,rfl,rfl,List.nodup_nil,?_,⟨?_,?_,intact.idle⟩⟩
      · intro j
        rw [Array.getElem?_push]
      · rw [slotAt_none Array.getElem?_size]
        rfl
      · intro j
        rw [listed]
        simp
      · rw [Array.size_push,Array.size_push,intact.sized]
      · intro j
        have before := intact.unmarked j
        rw [Array.getD_eq_getD_getElem?] at before ⊢
        rw [Array.getElem?_push]
        split
        · rfl
        · exact before

theorem Installed.others {i : Nat} {slot : Slot} (installed : Installed h object charge immortal r h')
    (present : h.slots[i]? = some slot) (full : slot.object.isSome = true) : h'.slots[i]? = some slot := by
  rw [installed.slots]
  split
  · rename_i same
    subst i
    rw [installed.vacant slot present] at full
    cases full
  · exact present

theorem Installed.slotAt_here {object : Object} (installed : Installed h object charge immortal r h') :
    h'.slotAt r.index = { object := some object,generation := r.generation,charge,immortal } := by
  apply slotAt_some
  rw [installed.slots,if_pos rfl]

theorem Installed.slotAt_other {object : Object} (installed : Installed h object charge immortal r h') (other : i ≠ r.index) :
    h'.slotAt i = h.slotAt i := by
  rw [slotAt,slotAt,Array.getD_eq_getD_getElem?,Array.getD_eq_getD_getElem?,installed.slots,if_neg other]

theorem Installed.slotAt_vacant {object : Object} (installed : Installed h object charge immortal r h') : (h.slotAt r.index).object = none := by
  cases present : h.slots[r.index]? with
  | none =>
      rw [slotAt_none present]
      rfl
  | some slot =>
      rw [slotAt_some present]
      exact installed.vacant slot present

theorem Installed.intact {h h' : Heap} {object : Object} (installed : Installed h object charge immortal r h')
    (intact : h.Intact) (valid : ∀ t, object = .map t → t.Valid) (eternal : immortal = true → ∃ text, object = .str text)
    (interned : ∀ text q, h'.interned.get? text = some q → h.interned.get? text = some q ∨
      q = r ∧ immortal = true ∧ object = .str text) : h'.Intact := by
  have here : h'.slots[r.index]? = some { object := some object, generation := r.generation, charge, immortal } := by
    rw [installed.slots,if_pos rfl]
  refine ⟨installed.clean,installed.once,?_,?_,?_,?_⟩
  · intro i
    rw [installed.free,intact.vacant,installed.slots]
    by_cases same : i = r.index
    · simp [same]
    · simp [same]
  · intro i slot present set
    rw [installed.slots] at present
    split at present
    · cases present
      obtain ⟨text,rfl⟩ := eternal set
      exact ⟨text,rfl⟩
    · exact intact.eternal i slot present set
  · intro text q found
    rcases interned text q found with before | ⟨rfl,set,rfl⟩
    · obtain ⟨slot,present,generation,set,content⟩ := intact.interned text q before
      exact ⟨slot,installed.others present (by rw [content]; rfl),generation,set,content⟩
    · exact ⟨_,here,rfl,set,rfl⟩
  · intro i slot table present content
    rw [installed.slots] at present
    split at present
    · cases present
      exact valid table (Option.some.inj content)
    · exact intact.tables i slot table present content

theorem install_interned (h : Heap) (object : Object) (charge : Nat) (immortal : Bool) :
    (h.install object charge immortal).2.interned = h.interned := by
  unfold install
  split <;> rfl

theorem allocated_installed {h : Heap} (intact : h.Intact) (object : Object) :
    Installed h object object.charge false (h.allocated object).1 (h.allocated object).2 := by
  have charged : { h with bytes := h.bytes + object.charge }.Intact :=
    intact.reslot rfl (fun i slot present => ⟨slot,present,.charged slot slot.charge⟩) rfl rfl rfl rfl
  obtain ⟨slots,vacant,generation,live,history,once,free,clean⟩ := install_installed charged object object.charge false
  exact ⟨slots,vacant,generation,live,history,once,free,clean⟩

theorem Installed.object {object : Object} (installed : Installed h object charge immortal r h') :
    h'.object? r = some object := by
  rw [object?,installed.slots,if_pos rfl]
  simp

theorem install_roots (h : Heap) (object : Object) (charge : Nat) (immortal : Bool) :
    SameRoots h (h.install object charge immortal).2 := by
  unfold install
  split <;> exact ⟨rfl,rfl,rfl,rfl,rfl,rfl⟩

theorem allocated_roots (h : Heap) (object : Object) : SameRoots h (h.allocated object).2 := by
  have charged : SameRoots h { h with bytes := h.bytes + object.charge } := ⟨rfl,rfl,rfl,rfl,rfl,rfl⟩
  exact charged.trans (install_roots _ object object.charge false)

theorem ofString?_some {text : String} {t : ShortText} : ShortText.ofString? text = some t ↔ t.text = text := by
  obtain ⟨inside,fits⟩ := t
  unfold ShortText.ofString?
  split
  · simp [eq_comm]
  · rename_i long
    simp only [reduceCtorEq,false_iff]
    intro same
    exact long (same ▸ fits)

theorem ofString?_none {text : String} : ShortText.ofString? text = none ↔ 5 < text.utf8ByteSize := by
  simp [ShortText.ofString?]

-- A text is short, interned before, or put into an immortal slot.
theorem intern_cases {h : Heap} (text : String) (intact : h.Intact) :
    (∃ t : ShortText, t.text = text ∧ h.intern text = (.short t,h)) ∨ (∃ r, h.interned.get? text = some r ∧ h.intern text = (.str r,h)) ∨
      ∃ r h', h.intern text = (.str r,h') ∧ Installed h (.str text) 0 true r h' ∧ SameRoots h h' ∧
        h'.interned = h.interned.insert text r ∧ h.interned.get? text = none ∧ 5 < text.utf8ByteSize := by
  unfold intern
  cases size : ShortText.ofString? text with
  | some short => exact Or.inl ⟨short,ofString?_some.mp size,rfl⟩
  | none =>
      cases found : h.interned.get? text with
      | some r => exact Or.inr (Or.inl ⟨r,rfl,rfl⟩)
      | none =>
          obtain ⟨slots,vacant,generation,live,history,once,free,clean⟩ := install_installed intact (.str text) 0 true
          have roots := install_roots h (.str text) 0 true
          have interned := install_interned h (.str text) 0 true
          simp only
          generalize h.install (.str text) 0 true = made at *
          refine Or.inr (Or.inr ⟨made.1,_,rfl,⟨slots,vacant,generation,live,history,once,free,clean.sized,clean.unmarked,clean.idle⟩,
            ?_,?_,trivial,ofString?_none.mp size⟩)
          · exact ⟨roots.shadow,roots.scopes,roots.roots,roots.freeRoots,roots.callbacks,roots.registers⟩
          · exact congrArg (fun known => Std.TreeMap.insert known text made.1) interned

theorem intern_changes {h : Heap} (text : String) (intact : h.Intact) :
    (h.intern text).2 = h ∨ ∃ r, h.intern text = (.str r,(h.intern text).2) ∧ Installed h (.str text) 0 true r (h.intern text).2 ∧
      (h.intern text).2.interned = h.interned.insert text r ∧ h.interned.get? text = none ∧ 5 < text.utf8ByteSize := by
  rcases intern_cases text intact with ⟨_,_,same⟩ | ⟨_,_,same⟩ | ⟨r,h',same,installed,_,interned,absent,size⟩
  · exact Or.inl (by rw [same])
  · exact Or.inl (by rw [same])
  · rw [same]
    exact Or.inr ⟨r,rfl,installed,interned,absent,size⟩

theorem intern_intact {h : Heap} (text : String) (intact : h.Intact) : (h.intern text).2.Intact := by
  rcases intern_changes text intact with same | ⟨r,_,installed,interned,_⟩
  · rw [same]
    exact intact
  · refine installed.intact intact (fun t impossible => by cases impossible) (fun _ => ⟨text,rfl⟩) ?_
    intro other q
    simp only [interned,Std.TreeMap.get?_eq_getElem?,Std.TreeMap.getElem?_insert]
    split
    · rename_i equal
      rw [Std.LawfulEqCmp.compare_eq_iff_eq] at equal
      subst other
      intro listed
      cases listed
      exact Or.inr (by simp)
    · exact Or.inl

theorem Step.intact (step : Step h h') (intact : h.Intact) : h'.Intact := by
  cases step with
  | apart apart =>
      obtain ⟨⟨sized,unmarked,idle⟩,once,vacant,eternal,interned,tables⟩ := intact
      rw [← apart.slots,← apart.marks] at sized
      rw [← apart.marks] at unmarked
      rw [← apart.work] at idle
      rw [← apart.free] at once vacant
      rw [← apart.slots] at vacant eternal interned tables
      rw [← apart.interned] at interned
      exact ⟨⟨sized,unmarked,idle⟩,once,vacant,eternal,interned,tables⟩
  | rewrite size each =>
      refine intact.reslot size ?_ rfl rfl rfl rfl
      intro i slot present
      obtain ⟨slot',present',rewritten⟩ := each i slot present
      exact ⟨slot',present',rewritten.alike⟩
  | recharge => exact recharge_intact _ intact
  | collect => exact collect_intact intact
  | install sane _ =>
      refine (allocated_installed intact _).intact intact sane.table (fun impossible => by cases impossible) ?_
      intro text q found
      rw [allocated,install_interned] at found
      exact Or.inl found
  | intern => exact intern_intact _ intact

theorem Steps.intact (steps : Steps h h') (intact : h.Intact) : h'.Intact := by
  induction steps with
  | refl => exact intact
  | tail _ step ih => exact step.intact ih

-- An allocation that succeeds: some collections, and then the object in a slot of its own.
theorem allocate_ok {h h' : Heap} (intact : h.Intact) (made : allocate object h = .ok r h') :
    ∃ s, Swept h s ∧ s.Intact ∧ Installed s object object.charge false r h' := by
  obtain ⟨s,swept,⟨_,failed⟩ | ⟨_,done⟩⟩ := allocate_parts object h
  · rw [failed] at made
    cases made
  · rw [done] at made
    cases made
    have kept := swept.steps.intact intact
    exact ⟨s,swept,kept,allocated_installed kept object⟩

theorem map_ok {operation : HeapM α} {f : α → β} (made : (f <$> operation) h = .ok b h') :
    ∃ a, operation h = .ok a h' ∧ f a = b := by
  simp only [Functor.map,EStateM.map] at made
  split at made
  · rename_i a s result
    cases made
    exact ⟨a,result,rfl⟩
  · cases made

end Heap

end RegisterMachine
