import RegisterMachine.Proofs.Heap.Canonical
import RegisterMachine.Proofs.Heap.Safety
import Mathlib.Algebra.Ring.Nat

namespace RegisterMachine

-- A slot before and after: its object stays, or is freed by a collection.
inductive Slot.Passes (collected : Prop) (slot slot' : Slot) : Prop where
  | stays : slot'.generation = slot.generation →
      (∀ object, slot.object = some object → ∃ object', slot'.object = some object' ∧ object.Rewritten object') → Passes collected slot slot'
  | freed : slot'.generation = slot.generation + 1 → collected → Passes collected slot slot'

theorem Slot.Passes.same {slot slot' : Slot} (same : slot'.generation = slot.generation) (object : slot'.object = slot.object) : slot.Passes collected slot' :=
  .stays same fun before present => ⟨before,object.trans present,.refl before⟩

theorem Slot.Alike.passes {slot slot' : Slot} (alike : slot.Alike slot') : slot.Passes collected slot' := by
  refine .stays alike.generation fun object present => ?_
  rcases alike.object with ⟨gone,_⟩ | ⟨before,after,here,later,rewritten⟩
  · rw [gone] at present
    cases present
  · rw [here] at present
    cases present
    exact ⟨after,later,rewritten⟩

namespace Heap

-- The slot has gone on to a later generation.
def Past (h : Heap) (r : Handle) : Prop := r.generation.toNat < (h.slotAt r.index).generation.toNat

-- No slot was freed more often than there were collections.
def Young (h : Heap) : Prop := ∀ i, (h.slotAt i).generation.toNat ≤ h.history.size

theorem Past.dead {h : Heap} (past : h.Past r) : h.isLive r = false := by
  rw [← Bool.not_eq_true,isLive_slotAt]
  intro live
  rw [Past,live.1] at past
  exact Nat.lt_irrefl _ past

theorem collect_history {h : Heap} (enabled : h.disabled = 0) : h.collect.2.history.size = h.history.size + 1 := by
  rw [collect_enabled enabled]
  simp [sweep,mark]

theorem collect_passes (h : Heap) (i : Nat) :
    (h.slotAt i).Passes (h.history.size < h.collect.2.history.size) (h.collect.2.slotAt i) := by
  by_cases enabled : h.disabled = 0
  · have counted := collect_history enabled
    rw [collect_enabled enabled] at counted ⊢
    rw [sweep_slotAt]
    split
    · exact .freed rfl (Nat.lt_of_succ_le (Nat.le_of_eq counted.symm))
    · exact .same rfl rfl
  · rw [collect_disabled enabled]
    exact .same rfl rfl

theorem Installed.passes {object : Object} (installed : Installed h object charge immortal r h') (i : Nat) :
    (h.slotAt i).Passes collected (h'.slotAt i) := by
  by_cases here : i = r.index
  · subst here
    rw [installed.slotAt_here]
    refine .stays installed.generation fun object present => ?_
    rw [installed.slotAt_vacant] at present
    cases present
  · rw [installed.slotAt_other here]
    exact .same rfl rfl

theorem Step.passes {h h' : Heap} (step : Step h h') (intact : h.Intact) :
    h.history.size ≤ h'.history.size ∧ ∀ i, (h.slotAt i).Passes (h.history.size < h'.history.size) (h'.slotAt i) := by
  cases step with
  | apart apart =>
      refine ⟨by rw [apart.history],fun i => ?_⟩
      rw [slotAt,slotAt,apart.slots]
      exact .same rfl rfl
  | rewrite size each =>
      refine ⟨Nat.le_refl _,slotAt_each size (fun i slot present => ?_) (.same rfl rfl)⟩
      obtain ⟨slot',present',rewritten⟩ := each i slot present
      exact ⟨slot',present',rewritten.alike.passes⟩
  | @recharge r =>
      refine ⟨?_,slotAt_each (size_recharge h r) (fun i slot present => ?_) (.same rfl rfl)⟩
      · rw [recharge_history]
      · obtain ⟨charge,charged⟩ := recharge_slot h r present
        exact ⟨_,charged,.same rfl rfl⟩
  | collect =>
      refine ⟨?_,collect_passes h⟩
      by_cases enabled : h.disabled = 0
      · rw [collect_history enabled]
        exact Nat.le_succ _
      · rw [collect_disabled enabled]
  | @install object =>
      have installed := allocated_installed intact object
      exact ⟨by rw [installed.history],installed.passes⟩
  | @intern text =>
      rcases intern_changes text intact with same | ⟨_,_,installed,_⟩
      · rw [same]
        exact ⟨Nat.le_refl _,fun i => .same rfl rfl⟩
      · exact ⟨by rw [installed.history],installed.passes⟩

theorem next_generation {g : UInt32} (small : g.toNat + 1 < 2 ^ 32) : (g + 1).toNat = g.toNat + 1 := by
  rw [UInt32.toNat_add,UInt32.toNat_one]
  exact Nat.mod_eq_of_lt small

theorem Step.young (step : Step h h') (intact : h.Intact) (young : h.Young) (few : h'.history.size < 2 ^ 32) : h'.Young := by
  obtain ⟨later,passes⟩ := step.passes intact
  intro i
  have bound := young i
  cases passes i with
  | stays same =>
      rw [same]
      omega
  | freed next collected =>
      rw [next,next_generation (by omega)]
      omega

theorem Step.past (step : Step h h') (intact : h.Intact) (young : h.Young) (few : h'.history.size < 2 ^ 32) (past : h.Past r) :
    h'.Past r := by
  have bound := young r.index
  unfold Past at past ⊢
  cases (step.passes intact).2 r.index with
  | stays same => rwa [same]
  | freed next collected =>
      rw [next,next_generation (by omega)]
      omega

theorem Step.object {object : Object} (step : Step h h') (intact : h.Intact) (young : h.Young) (few : h'.history.size < 2 ^ 32)
    (present : h.object? r = some object) : (∃ object', h'.object? r = some object' ∧ object.Rewritten object') ∨ h'.Past r := by
  have bound := young r.index
  obtain ⟨generation,full⟩ := object?_slotAt.mp present
  cases (step.passes intact).2 r.index with
  | stays same kept =>
      obtain ⟨object',later,rewritten⟩ := kept object full
      exact Or.inl ⟨object',object?_slotAt.mpr ⟨same.trans generation,later⟩,rewritten⟩
  | freed next collected =>
      right
      rw [Past,next,next_generation (by omega),generation]
      exact Nat.lt_succ_self _

theorem Step.live (step : Step h h') (intact : h.Intact) (young : h.Young) (few : h'.history.size < 2 ^ 32) (live : h.isLive r = true) :
    h'.isLive r = true ∨ h'.Past r := by
  obtain ⟨object,present⟩ := Option.isSome_iff_exists.mp live
  refine (step.object intact young few present).imp_left fun kept => ?_
  obtain ⟨object',later,_⟩ := kept
  rw [isLive,later]
  rfl

-- What is past stays so along every way that counts fewer collections than there are generations.
theorem Steps.past {h h' : Heap} (steps : Steps h h') (intact : h.Intact) (young : h.Young) (few : h'.history.size < 2 ^ 32) :
    h'.Young ∧ ∀ r, h.Past r → h'.Past r := by
  induction steps with
  | refl => exact ⟨young,fun _ past => past⟩
  | tail before step ih =>
      have kept := Steps.intact before intact
      obtain ⟨later,past⟩ := ih (Nat.lt_of_le_of_lt (step.passes kept).1 few)
      exact ⟨step.young kept later few,fun r old => step.past kept later few (past r old)⟩

-- A run of steps, with the handles that it gives out, the latest first. An allocation gives out one,
-- and so does the first interning of a text; no other step makes an object.
inductive Run : Heap → List Handle → Heap → Prop where
  | start : Run h [] h
  | quiet : Run h issued s → Step s s' → (∀ r, s'.isLive r = true → s.isLive r = true) → Run h issued s'
  | allocate {object : Object} : Run h issued s → object.Sane → s.exceedsLimit object.charge = false →
      Run h ((s.allocated object).1 :: issued) (s.allocated object).2
  | intern : Run h issued s → s.interned.get? text = none → s.intern text = (.str r,s') → Run h (r :: issued) s'

theorem Run.trans (first : Run h issued h') (second : Run h' more h'') : Run h (more ++ issued) h'' := by
  induction second with
  | start => exact first
  | quiet _ step none ih => exact .quiet ih step none
  | allocate _ sane room ih => exact .allocate ih sane room
  | intern _ absent made ih => exact .intern ih absent made

theorem Run.steps (run : Run h issued h') : Steps h h' := by
  induction run with
  | start => exact .refl
  | quiet _ step _ ih => exact ih.tail step
  | allocate _ sane room ih => exact ih.tail (.install sane room)
  | @intern issued s text r s' _ _ made ih =>
      have last : Step s (s.intern text).2 := .intern
      rw [made] at last
      exact ih.tail last

theorem live_object {h h' : Heap} (objects : ∀ r object, h'.object? r = some object → ∃ before, h.object? r = some before)
    (r : Handle) (live : h'.isLive r = true) : h.isLive r = true := by
  obtain ⟨object,present⟩ := Option.isSome_iff_exists.mp live
  exact Option.isSome_iff_exists.mpr (objects r object present)

theorem collect_older {h : Heap} (intact : h.Intact) (r : Handle) (live : h.collect.2.isLive r = true) : h.isLive r = true := by
  by_cases enabled : h.disabled = 0
  · refine live_object (fun q object present => ?_) r live
    exact ⟨object,((collect_object intact.toClean enabled).mp present).1⟩
  · rwa [collect_disabled enabled] at live

theorem rewrite_older {h : Heap} {slots : Array Slot} (size : slots.size = h.slots.size)
    (each : ∀ (i : Nat) (slot : Slot), h.slots[i]? = some slot → ∃ slot', slots[i]? = some slot' ∧ slot.Rewritten slot')
    (r : Handle) (live : { h with slots }.isLive r = true) : h.isLive r = true := by
  refine live_object (fun q object present => ?_) r live
  obtain ⟨slot',found,generation,content⟩ := object?_slot.mp present
  obtain ⟨slot,before,rewritten⟩ := slot_origin size each found
  have alike := rewritten.alike
  have full : slot.object ≠ none := fun gone => by rw [alike.empty.mpr gone] at content; cases content
  obtain ⟨old,held⟩ := Option.ne_none_iff_exists'.mp full
  exact ⟨old,object?_slot.mpr ⟨slot,before,alike.generation.symm.trans generation,held⟩⟩

theorem Step.run {h h' : Heap} (step : Step h h') (intact : h.Intact) : ∃ issued, Run h issued h' := by
  cases step with
  | apart apart =>
      refine ⟨[],.quiet .start (.apart apart) fun r live => ?_⟩
      rwa [isLive,object?,apart.slots] at live
  | rewrite size each => exact ⟨[],.quiet .start (.rewrite size each) (rewrite_older size each)⟩
  | recharge =>
      refine ⟨[],.quiet .start .recharge fun r live => ?_⟩
      rwa [isLive,recharge_object] at live
  | collect => exact ⟨[],.quiet .start .collect (collect_older intact)⟩
  | install sane room => exact ⟨_,.allocate .start sane room⟩
  | @intern text =>
      rcases intern_changes text intact with same | ⟨r,made,_,_,absent,_⟩
      · rw [same]
        exact ⟨[],.start⟩
      · exact ⟨[r],.intern .start absent made⟩

theorem Steps.run {h h' : Heap} (steps : Steps h h') (intact : h.Intact) : ∃ issued, Run h issued h' := by
  induction steps with
  | refl => exact ⟨[],.start⟩
  | tail before step ih =>
      obtain ⟨issued,run⟩ := ih
      obtain ⟨more,last⟩ := step.run (Steps.intact before intact)
      exact ⟨_,run.trans last⟩

theorem Swept.run (swept : Swept h h') (intact : h.Intact) : Run h [] h' := by
  induction swept with
  | refl => exact .start
  | tail before last ih =>
      subst last
      exact .quiet ih .collect (collect_older (Swept.steps before |>.intact intact))

theorem allocate_run {h h' : Heap} {object : Object} (intact : h.Intact) (sane : object.Sane) (made : allocate object h = .ok r h') :
    Run h [r] h' := by
  obtain ⟨s,swept,⟨_,failed⟩ | ⟨room,done⟩⟩ := allocate_parts object h
  · rw [failed] at made
    cases made
  · rw [done] at made
    cases made
    exact .allocate (swept.run intact) sane room

-- What is known of a heap and the handles given out before.
structure Tracked (issued : List Handle) (h : Heap) : Prop where
  intact : h.Intact
  young : h.Young
  fate : ∀ r ∈ issued, h.isLive r = true ∨ h.Past r
  once : issued.Nodup
  live : ∀ r, h.isLive r = true → r ∈ issued
  room : h.slots.size ≤ issued.length

theorem new_tracked (config : HeapConfig) : Tracked [] (new config) where
  intact := new_intact config
  young := fun i => Nat.zero_le _
  fate := fun r member => absurd member List.not_mem_nil
  once := List.nodup_nil
  live := fun r live => by cases live
  room := Nat.le_refl 0

theorem Installed.dead {object : Object} (installed : Installed h object charge immortal r h') : h.isLive r = false := by
  rw [isLive,Option.isSome_eq_false_iff,Option.isNone_iff_eq_none,Option.eq_none_iff_forall_ne_some]
  intro other present
  obtain ⟨slot,found,_,content⟩ := object?_slot.mp present
  rw [installed.vacant slot found] at content
  cases content

theorem Installed.size {object : Object} (installed : Installed h object charge immortal r h') : h'.slots.size ≤ h.slots.size + 1 := by
  by_contra more
  -- Of two slots beyond the old ones at most one is the new one.
  have outside : ∀ i, h.slots.size ≤ i → i < h'.slots.size → i = r.index := by
    intro i beyond inside
    by_contra other
    have same := installed.slots i
    rw [if_neg other,Array.getElem?_eq_getElem inside,Array.getElem?_eq_none beyond] at same
    cases same
  have first := outside h.slots.size (Nat.le_refl _) (by omega)
  have second := outside (h.slots.size + 1) (Nat.le_succ _) (by omega)
  omega

theorem Tracked.install {object : Object} (tracked : Tracked issued h) (installed : Installed h object charge immortal r h') (step : Step h h')
    (few : h'.history.size < 2 ^ 32) : Tracked (r :: issued) h' where
  intact := step.intact tracked.intact
  young := step.young tracked.intact tracked.young few
  fate := by
    intro q member
    rcases List.mem_cons.mp member with rfl | before
    · left
      rw [isLive,installed.object]
      rfl
    · rcases tracked.fate q before with live | past
      · exact step.live tracked.intact tracked.young few live
      · exact Or.inr (step.past tracked.intact tracked.young few past)
  once := by
    refine List.nodup_cons.mpr ⟨fun member => ?_,tracked.once⟩
    rcases tracked.fate r member with live | past
    · rw [installed.dead] at live
      cases live
    · rw [Past,← installed.generation] at past
      exact Nat.lt_irrefl _ past
  live := by
    intro q live
    obtain ⟨other,present⟩ := Option.isSome_iff_exists.mp live
    rcases installed.object_cases present with ⟨same,_⟩ | before
    · exact same ▸ List.mem_cons_self
    · exact List.mem_cons_of_mem _ (tracked.live q (Option.isSome_iff_exists.mpr ⟨other,before⟩))
  room := by
    have room := tracked.room
    have size := installed.size
    rw [List.length_cons]
    omega

theorem Step.quiet_size {h h' : Heap} (step : Step h h') (intact : h.Intact) (none : ∀ r, h'.isLive r = true → h.isLive r = true) :
    h'.slots.size = h.slots.size := by
  have visible : ∀ {object charge immortal r s}, Installed h object charge immortal r s → s = h' → h'.slots.size = h.slots.size := by
    intro object charge immortal r s installed same
    have live := none r (by rw [isLive,← same,installed.object]; rfl)
    rw [installed.dead] at live
    cases live
  cases step with
  | apart apart => rw [apart.slots]
  | rewrite size => exact size
  | recharge => exact size_recharge h _
  | collect =>
      by_cases enabled : h.disabled = 0
      · rw [collect_enabled enabled]
        exact size_sweep h.mark
      · rw [collect_disabled enabled]
  | install => exact visible (allocated_installed intact _) rfl
  | @intern text =>
      rcases intern_changes text intact with same | ⟨_,_,installed,_⟩
      · rw [same]
      · exact visible installed rfl

theorem Tracked.quiet (tracked : Tracked issued h) (step : Step h h') (none : ∀ r, h'.isLive r = true → h.isLive r = true)
    (few : h'.history.size < 2 ^ 32) : Tracked issued h' where
  intact := step.intact tracked.intact
  young := step.young tracked.intact tracked.young few
  fate := by
    intro r member
    rcases tracked.fate r member with live | past
    · exact step.live tracked.intact tracked.young few live
    · exact Or.inr (step.past tracked.intact tracked.young few past)
  once := tracked.once
  live := fun r live => tracked.live r (none r live)
  room := by
    have size : h'.slots.size = h.slots.size := step.quiet_size tracked.intact none
    rw [size]
    exact tracked.room

theorem Tracked.inside (tracked : Tracked issued h) (member : r ∈ issued) : r.index < h.slots.size := by
  by_contra beyond
  have empty := slotAt_none (h := h) (Array.getElem?_eq_none (Nat.le_of_not_lt beyond))
  rcases tracked.fate r member with live | past
  · have full := (isLive_slotAt.mp live).2
    rw [empty] at full
    cases full
  · rw [Past,empty] at past
    exact absurd past (Nat.not_lt_zero _)

theorem Run.tracked (run : Run h more h') (tracked : Tracked issued h) (few : h'.history.size < 2 ^ 32) : Tracked (more ++ issued) h' := by
  induction run with
  | start => exact tracked
  | quiet before step none ih =>
      have intact := before.steps.intact tracked.intact
      exact (ih (Nat.lt_of_le_of_lt (step.passes intact).1 few)).quiet step none few
  | allocate before sane room ih =>
      have intact := before.steps.intact tracked.intact
      have step : Step _ _ := .install sane room
      have later := ih (Nat.lt_of_le_of_lt (step.passes intact).1 few)
      exact later.install (allocated_installed intact _) step few
  | @intern before s text r s' run absent made ih =>
      have intact := run.steps.intact tracked.intact
      have step : Step s (s.intern text).2 := .intern
      rcases intern_cases text intact with ⟨_,_,same⟩ | ⟨_,found,_⟩ | ⟨_,_,same,installed,_⟩
      · rw [made] at same
        cases same
      · rw [absent] at found
        cases found
      · rw [made] at same step
        cases same
        exact (ih (Nat.lt_of_le_of_lt (step.passes intact).1 few)).install installed step few

theorem Run.tracked_new {config : HeapConfig} (run : Run (new config) issued h) (few : h.history.size < 2 ^ 32) : Tracked issued h := by
  have tracked := run.tracked (new_tracked config) few
  rwa [List.append_nil] at tracked

theorem intern_history {h : Heap} (text : String) (intact : h.Intact) : (h.intern text).2.history = h.history := by
  rcases intern_changes text intact with same | ⟨_,_,installed,_⟩
  · rw [same]
  · exact installed.history

-- The container that a call changes.
def Call.target? : Call → Option Value
  | listSet v _ _ | listPush v _ | listPop v | listPull v | listInsert v _ _ | listRemove v _ | listClear v | listSort v _
  | mapSet v _ _ | mapRemove v _ | mapClear v | bindRegister v _ _ | gather v | freeze v => some v
  | _ => none

-- A handle through which no object can be read, kept alive or changed.
structure Unusable (h : Heap) (r : Handle) : Prop where
  object : h.object? r = none
  reads : ∀ v, v.handle? = some r →
    h.text? v = none ∧ h.list? v = none ∧ h.table? v = none ∧ h.funcRef? v = none ∧ h.isInterned v = false
  marks : ∀ state, Marking.markHandle h.slots state r = state
  charges : h.recharge r = h
  writes : ∀ (call : Call) v, call.target? = some v → v.handle? = some r → call.run h = h

theorem writableList_dead {h : Heap} {v : Value} (dead : h.isLive r = false) (handle : v.handle? = some r) :
    ∃ e, h.writableList v = .error e := by
  cases accepted : h.writableList v with
  | error e => exact ⟨e,rfl⟩
  | ok q =>
      obtain ⟨rfl,live,_⟩ := writableList_parts accepted
      cases handle
      rw [dead] at live
      cases live

theorem mapHandle_dead {h : Heap} {v : Value} (dead : h.isLive r = false) (handle : v.handle? = some r) : ∃ e, h.mapHandle v = .error e := by
  cases accepted : h.mapHandle v with
  | error e => exact ⟨e,rfl⟩
  | ok q =>
      obtain ⟨rfl,live⟩ := mapHandle_parts accepted
      cases handle
      rw [dead] at live
      cases live

theorem markHandle_dead {h : Heap} (dead : h.isLive r = false) (state : Marking.State) : Marking.markHandle h.slots state r = state := by
  rw [isLive_holds] at dead
  rw [Marking.markHandle,dead]
  rfl

theorem trace_idle (slots : Array Slot) (references : Handle → List Value) (steps : Nat) (marks : Array Bool) :
    Marking.trace slots references steps { marks,work := [] } = { marks,work := [] } := by
  cases steps with
  | zero => rfl
  | succ steps => rfl

theorem freeze_dead {h : Heap} {v : Value} (dead : h.isLive r = false) (handle : v.handle? = some r) : h.freeze v = h := by
  have inside : h.insideOf v = Array.replicate h.slots.size false := by
    simp only [insideOf,Marking.markValue,handle,markHandle_dead dead,Marking.start,trace_idle]
  have unset : ∀ i, (Array.replicate h.slots.size false).getD i false = false := by
    intro i
    rw [Array.getD_eq_getD_getElem?,Array.getElem?_replicate]
    split <;> rfl
  have same : h.slots.mapIdx (fun _ slot => slot) = h.slots := by
    apply Array.ext
    · simp
    · simp
  simp only [freeze,inside,unset,Bool.false_eq_true,if_false,same]

theorem recharge_dead {h : Heap} (dead : h.isLive r = false) : h.recharge r = h := by
  rw [isLive_holds] at dead
  unfold recharge
  cases found : h.slots[r.index]? with
  | none => rfl
  | some slot =>
      simp only [Marking.holds,found] at dead
      by_cases generation : slot.generation = r.generation
      · have empty : slot.object = none := by simpa [generation] using dead
        simp [empty]
      · simp [generation]

theorem target_dead {h : Heap} {call : Call} (dead : h.isLive r = false) (target : call.target? = some v) (handle : v.handle? = some r) :
    call.run h = h := by
  obtain ⟨e,noList⟩ := writableList_dead dead handle
  obtain ⟨e',noMap⟩ := mapHandle_dead dead handle
  have noTable : h.writableMap v = .error e' := by simp only [writableMap,noMap]
  cases call with
  | listSet => cases target; simp only [Call.run,after,listSet,noList]
  | listPush => cases target; simp only [Call.run,after,listPush,updateList,noList]
  | listPop => cases target; simp only [Call.run,after,listPop,noList]
  | listPull => cases target; simp only [Call.run,after,listPull,noList]
  | listInsert w index item =>
      cases target
      obtain ⟨e,refused⟩ : ∃ e, listInsert v index item h = .error e h := by
        dsimp only [listInsert]
        generalize (if index.toInt < 0 then index.toInt + (h.listCount v : Int) + 1 else index.toInt) = i
        split
        · cases h.listHandle v with
          | error e => exact ⟨e,rfl⟩
          | ok q => exact ⟨_,rfl⟩
        · exact ⟨e,by simp only [updateList,noList]⟩
      simp only [Call.run,after,refused]
  | listRemove => cases target; simp only [Call.run,after,listRemove,noList]
  | listClear => cases target; simp only [Call.run,after,listClear,updateList,noList]
  | listSort => cases target; simp only [Call.run,after,listSort,noList]
  | mapSet => cases target; simp only [Call.run,after,mapSet,noTable]
  | mapRemove => cases target; simp only [Call.run,after,mapRemove,noTable]
  | mapClear => cases target; simp only [Call.run,after,mapClear,noTable]
  | bindRegister => cases target; simp only [Call.run,after,bindRegister,noMap]
  | gather => cases target; simp only [Call.run,after,gather,noMap]
  | freeze => cases target; exact freeze_dead dead handle
  | _ => cases target

theorem Intact.unusable {h : Heap} (intact : h.Intact) (dead : h.isLive r = false) : h.Unusable r := by
  have gone : h.object? r = none := by rwa [isLive,Option.isSome_eq_false_iff,Option.isNone_iff_eq_none] at dead
  refine ⟨gone,fun v handle => ?_,markHandle_dead dead,recharge_dead dead,fun call v => target_dead dead⟩
  cases v with
  | str q =>
      cases handle
      refine ⟨by rw [text?,gone],rfl,rfl,rfl,?_⟩
      rw [← Bool.not_eq_true]
      intro interned
      obtain ⟨text,present⟩ := intact.interned_text interned
      rw [gone] at present
      cases present
  | list q => cases handle; exact ⟨rfl,by rw [list?,gone],rfl,rfl,rfl⟩
  | map q => cases handle; exact ⟨rfl,rfl,by rw [table?,gone],rfl,rfl⟩
  | funcRef q => cases handle; exact ⟨rfl,rfl,rfl,by rw [funcRef?,gone],rfl⟩
  | null | int | double | short => cases handle

-- Along every run from a new heap with fewer collections than there are generations, no handle is
-- given out twice, and one that has become stale leads nowhere ever after.
theorem run_handles {config : HeapConfig} (run : Run (new config) issued h) (collections : h.history.size < 2 ^ 32)
    (allocations : issued.length < 2 ^ 32) :
    issued.Nodup ∧ (∀ r, h.isLive r = true → r ∈ issued) ∧ (∀ r ∈ issued, r.index < 2 ^ 32) ∧
      (∀ object r h', object.Sane → allocate object h = .ok r h' → Run (new config) (r :: issued) h' ∧
        (h'.history.size < 2 ^ 32 → r ∉ issued)) ∧
      (∀ text r h', h.interned.get? text = none → h.intern text = (.str r,h') → Run (new config) (r :: issued) h' ∧ r ∉ issued) ∧
      (∀ calls : List Call, ∃ more, Run h more (calls.foldl Call.run h)) ∧
      ∀ r ∈ issued, h.isLive r = false → ∀ more h', Run h more h' → h'.history.size < 2 ^ 32 → r ∉ more ∧ h'.Unusable r := by
  have tracked := run.tracked_new collections
  refine ⟨tracked.once,tracked.live,?_,?_,?_,?_,?_⟩
  · intro r member
    have inside := tracked.inside member
    have room := tracked.room
    omega
  · intro object r h' sane made
    have longer := run.trans (allocate_run tracked.intact sane made)
    exact ⟨longer,fun few => (List.nodup_cons.mp (longer.tracked_new few).once).1⟩
  · intro text r h' absent made
    have longer := Run.intern run absent made
    have history := intern_history text tracked.intact
    rw [made] at history
    exact ⟨longer,(List.nodup_cons.mp (longer.tracked_new (by rw [history]; exact collections)).once).1⟩
  · exact fun calls => (Calls.steps calls h).run tracked.intact
  · intro r member dead more h' later few
    have both := later.tracked tracked few
    have past : h.Past r := (tracked.fate r member).resolve_left (by rw [dead]; exact Bool.false_ne_true)
    have gone := (later.steps.past tracked.intact tracked.young few).2 r past
    refine ⟨fun again => ?_,both.intact.unusable gone.dead⟩
    exact (List.nodup_append.mp both.once).2.2 r again r member rfl

-- The slot of a freed list holds a map; the handle of the list leads nowhere, also when a host pushes to it.
theorem run_handles_reused :
    ∃ h : Heap, Run (new {}) [⟨0,1⟩,⟨0,0⟩] h ∧ h.history.size < 2 ^ 32 ∧ h.isLive ⟨0,1⟩ = true ∧ h.isLive ⟨0,0⟩ = false ∧
      h.Unusable ⟨0,0⟩ ∧ (Call.listPush (.list ⟨0,0⟩) .null).run h = h := by
  have list := allocate_run (new_intact {}) (sane_list (.ofItems #[] 0))
    (show allocate _ (new {}) = .ok ⟨0,0⟩ (after (newList 0) (new {})) from rfl)
  have freed := Run.quiet list .collect (collect_older (list.steps.intact (new_intact {})))
  have map := freed.trans (allocate_run (freed.steps.intact (new_intact {})) (sane_map (Table.withCapacity_valid 4))
    (show allocate _ (after (newList 0) (new {})).collect.2 = .ok ⟨0,1⟩ (after (newMap 4) (after (newList 0) (new {})).collect.2) from rfl))
  generalize whole : after (newMap 4) (after (newList 0) (new {})).collect.2 = h at map
  have facts : h.history.size = 1 ∧ h.isLive ⟨0,1⟩ = true ∧ h.isLive ⟨0,0⟩ = false := by
    rw [← whole]
    decide +kernel
  obtain ⟨counted,live,dead⟩ := facts
  have few : h.history.size < 2 ^ 32 := by omega
  obtain ⟨_,_,_,_,_,_,stale⟩ := run_handles map few (by decide)
  obtain ⟨_,unusable⟩ := stale ⟨0,0⟩ (by decide) dead [] h .start few
  exact ⟨h,map,few,live,dead,unusable,unusable.writes _ _ rfl rfl⟩

end Heap

end RegisterMachine
