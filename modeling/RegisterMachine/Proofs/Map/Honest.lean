import RegisterMachine.Proofs.Heap.Handles
import RegisterMachine.Proofs.Map.Filing

namespace RegisterMachine.Heap

-- A handle that was given out: its object is there, or it is past.
def Seen (h : Heap) (q : Handle) : Prop := h.isLive q = true ∨ h.Past q

-- Reachable by calls that name no string by a handle that was not given out. Other arguments may be anything.
inductive Honest : Heap → Prop where
  | new (config : HeapConfig) : Honest (Heap.new config)
  | call (call : Call) : Honest h → (∀ v ∈ call.names, v.Named h.Seen) → Honest (call.run h)

theorem Honest.reachable (honest : Honest h) : Reachable h := by
  induction honest with
  | new config => exact .new config
  | call call _ _ ih => exact .call call ih

theorem Honest.calls {calls : List Call} (honest : Honest h)
    (unnamed : ∀ call ∈ calls, ∀ v ∈ call.names, v.isString = false) : Honest (calls.foldl Call.run h) := by
  induction calls generalizing h with
  | nil => exact honest
  | cons call rest ih =>
      refine ih (.call call honest fun v named => ?_) fun other member => unnamed other (List.mem_cons_of_mem _ member)
      exact Value.named_other (unnamed call List.mem_cons_self v named)

-- A handle that leads to no text, and will not.
def Lost (h : Heap) (q : Handle) : Prop := (∃ object, h.object? q = some object ∧ ∀ text, object ≠ .str text) ∨ h.Past q

theorem Step.seen (step : Step h h') (intact : h.Intact) (young : h.Young) (few : h'.history.size < 2 ^ 32) (seen : h.Seen q) :
    h'.Seen q := by
  rcases seen with live | past
  · exact step.live intact young few live
  · exact Or.inr (step.past intact young few past)

theorem Step.lost (step : Step h h') (intact : h.Intact) (young : h.Young) (few : h'.history.size < 2 ^ 32) (lost : h.Lost q) :
    h'.Lost q := by
  rcases lost with ⟨object,present,other⟩ | past
  · rcases step.object intact young few present with ⟨object',later,rewritten⟩ | past
    · refine Or.inl ⟨object',later,fun text same => ?_⟩
      subst same
      cases rewritten
      exact other text rfl
    · exact Or.inr past
  · exact Or.inr (step.past intact young few past)

theorem Steps.fewer {h h' : Heap} (steps : Steps h h') (intact : h.Intact) : h.history.size ≤ h'.history.size := by
  induction steps with
  | refl => exact Nat.le_refl _
  | tail before step ih => exact Nat.le_trans ih (step.passes (Steps.intact before intact)).1

theorem Steps.lasts {property : Heap → Prop}
    (each : ∀ {s s'}, Step s s' → s.Intact → s.Young → s'.history.size < 2 ^ 32 → property s → property s') {h h' : Heap}
    (steps : Steps h h') (intact : h.Intact) (young : h.Young) (few : h'.history.size < 2 ^ 32) (start : property h) : property h' := by
  induction steps with
  | refl => exact start
  | tail before step ih =>
      have kept := Steps.intact before intact
      have fewer := Nat.lt_of_le_of_lt (step.passes kept).1 few
      exact each step kept (Steps.past before intact young fewer).1 few (ih fewer)

theorem Steps.seen {h h' : Heap} (steps : Steps h h') (intact : h.Intact) (young : h.Young) (few : h'.history.size < 2 ^ 32)
    (seen : h.Seen q) : h'.Seen q :=
  Steps.lasts Step.seen steps intact young few seen

theorem Steps.lost {h h' : Heap} (steps : Steps h h') (intact : h.Intact) (young : h.Young) (few : h'.history.size < 2 ^ 32)
    (lost : h.Lost q) : h'.Lost q :=
  Steps.lasts Step.lost steps intact young few lost

theorem Seen.lost {h : Heap} (seen : h.Seen q) (none : h.text? (.str q) = none) : h.Lost q := by
  rcases seen with live | past
  · obtain ⟨object,present⟩ := Option.isSome_iff_exists.mp live
    refine Or.inl ⟨object,present,fun text same => ?_⟩
    subst same
    rw [text?_str.mpr present] at none
    cases none
  · exact Or.inr past

theorem Lost.unsound {h : Heap} (lost : h.Lost q) : ¬ h.Sound (.str q) := by
  intro sound
  obtain ⟨object,present,fits⟩ := sound q rfl
  rcases lost with ⟨object',present',other⟩ | past
  · rw [present] at present'
    cases present'
    cases fits
    exact other _ rfl
  · have dead := past.dead
    rw [isLive,present] at dead
    cases dead

theorem seen_loses {h h' : Heap} (intact : h.Intact) (young : h.Young) (few : h'.history.size < 2 ^ 32) :
    Loses h.Seen h'.Lost h h' := by
  intro s before after q seen none
  have kept := Steps.intact before intact
  have fewer := Nat.lt_of_le_of_lt (Steps.fewer after kept) few
  have lost := (Steps.seen before intact young fewer seen).lost none
  exact Steps.lost after kept (Steps.past before intact young fewer).1 few lost

-- What is known of an honest heap.
structure Registered (h : Heap) : Prop where
  young : h.Young
  names : h.Names h.Seen
  filing : h.Filing h.Lost

theorem new_registered (config : HeapConfig) : (new config).Registered where
  young := fun _ => Nat.zero_le _
  names := by
    refine ⟨fun r table present => ?_,fun register member => absurd member (Array.not_mem_empty _)⟩
    simp [object?,new] at present
  filing := new_filing config

theorem Call.registered (call : Call) {h : Heap} (registered : h.Registered) (intact : h.Intact)
    (given : ∀ v ∈ call.names, v.Named h.Seen) (few : (call.run h).history.size < 2 ^ 32) : (call.run h).Registered := by
  have course : Course h.Seen (fun _ => True) (fun _ => True) h (call.run h) :=
    call.course registered.names given (fun _ _ => trivial) fun _ _ => trivial
  have steps := call.steps h
  have young := (Steps.past steps intact registered.young few).1
  refine ⟨young,(course.names registered.names).mono fun q => Steps.seen steps intact registered.young few,?_⟩
  refine course.filing intact (seen_loses intact registered.young few) fun r table present => ?_
  exact (registered.filing r table present).mono fun q => Steps.lost steps intact registered.young few

theorem Honest.registered (honest : Honest h) (few : h.history.size < 2 ^ 32) : h.Registered := by
  induction honest with
  | new config => exact new_registered config
  | @call h call before given ih =>
      have intact := before.reachable.intact
      exact call.registered (ih (Nat.lt_of_le_of_lt (Steps.fewer (call.steps h) intact) few)) intact given few

-- A key that is there was there when it was bound.
theorem Honest.hashed {entry : Entry} (honest : Honest h) (few : h.history.size < 2 ^ 32) (found : h.table? v = some table)
    (member : entry ∈ table.entries) (sound : h.Sound entry.key) : entry.hash ≠ 0 := by
  obtain ⟨r,_,present⟩ := table?_object.mp found
  intro zero
  have filed := (honest.registered few).filing r table present
  obtain ⟨q,string,lost⟩ := filed.gone (entry.key,entry.hash) (List.mem_map_of_mem member) zero
  have key : entry.key = .str q := string
  exact lost.unsound (key ▸ sound)

end RegisterMachine.Heap
