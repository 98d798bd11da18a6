import RegisterMachine.Heap.Collect
import Mathlib.Data.List.Count

namespace RegisterMachine

-- What an object refers to, by its kind.
inductive Object.Refers : Object → Value → Prop where
  | item {list : ListObject} : v ∈ list.items → Refers (.list list) v
  | key {table : Table} {entry : Entry} : some entry ∈ table.cells → Refers (.map table) entry.key
  | value {table : Table} {entry : Entry} : some entry ∈ table.cells → Refers (.map table) entry.value
  | aliased {table : Table} {aliases : Aliases} : table.aliases = some aliases →
      (key,register) ∈ aliases.bindings → Refers (.map table) key
  | outer {ref : FuncRef} : Refers (.funcRef ref) ref.outer

theorem Table.mem_entries {table : Table} {entry : Entry} : entry ∈ table.entries ↔ some entry ∈ table.cells := by
  simp [Table.entries]

theorem Object.mem_references {object : Object} {v : Value} : v ∈ object.references ↔ object.Refers v := by
  constructor
  · intro member
    cases object with
    | str text => cases member
    | list list => exact .item (Array.mem_toList_iff.mp member)
    | map table =>
        rcases List.mem_append.mp member with inEntry | inAlias
        · obtain ⟨entry,listed,either⟩ := List.mem_flatMap.mp inEntry
          have present := Table.mem_entries.mp listed
          rcases List.mem_cons.mp either with rfl | last
          · exact .key present
          · rw [List.mem_singleton.mp last]; exact .value present
        · cases bindings : table.aliases with
          | none => rw [bindings] at inAlias; cases inAlias
          | some aliases =>
              rw [bindings] at inAlias
              obtain ⟨⟨key,register⟩,bound,rfl⟩ := List.mem_map.mp inAlias
              exact .aliased bindings (Array.mem_toList_iff.mp bound)
    | funcRef ref => rw [List.mem_singleton.mp member]; exact .outer
  · intro refers
    cases refers with
    | item member => exact Array.mem_toList_iff.mpr member
    | key present =>
        exact List.mem_append_left _ (List.mem_flatMap.mpr ⟨_,Table.mem_entries.mpr present,by simp⟩)
    | value present =>
        exact List.mem_append_left _ (List.mem_flatMap.mpr ⟨_,Table.mem_entries.mpr present,by simp⟩)
    | aliased bindings bound =>
        refine List.mem_append_right _ ?_
        rw [bindings]
        exact List.mem_map.mpr ⟨_,Array.mem_toList_iff.mpr bound,rfl⟩
    | outer => exact List.mem_singleton.mpr rfl

namespace Marking

variable {slots : Array Slot}

-- A live handle whose slot is marked.
def Marked (slots : Array Slot) (state : State) (r : Handle) : Prop :=
  holds slots r = true ∧ state.marks.getD r.index false = true

-- Slots that may still be marked and handles still to be traced.
def left (state : State) : Nat := state.marks.toList.count false + state.work.length

theorem holds_slot {r : Handle} : holds slots r = true ↔
    ∃ slot, slots[r.index]? = some slot ∧ slot.generation = r.generation ∧ slot.object.isSome = true := by
  unfold holds
  cases slots[r.index]? with
  | none => simp
  | some slot => simp

theorem holds_inside {r : Handle} (live : holds slots r = true) : r.index < slots.size := by
  obtain ⟨slot,present,_⟩ := holds_slot.mp live
  exact (Array.getElem?_eq_some_iff.mp present).1

theorem holds_unique {r s : Handle} (hr : holds slots r = true) (hs : holds slots s = true) (same : r.index = s.index) :
    r = s := by
  obtain ⟨slot,here,generation,_⟩ := holds_slot.mp hr
  obtain ⟨other,there,also,_⟩ := holds_slot.mp hs
  rw [same,there] at here
  cases here
  cases r
  cases s
  simp_all

-- What marking some values does to the marks and to the work.
structure Spread (slots : Array Slot) (values : List Value) (s t : State) : Prop where
  size : t.marks.size = s.marks.size
  left : left t = left s
  kept : ∀ r, Marked slots s r → Marked slots t r
  covers : ∀ v ∈ values, ∀ r, v.handle? = some r → holds slots r = true → Marked slots t r
  source : ∀ r, Marked slots t r → Marked slots s r ∨ ∃ v ∈ values, v.handle? = some r
  older : ∀ r ∈ s.work, r ∈ t.work
  queued : ∀ r ∈ t.work, r ∈ s.work ∨ Marked slots t r
  waits : ∀ r, Marked slots t r → Marked slots s r ∨ r ∈ t.work

theorem Spread.nil (s : State) : Spread slots [] s s where
  size := rfl
  left := rfl
  kept := fun _ marked => marked
  covers := fun _ member => absurd member List.not_mem_nil
  source := fun _ marked => Or.inl marked
  older := fun _ member => member
  queued := fun _ member => Or.inl member
  waits := fun _ marked => Or.inl marked

theorem Spread.append (first : Spread slots values s t) (second : Spread slots others t u) :
    Spread slots (values ++ others) s u where
  size := second.size.trans first.size
  left := second.left.trans first.left
  kept := fun r marked => second.kept r (first.kept r marked)
  covers := by
    intro v member r handle live
    rcases List.mem_append.mp member with early | late
    · exact second.kept r (first.covers v early r handle live)
    · exact second.covers v late r handle live
  source := by
    intro r marked
    rcases second.source r marked with before | ⟨v,member,handle⟩
    · rcases first.source r before with start | ⟨v,member,handle⟩
      · exact Or.inl start
      · exact Or.inr ⟨v,List.mem_append_left _ member,handle⟩
    · exact Or.inr ⟨v,List.mem_append_right _ member,handle⟩
  older := fun r member => second.older r (first.older r member)
  queued := by
    intro r member
    rcases second.queued r member with before | marked
    · rcases first.queued r before with start | marked
      · exact Or.inl start
      · exact Or.inr (second.kept r marked)
    · exact Or.inr marked
  waits := by
    intro r marked
    rcases second.waits r marked with before | waiting
    · rcases first.waits r before with start | waiting
      · exact Or.inl start
      · exact Or.inr (second.older r waiting)
    · exact Or.inr waiting

theorem getD_set_true (marks : Array Bool) (i j : Nat) (inside : i < marks.size) :
    (marks.setIfInBounds i true).getD j false = (decide (i = j) || marks.getD j false) := by
  rw [Array.getD_eq_getD_getElem?,Array.getD_eq_getD_getElem?,Array.getElem?_setIfInBounds]
  by_cases same : i = j
  · subst j
    simp [inside]
  · simp [same]

theorem count_mark (marks : List Bool) (i : Nat) (unmarked : marks[i]? = some false) :
    (marks.set i true).count false + 1 = marks.count false := by
  induction marks generalizing i with
  | nil => simp at unmarked
  | cons mark rest ih =>
      cases i with
      | zero =>
          have first : mark = false := by simpa using unmarked
          simp [first]
      | succ i =>
          have later := ih i (by simpa using unmarked)
          simp only [List.set_cons_succ,List.count_cons]
          omega

theorem markHandle_spread {s : State} (sized : s.marks.size = slots.size) (handle : v.handle? = some r) :
    Spread slots [v] s (markHandle slots s r) := by
  unfold markHandle
  split
  · rename_i fresh
    obtain ⟨live,clean⟩ : holds slots r = true ∧ s.marks.getD r.index true = false := by simpa using fresh
    have inside : r.index < s.marks.size := by rw [sized]; exact holds_inside live
    have unmarked : s.marks[r.index] = false := by simpa [Array.getD,inside] using clean
    have marked : ∀ q, Marked slots ⟨s.marks.setIfInBounds r.index true,r :: s.work⟩ q ↔ Marked slots s q ∨ q = r := by
      intro q
      simp only [Marked,getD_set_true _ _ _ inside,Bool.or_eq_true,decide_eq_true_eq]
      constructor
      · rintro ⟨alive,same | before⟩
        · exact Or.inr (holds_unique live alive same).symm
        · exact Or.inl ⟨alive,before⟩
      · rintro (⟨alive,before⟩ | rfl)
        · exact ⟨alive,Or.inr before⟩
        · exact ⟨live,Or.inl rfl⟩
    refine ⟨by simp,?_,?_,?_,?_,?_,?_,?_⟩
    · have counted := count_mark s.marks.toList r.index (by simp [inside,unmarked])
      simp only [left,Array.toList_setIfInBounds,List.length_cons]
      omega
    · exact fun q before => (marked q).mpr (Or.inl before)
    · intro w member q which _
      rw [List.mem_singleton.mp member,handle] at which
      cases which
      exact (marked r).mpr (Or.inr rfl)
    · intro q after
      rcases (marked q).mp after with before | rfl
      · exact Or.inl before
      · exact Or.inr ⟨v,List.mem_singleton.mpr rfl,handle⟩
    · exact fun q member => List.mem_cons_of_mem _ member
    · intro q member
      rcases List.mem_cons.mp member with rfl | before
      · exact Or.inr ((marked q).mpr (Or.inr rfl))
      · exact Or.inl before
    · intro q after
      rcases (marked q).mp after with before | rfl
      · exact Or.inl before
      · exact Or.inr List.mem_cons_self
  · rename_i known
    refine ⟨rfl,rfl,fun _ marked => marked,?_,fun _ marked => Or.inl marked,fun _ member => member,
      fun _ member => Or.inl member,fun _ marked => Or.inl marked⟩
    intro w member q which live
    rw [List.mem_singleton.mp member,handle] at which
    cases which
    have inside : r.index < s.marks.size := by rw [sized]; exact holds_inside live
    refine ⟨live,?_⟩
    simpa [live,Array.getD,inside] using known

theorem markValue_spread {s : State} (sized : s.marks.size = slots.size) (v : Value) :
    Spread slots [v] s (markValue slots s v) := by
  unfold markValue
  split
  · exact markHandle_spread sized (by assumption)
  · rename_i plain
    refine ⟨rfl,rfl,fun _ marked => marked,?_,fun _ marked => Or.inl marked,fun _ member => member,
      fun _ member => Or.inl member,fun _ marked => Or.inl marked⟩
    intro w member r which _
    rw [List.mem_singleton.mp member,plain] at which
    cases which

theorem foldl_spread {mark : State → α → State} {values : α → List Value}
    (spread : ∀ s a, s.marks.size = slots.size → Spread slots (values a) s (mark s a))
    (parts : List α) {s : State} (sized : s.marks.size = slots.size) :
    Spread slots (parts.flatMap values) s (parts.foldl mark s) := by
  induction parts generalizing s with
  | nil => exact .nil s
  | cons part rest ih =>
      have first := spread s part sized
      exact first.append (ih (first.size.trans sized))

theorem markValues_spread {s : State} (values : List Value) (sized : s.marks.size = slots.size) :
    Spread slots values s (values.foldl (markValue slots) s) := by
  have spread := foldl_spread (fun s v sized => markValue_spread sized v) values sized
  rwa [List.flatMap_singleton'] at spread

-- The result of tracing: no work is left, and the marks are the least closed set over the first ones.
structure Traced (slots : Array Slot) (references : Handle → List Value) (s t : State) : Prop where
  size : t.marks.size = s.marks.size
  done : t.work = []
  kept : ∀ r, Marked slots s r → Marked slots t r
  closed : ∀ r, Marked slots t r → ∀ v ∈ references r, ∀ q, v.handle? = some q → holds slots q = true → Marked slots t q
  least : ∀ P : Handle → Prop, (∀ r, Marked slots s r → P r) →
    (∀ r, P r → ∀ v ∈ references r, ∀ q, v.handle? = some q → holds slots q = true → P q) → ∀ r, Marked slots t r → P r

-- The invariant: a marked handle waits for its turn, or everything it refers to is marked.
theorem trace_traced (references : Handle → List Value) (steps : Nat) {s : State} (sized : s.marks.size = slots.size)
    (enough : left s ≤ steps) (queued : ∀ r ∈ s.work, Marked slots s r)
    (turn : ∀ r, Marked slots s r → r ∈ s.work ∨
      ∀ v ∈ references r, ∀ q, v.handle? = some q → holds slots q = true → Marked slots s q) :
    Traced slots references s (trace slots references steps s) := by
  induction steps generalizing s with
  | zero =>
      have empty : s.work = [] := by
        apply List.eq_nil_of_length_eq_zero
        unfold left at enough
        omega
      refine ⟨rfl,empty,fun _ marked => marked,?_,fun P start _ r marked => start r marked⟩
      intro r marked
      rcases turn r marked with waiting | passed
      · rw [empty] at waiting; cases waiting
      · exact passed
  | succ steps ih =>
      obtain ⟨marks,work⟩ := s
      cases work with
      | nil =>
          refine ⟨rfl,rfl,fun _ marked => marked,?_,fun P start _ r marked => start r marked⟩
          intro r marked
          rcases turn r marked with waiting | passed
          · cases waiting
          · exact passed
      | cons r work =>
          have here : Marked slots ⟨marks,work⟩ r := queued r List.mem_cons_self
          have spread := markValues_spread (references r) (show (State.mk marks work).marks.size = slots.size from sized)
          have fewer : left ⟨marks,work⟩ ≤ steps := by
            simp only [left,List.length_cons] at enough ⊢
            omega
          have next := ih (spread.size.trans sized) (Nat.le_trans (Nat.le_of_eq spread.left) fewer) ?_ ?_
          · refine ⟨next.size.trans spread.size,next.done,fun q marked => next.kept q (spread.kept q marked),next.closed,?_⟩
            intro P start step
            refine next.least P ?_ step
            intro q marked
            rcases spread.source q marked with before | ⟨v,member,handle⟩
            · exact start q before
            · exact step r (start r here) v member q handle marked.1
          · intro q member
            rcases spread.queued q member with before | marked
            · exact spread.kept q (queued q (List.mem_cons_of_mem _ before))
            · exact marked
          · intro q marked
            rcases spread.waits q marked with before | waiting
            · rcases turn q before with waiting | passed
              · rcases List.mem_cons.mp waiting with rfl | later
                · exact Or.inr spread.covers
                · exact Or.inl (spread.older q later)
              · exact Or.inr fun v member p handle live => spread.kept p (passed v member p handle live)
            · exact Or.inl waiting

end Marking

namespace Heap

inductive IsRoot (h : Heap) : Value → Prop where
  | shadow : v ∈ h.shadow → IsRoot h v
  | persistent : some v ∈ h.roots → IsRoot h v
  | register : register ∈ h.registers → IsRoot h register.value
  | name : register ∈ h.registers → IsRoot h register.name
  | callback : some marked ∈ h.callbacks → v ∈ marked → IsRoot h v

-- What the roots lead to through live objects.
inductive Reached (h : Heap) : Handle → Prop where
  | root : h.IsRoot v → v.handle? = some r → h.isLive r = true → Reached h r
  | refers : Reached h q → h.object? q = some object → object.Refers v → v.handle? = some r →
      h.isLive r = true → Reached h r

theorem isLive_holds (h : Heap) (r : Handle) : h.isLive r = Marking.holds h.slots r := by
  unfold isLive object? Marking.holds
  cases h.slots[r.index]? with
  | none => rfl
  | some slot =>
      by_cases same : slot.generation = r.generation
      · simp [same]
      · simp [same]

def held (values : α → List Value) : Option α → List Value
  | some place => values place
  | none => []

theorem markHeld_spread {slots : Array Slot} (values : α → List Value) (s : Marking.State) (place : Option α)
    (sized : s.marks.size = slots.size) :
    Marking.Spread slots (held values place) s (Marking.markHeld slots values s place) := by
  cases place with
  | none => exact .nil s
  | some place => exact Marking.markValues_spread _ sized

def rootValues (h : Heap) : List Value :=
  h.shadow ++ h.roots.toList.flatMap (held fun v => [v]) ++
    h.registers.toList.flatMap (fun register => [register.value,register.name]) ++
    h.callbacks.toList.flatMap (held id)

theorem mem_rootValues {h : Heap} {v : Value} : v ∈ h.rootValues ↔ h.IsRoot v := by
  simp only [rootValues,List.mem_append,List.mem_flatMap]
  constructor
  · rintro (((member | ⟨place,listed,member⟩) | ⟨register,listed,member⟩) | ⟨place,listed,member⟩)
    · exact .shadow member
    · cases place with
      | none => cases member
      | some w => rw [List.mem_singleton.mp member]; exact .persistent (Array.mem_toList_iff.mp listed)
    · rcases List.mem_cons.mp member with rfl | last
      · exact .register (Array.mem_toList_iff.mp listed)
      · rw [List.mem_singleton.mp last]; exact .name (Array.mem_toList_iff.mp listed)
    · cases place with
      | none => cases member
      | some marked => exact .callback (Array.mem_toList_iff.mp listed) member
  · intro root
    cases root with
    | shadow member => exact Or.inl (Or.inl (Or.inl member))
    | persistent member =>
        exact Or.inl (Or.inl (Or.inr ⟨some v,Array.mem_toList_iff.mpr member,List.mem_singleton.mpr rfl⟩))
    | register member => exact Or.inl (Or.inr ⟨_,Array.mem_toList_iff.mpr member,by simp⟩)
    | name member => exact Or.inl (Or.inr ⟨_,Array.mem_toList_iff.mpr member,by simp⟩)
    | callback member marked => exact Or.inr ⟨_,Array.mem_toList_iff.mpr member,marked⟩

theorem markRoots_spread (h : Heap) {s : Marking.State} (sized : s.marks.size = h.slots.size) :
    Marking.Spread h.slots h.rootValues s (Marking.markRoots h s) := by
  simp only [Marking.markRoots,rootValues,← Array.foldl_toList]
  have guarded := Marking.markValues_spread h.shadow sized
  have persistent := Marking.foldl_spread (markHeld_spread fun v => [v]) h.roots.toList
    (guarded.size.trans sized)
  have first := guarded.append persistent
  have named := Marking.foldl_spread
    (fun s (register : Register) sized =>
      have value := Marking.markValue_spread sized register.value
      value.append (Marking.markValue_spread (value.size.trans sized) register.name))
    h.registers.toList (first.size.trans sized)
  have second := first.append named
  exact second.append (Marking.foldl_spread (markHeld_spread id) h.callbacks.toList (second.size.trans sized))

theorem Reached.live {h : Heap} (reached : h.Reached r) : h.isLive r = true := by
  cases reached with
  | root _ _ live => exact live
  | refers _ _ _ _ live => exact live

theorem referencesOf_object {h : Heap} {object : Object} (present : h.object? r = some object) :
    Marking.referencesOf h.slots r = object.references := by
  unfold object? at present
  unfold Marking.referencesOf
  cases found : h.slots[r.index]? with
  | none => rw [found] at present; cases present
  | some slot =>
      simp only [found] at present
      split at present
      · simp only [present,Option.elim]
      · cases present

-- What marking finds, from a heap without marks: exactly what the roots lead to.
theorem reached_exact (h : Heap) (sized : h.marks.size = h.slots.size) (clean : ∀ i, h.marks.getD i false = false)
    (idle : h.work = []) :
    (Marking.reached h).marks.size = h.slots.size ∧ (Marking.reached h).work = [] ∧
      ∀ r, Marking.Marked h.slots (Marking.reached h) r ↔ h.Reached r := by
  have spread := h.markRoots_spread (show (Marking.State.mk h.marks h.work).marks.size = h.slots.size from sized)
  have unmarked : ∀ r, ¬ Marking.Marked h.slots ⟨h.marks,h.work⟩ r := by
    rintro r ⟨_,marked⟩
    rw [clean] at marked
    cases marked
  have total : Marking.left ⟨h.marks,h.work⟩ ≤ h.slots.size := by
    have bound := List.count_le_length (a := false) (l := h.marks.toList)
    rw [Array.length_toList,sized] at bound
    simpa [Marking.left,idle] using bound
  have traced := Marking.trace_traced (Marking.referencesOf h.slots) h.slots.size (spread.size.trans sized)
    (Nat.le_trans (Nat.le_of_eq spread.left) total) ?_ ?_
  · refine ⟨traced.size.trans (spread.size.trans sized),traced.done,fun r => ⟨?_,?_⟩⟩
    · refine traced.least h.Reached ?_ ?_ r
      · intro q marked
        rcases spread.source q marked with before | ⟨v,member,handle⟩
        · exact absurd before (unmarked q)
        · exact .root (mem_rootValues.mp member) handle (by rw [isLive_holds]; exact marked.1)
      · intro q reached v member p handle live
        obtain ⟨object,present⟩ := Option.isSome_iff_exists.mp reached.live
        rw [referencesOf_object present] at member
        exact .refers reached present (Object.mem_references.mp member) handle (by rw [isLive_holds]; exact live)
    · intro reached
      induction reached with
      | root root handle live =>
          rw [isLive_holds] at live
          exact traced.kept _ (spread.covers _ (mem_rootValues.mpr root) _ handle live)
      | refers _ present refers handle live marked =>
          rw [isLive_holds] at live
          refine traced.closed _ marked _ ?_ _ handle live
          rw [referencesOf_object present]
          exact Object.mem_references.mpr refers
  · intro r member
    rcases spread.queued r member with before | marked
    · rw [idle] at before; cases before
    · exact marked
  · intro r marked
    rcases spread.waits r marked with before | waiting
    · exact absurd before (unmarked r)
    · exact Or.inl waiting

end Heap

end RegisterMachine
