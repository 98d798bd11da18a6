import RegisterMachine.Proofs.Heap.Retention

namespace RegisterMachine.Heap

inductive RootEvent where
  | given (id : Nat) (v : Value) | stored (id : Nat) (v : Value) | returned (id : Nat)

def RootEvent.id : RootEvent → Nat
  | given id _ | stored id _ | returned id => id

-- How a number stands: with the value stored last while it is held, and once it was given back with
-- whether a value was stored through it since.
inductive Tenure where
  | never | held (v : Value) | back (stored : Bool)
  deriving DecidableEq

def Tenure.next (tenure : Tenure) : RootEvent → Tenure
  | .given _ v => .held v
  | .stored _ v => match tenure with
    | never => .never
    | held _ => .held v
    | back _ => .back true
  | .returned _ => match tenure with
    | never => .never
    | held _ | back _ => .back false

def tenure (id : Nat) : List RootEvent → Tenure
  | [] => .never
  | event :: earlier => if event.id = id then (tenure id earlier).next event else tenure id earlier

-- No number that was given back is given back again after a value was stored through it.
def GivenBackOnce : List RootEvent → Prop
  | [] => True
  | .returned id :: earlier => tenure id earlier ≠ .back true ∧ GivenBackOnce earlier
  | .given _ _ :: earlier | .stored _ _ :: earlier => GivenBackOnce earlier

def Call.rootEvent? (h : Heap) : Call → Option RootEvent
  | addRoot v => some (.given (h.addRoot v).1 v)
  | setRoot id v => some (.stored id v)
  | removeRoot id => some (.returned id)
  | _ => none

structure Tenancy where
  heap : Heap
  events : List RootEvent

def Tenancy.call (t : Tenancy) (call : Call) : Tenancy := ⟨call.run t.heap,(call.rootEvent? t.heap).toList ++ t.events⟩

def Tenancy.calls (t : Tenancy) (calls : List Call) : Tenancy := calls.foldl Tenancy.call t

def Tenancy.new (config : HeapConfig) : Tenancy := ⟨Heap.new config,[]⟩

def Tenure.Place (h : Heap) (id : Nat) : Tenure → Prop
  | never => h.roots[id]? = none
  | held v => h.roots[id]? = some (some v)
  | back stored => id ∈ h.freeRoots ∧ ∃ content, h.roots[id]? = some content ∧ content.isSome = stored

structure Tenancy.Placed (t : Tenancy) : Prop where
  place : ∀ id, (tenure id t.events).Place t.heap id
  free : ∀ id ∈ t.heap.freeRoots, id < t.heap.roots.size

-- Free numbers are free once, and held by nobody.
structure Tenancy.Exclusive (t : Tenancy) : Prop where
  once : t.heap.freeRoots.Nodup
  unheld : ∀ id ∈ t.heap.freeRoots, ∃ stored, tenure id t.events = .back stored

section

variable {id : Nat} {v : Value} {h h' : Heap} {event : RootEvent} {later events : List RootEvent} {t : Tenancy}

theorem tenure_here : tenure event.id (event :: events) = (tenure event.id events).next event := if_pos rfl

theorem tenure_other (other : event.id ≠ id) : tenure id (event :: events) = tenure id events := if_neg other

theorem tenure_apart (apart : ∀ event ∈ later, event.id ≠ id) : tenure id (later ++ events) = tenure id events := by
  induction later with
  | nil => rfl
  | cons event rest ih =>
      rw [List.cons_append,tenure_other (apart event List.mem_cons_self)]
      exact ih fun event member => apart event (List.mem_cons_of_mem _ member)

theorem GivenBackOnce.earlier (once : GivenBackOnce (later ++ events)) : GivenBackOnce events := by
  induction later with
  | nil => exact once
  | cons event rest ih =>
      cases event with
      | given | stored => exact ih once
      | returned id => exact ih once.2

theorem Call.uneventful {call : Call} (quiet : call.rootEvent? h = none) :
    (call.run h).roots = h.roots ∧ (call.run h).freeRoots = h.freeRoots := by
  cases roots : call.roots with
  | false =>
      obtain ⟨same,free,_⟩ := Call.rooted roots h
      exact ⟨same,free⟩
  | true =>
      cases call with
      | registerCallback => exact ⟨rfl,rfl⟩
      | unregisterCallback id =>
          simp only [run,Heap.unregisterCallback]
          split <;> exact ⟨rfl,rfl⟩
      | addRoot | setRoot | removeRoot => cases quiet
      | _ => cases roots

theorem addRoot_number (h : Heap) (v : Value) : h.freeRoots = (h.addRoot v).1 :: (h.addRoot v).2.freeRoots ∨
    (h.freeRoots = [] ∧ (h.addRoot v).2.freeRoots = [] ∧ (h.addRoot v).1 = h.roots.size) := by
  unfold addRoot
  split
  · rename_i free
    exact Or.inl free
  · rename_i free
    exact Or.inr ⟨free,free,rfl⟩

theorem addRoot_free (h : Heap) (v : Value) : (h.addRoot v).2.freeRoots = h.freeRoots.tail := by
  rcases h.addRoot_number v with free | ⟨before,after,_⟩
  · rw [free,List.tail_cons]
  · rw [before,after,List.tail_nil]

theorem addRoot_here (v : Value) (free : ∀ id ∈ h.freeRoots, id < h.roots.size) :
    (h.addRoot v).2.roots[(h.addRoot v).1]? = some (some v) := by
  unfold addRoot
  split
  · rename_i id rest some
    exact Array.getElem?_setIfInBounds_self_of_lt (free id (some ▸ List.mem_cons_self))
  · exact Array.getElem?_push_size

theorem addRoot_others (other : (h.addRoot v).1 ≠ id) : (h.addRoot v).2.roots[id]? = h.roots[id]? := by
  revert other
  unfold addRoot
  split
  · exact fun other => Array.getElem?_setIfInBounds_ne other
  · intro other
    rw [Array.getElem?_push,if_neg (Ne.symm other)]

theorem removeRoot_number (h : Heap) (id : Nat) :
    (h.removeRoot id = h ∧ ∀ v, h.roots[id]? ≠ some (some v)) ∨ ((∃ v, h.roots[id]? = some (some v)) ∧
      h.removeRoot id = { h with roots := h.roots.setIfInBounds id none,freeRoots := id :: h.freeRoots }) := by
  rcases present : h.roots[id]? with _ | content
  · exact Or.inl ⟨by simp only [removeRoot,Array.getD_eq_getD_getElem?,present,Option.getD_none],by simp⟩
  · cases content with
    | none => exact Or.inl ⟨by simp only [removeRoot,Array.getD_eq_getD_getElem?,present,Option.getD_some],by simp⟩
    | some v => exact Or.inr ⟨⟨v,rfl⟩,by simp only [removeRoot,Array.getD_eq_getD_getElem?,present,Option.getD_some]⟩

theorem Tenure.Place.move {tenure : Tenure} (place : tenure.Place h id) (same : h'.roots[id]? = h.roots[id]?)
    (free : id ∈ h.freeRoots → id ∈ h'.freeRoots) : tenure.Place h' id := by
  cases tenure with
  | never | held => exact same.trans place
  | back stored =>
      obtain ⟨member,content,present,some⟩ := place
      exact ⟨free member,content,same.trans present,some⟩

theorem Tenure.Place.value {tenure : Tenure} (place : tenure.Place h id) (present : h.roots[id]? = some (some v)) :
    tenure = .held v ∨ tenure = .back true := by
  cases tenure with
  | never =>
      have outside : h.roots[id]? = none := place
      rw [present] at outside
      cases outside
  | held w =>
      have here : h.roots[id]? = some (some w) := place
      rw [present] at here
      cases here
      exact Or.inl rfl
  | back stored =>
      obtain ⟨_,content,here,some⟩ := place
      rw [present] at here
      cases here
      exact Or.inr (congrArg _ some.symm)

theorem Tenure.Place.empty {tenure : Tenure} (place : tenure.Place h id) (empty : ∀ v, h.roots[id]? ≠ some (some v)) :
    tenure = .never ∨ tenure = .back false := by
  cases tenure with
  | never => exact Or.inl rfl
  | held w => exact absurd place (empty w)
  | back stored =>
      obtain ⟨_,content,here,rfl⟩ := place
      cases content with
      | none => exact Or.inr rfl
      | some w => exact absurd here (empty w)

namespace Tenancy

theorem call_quiet {call : Call} (quiet : call.rootEvent? t.heap = none) : t.call call = ⟨call.run t.heap,t.events⟩ := by
  rw [Tenancy.call,quiet,Option.toList_none,List.nil_append]

theorem calls_events (t : Tenancy) (calls : List Call) : ∃ later, (t.calls calls).events = later ++ t.events := by
  induction calls generalizing t with
  | nil => exact ⟨[],rfl⟩
  | cons call rest ih =>
      obtain ⟨later,same⟩ := ih (t.call call)
      exact ⟨later ++ (call.rootEvent? t.heap).toList,same.trans (List.append_assoc _ _ _).symm⟩

theorem Placed.next (placed : t.Placed) (h : Heap) (event : RootEvent)
    (here : ((tenure event.id t.events).next event).Place h event.id)
    (others : ∀ id, event.id ≠ id → h.roots[id]? = t.heap.roots[id]? ∧ (id ∈ t.heap.freeRoots → id ∈ h.freeRoots))
    (free : ∀ id ∈ h.freeRoots, id < h.roots.size) : Placed ⟨h,event :: t.events⟩ := by
  refine ⟨fun id => ?_,free⟩
  by_cases same : event.id = id
  · subst same
    rw [tenure_here]
    exact here
  · obtain ⟨roots,stays⟩ := others id same
    rw [tenure_other same]
    exact (placed.place id).move roots stays

theorem Placed.given (placed : t.Placed) (v : Value) : (t.call (.addRoot v)).Placed := by
  change Placed ⟨(t.heap.addRoot v).2,_⟩
  refine placed.next _ (.given _ v) (addRoot_here v placed.free)
    (fun id other => ⟨addRoot_others other,fun member => ?_⟩) fun id member => ?_
  · rcases t.heap.addRoot_number v with free | ⟨free,_⟩
    · rw [free] at member
      exact (List.mem_cons.mp member).resolve_left (Ne.symm other)
    · rw [free] at member
      cases member
  · rw [addRoot_free] at member
    exact Nat.lt_of_lt_of_le (placed.free id (List.mem_of_mem_tail member)) (addRoot_level t.heap v).places

theorem Placed.stored (placed : t.Placed) (id : Nat) (v : Value) : (t.call (.setRoot id v)).Placed := by
  change Placed ⟨t.heap.setRoot id v,_⟩
  refine placed.next _ (.stored id v) ?_ (fun other apart => ⟨Array.getElem?_setIfInBounds_ne apart,fun member => member⟩) ?_
  · have place := placed.place id
    have inside {content} (present : t.heap.roots[id]? = some content) : (t.heap.setRoot id v).roots[id]? = some (some v) :=
      Array.getElem?_setIfInBounds_self_of_lt (Array.getElem?_eq_some_iff.mp present).1
    revert place
    simp only [RootEvent.id]
    cases tenure id t.events with
    | never =>
        intro (outside : t.heap.roots[id]? = none)
        exact Array.getElem?_eq_none (by rw [setRoot,Array.size_setIfInBounds]; exact Array.getElem?_eq_none_iff.mp outside)
    | held w => exact fun present => inside present
    | back stored =>
        rintro ⟨member,content,present,_⟩
        exact ⟨member,some v,inside present,rfl⟩
  · intro other member
    rw [setRoot,Array.size_setIfInBounds]
    exact placed.free other member

theorem Placed.returned (placed : t.Placed) (id : Nat) : (t.call (.removeRoot id)).Placed := by
  have place := placed.place id
  change Placed ⟨t.heap.removeRoot id,_⟩
  rcases t.heap.removeRoot_number id with ⟨same,empty⟩ | ⟨⟨v,present⟩,emptied⟩
  · have still : (tenure id t.events).next (.returned id) = tenure id t.events := by
      rcases place.empty empty with before | before <;> rw [before] <;> rfl
    rw [same]
    refine placed.next t.heap (.returned id) ?_ (fun _ _ => ⟨rfl,fun member => member⟩) placed.free
    rw [RootEvent.id,still]
    exact place
  · have back : (tenure id t.events).next (.returned id) = .back false := by
      rcases place.value present with before | before <;> rw [before] <;> rfl
    have inside : id < t.heap.roots.size := (Array.getElem?_eq_some_iff.mp present).1
    rw [emptied]
    refine placed.next _ (.returned id) ?_ (fun _ apart => ⟨Array.getElem?_setIfInBounds_ne apart,List.mem_cons_of_mem _⟩) ?_
    · rw [RootEvent.id,back]
      exact ⟨List.mem_cons_self,none,Array.getElem?_setIfInBounds_self_of_lt inside,rfl⟩
    · intro other member
      rw [Array.size_setIfInBounds]
      rcases List.mem_cons.mp member with rfl | member
      · exact inside
      · exact placed.free other member

theorem Placed.call (placed : t.Placed) (call : Call) : (t.call call).Placed := by
  have quiet (none : call.rootEvent? t.heap = none) : (t.call call).Placed := by
    obtain ⟨roots,free⟩ := Call.uneventful none
    rw [call_quiet none]
    refine ⟨fun id => (placed.place id).move (by rw [roots]) fun member => free ▸ member,?_⟩
    rw [roots,free]
    exact placed.free
  cases call with
  | addRoot v => exact placed.given v
  | setRoot id v => exact placed.stored id v
  | removeRoot id => exact placed.returned id
  | _ => exact quiet rfl

theorem Placed.calls (placed : t.Placed) (calls : List Call) : (t.calls calls).Placed := by
  induction calls generalizing t with
  | nil => exact placed
  | cons call rest ih => exact ih (placed.call call)

theorem new_placed (config : HeapConfig) : (new config).Placed := ⟨fun _ => rfl,fun _ member => by cases member⟩

-- What is stored is a root, and what it leads to lives on, until something is done with the number.
theorem Placed.root (placed : t.Placed) (held : tenure id t.events = .held v) : t.heap.root id = v ∧ t.heap.IsRoot v := by
  have place : t.heap.roots[id]? = some (some v) := by
    have place := placed.place id
    rwa [held] at place
  exact ⟨by rw [Heap.root,Array.getD_eq_getD_getElem?,place]; rfl,.persistent (Array.mem_of_getElem? place)⟩

theorem calls_intact (intact : t.heap.Intact) (calls : List Call) : (t.calls calls).heap.Intact := by
  induction calls generalizing t with
  | nil => exact intact
  | cons call rest ih => exact ih ((call.steps t.heap).intact intact)

theorem Placed.calls_live (placed : t.Placed) (intact : t.heap.Intact) (held : tenure id t.events = .held v)
    (handle : v.handle? = some r) (live : t.heap.isLive r = true) (calls : List Call)
    (same : (t.calls calls).events = later ++ t.events) (apart : ∀ event ∈ later, event.id ≠ id) :
    (t.calls calls).heap.isLive r = true := by
  induction calls generalizing t later with
  | nil => exact live
  | cons call rest ih =>
      obtain ⟨after,grown⟩ := (t.call call).calls_events rest
      have split : later = after ++ (call.rootEvent? t.heap).toList :=
        List.append_cancel_right (same.symm.trans (grown.trans (List.append_assoc _ _ _).symm))
      subst split
      have still : tenure id (t.call call).events = .held v :=
        (tenure_apart fun event member => apart event (List.mem_append_right _ member)).trans held
      refine ih (placed.call call) ((call.steps t.heap).intact intact) still ?_ grown
        fun event member => apart event (List.mem_append_left _ member)
      exact call.retains intact r (Or.inr (.root (placed.root held).2 handle live)) live

theorem Exclusive.next (exclusive : t.Exclusive) (h : Heap) (event : RootEvent) (once : h.freeRoots.Nodup)
    (here : event.id ∈ h.freeRoots → ∃ stored, (tenure event.id t.events).next event = .back stored)
    (others : ∀ id ∈ h.freeRoots, event.id ≠ id → id ∈ t.heap.freeRoots) : Exclusive ⟨h,event :: t.events⟩ := by
  refine ⟨once,fun id member => ?_⟩
  by_cases same : event.id = id
  · subst same
    rw [tenure_here]
    exact here member
  · rw [tenure_other same]
    exact exclusive.unheld id (others id member same)

theorem Exclusive.given (exclusive : t.Exclusive) (v : Value) : (t.call (.addRoot v)).Exclusive := by
  have once := exclusive.once
  have free := addRoot_free t.heap v
  change Exclusive ⟨(t.heap.addRoot v).2,_⟩
  refine exclusive.next _ (.given _ v) (free ▸ once.tail) (fun member => ?_) fun id member _ => List.mem_of_mem_tail (free ▸ member)
  rcases t.heap.addRoot_number v with before | ⟨_,after,_⟩
  · rw [before] at once
    exact absurd member (List.nodup_cons.mp once).1
  · rw [after] at member
    cases member

theorem Exclusive.stored (exclusive : t.Exclusive) (id : Nat) (v : Value) : (t.call (.setRoot id v)).Exclusive := by
  refine exclusive.next (t.heap.setRoot id v) (.stored id v) exclusive.once (fun member => ?_) fun _ member _ => member
  obtain ⟨stored,back⟩ := exclusive.unheld id member
  exact ⟨true,by rw [RootEvent.id,back]; rfl⟩

theorem Exclusive.returned (exclusive : t.Exclusive) (placed : t.Placed) (once : tenure id t.events ≠ .back true) :
    (t.call (.removeRoot id)).Exclusive := by
  change Exclusive ⟨t.heap.removeRoot id,_⟩
  rcases t.heap.removeRoot_number id with ⟨same,_⟩ | ⟨⟨v,present⟩,emptied⟩
  · rw [same]
    refine exclusive.next t.heap (.returned id) exclusive.once (fun member => ?_) fun _ member _ => member
    obtain ⟨stored,back⟩ := exclusive.unheld id member
    exact ⟨false,by rw [RootEvent.id,back]; rfl⟩
  · have held : tenure id t.events = .held v := ((placed.place id).value present).resolve_right once
    rw [emptied]
    refine exclusive.next _ (.returned id) (List.nodup_cons.mpr ⟨fun member => ?_,exclusive.once⟩)
      (fun _ => ⟨false,by rw [RootEvent.id,held]; rfl⟩) fun other member apart => (List.mem_cons.mp member).resolve_left (Ne.symm apart)
    obtain ⟨stored,back⟩ := exclusive.unheld id member
    rw [held] at back
    cases back

theorem Exclusive.call (exclusive : t.Exclusive) (placed : t.Placed) (call : Call) (once : GivenBackOnce (t.call call).events) :
    (t.call call).Exclusive := by
  have quiet (none : call.rootEvent? t.heap = none) : (t.call call).Exclusive := by
    obtain ⟨_,free⟩ := Call.uneventful none
    rw [call_quiet none]
    exact ⟨by rw [free]; exact exclusive.once,by rw [free]; exact exclusive.unheld⟩
  cases call with
  | addRoot v => exact exclusive.given v
  | setRoot id v => exact exclusive.stored id v
  | removeRoot id => exact exclusive.returned placed once.1
  | _ => exact quiet rfl

theorem Exclusive.calls (exclusive : t.Exclusive) (placed : t.Placed) (calls : List Call) (once : GivenBackOnce (t.calls calls).events) :
    (t.calls calls).Exclusive := by
  induction calls generalizing t with
  | nil => exact exclusive
  | cons call rest ih =>
      obtain ⟨later,same⟩ := (t.call call).calls_events rest
      have first : GivenBackOnce (later ++ (t.call call).events) := same ▸ once
      exact ih (exclusive.call placed call first.earlier) (placed.call call) once

theorem new_exclusive (config : HeapConfig) : (new config).Exclusive := ⟨List.nodup_nil,fun _ member => by cases member⟩

theorem calls_given (t : Tenancy) (free : t.heap.freeRoots = front ++ rest) (vs : List Value) (length : vs.length = front.length) :
    (t.calls (vs.map .addRoot)).heap.freeRoots = rest ∧
      ∃ later, (t.calls (vs.map .addRoot)).events = later ++ t.events ∧ ∀ event ∈ later, event.id ∈ front := by
  induction front generalizing t vs with
  | nil =>
      cases List.eq_nil_of_length_eq_zero length
      exact ⟨free,[],rfl,fun _ member => by cases member⟩
  | cons id front ih =>
      obtain ⟨v,vs,rfl⟩ := List.exists_cons_of_length_eq_add_one length
      have number : (t.heap.addRoot v).1 = id := by simp only [addRoot,free,List.cons_append]
      have taken : (t.call (.addRoot v)).heap.freeRoots = front ++ rest :=
        (addRoot_free t.heap v).trans (by rw [free,List.cons_append,List.tail_cons])
      obtain ⟨left,later,same,numbers⟩ := ih (t.call (.addRoot v)) taken vs (Nat.succ.inj length)
      refine ⟨left,later ++ [.given (t.heap.addRoot v).1 v],same.trans (List.append_assoc _ _ _).symm,fun event member => ?_⟩
      rcases List.mem_append.mp member with before | last
      · exact List.mem_cons_of_mem _ (numbers event before)
      · rw [List.mem_singleton.mp last,RootEvent.id,number]
        exact List.mem_cons_self

theorem Exclusive.unlike (exclusive : t.Exclusive) (placed : t.Placed) (held : tenure id t.events = .held v) (w : Value) :
    (t.heap.addRoot w).1 ≠ id := by
  rintro rfl
  rcases t.heap.addRoot_number w with free | ⟨_,_,new⟩
  · obtain ⟨stored,back⟩ := exclusive.unheld (t.heap.addRoot w).1 (free ▸ List.mem_cons_self)
    rw [held] at back
    cases back
  · have place := placed.place (t.heap.addRoot w).1
    rw [held,new] at place
    exact absurd (Array.getElem?_eq_some_iff.mp place).1 (Nat.lt_irrefl _)

-- A number that is free already and given back once more is handed out twice.
theorem Placed.twice (placed : t.Placed) (back : tenure id t.events = .back true) : ∃ n, ∀ (vs : List Value) w, vs.length = n + 1 →
    (∃ v, tenure id (t.calls (.removeRoot id :: vs.map .addRoot)).events = .held v) ∧
      ((t.calls (.removeRoot id :: vs.map .addRoot)).heap.addRoot w).1 = id := by
  have place := placed.place id
  rw [back] at place
  obtain ⟨member,content,present,some⟩ := place
  obtain ⟨value,rfl⟩ := Option.isSome_iff_exists.mp some
  obtain ⟨front,rest,free,apart⟩ := List.eq_append_cons_of_mem member
  refine ⟨front.length,fun vs w length => ?_⟩
  obtain ⟨v,vs,rfl⟩ := List.exists_cons_of_length_eq_add_one length
  have released : (t.call (.removeRoot id)).heap.freeRoots = id :: t.heap.freeRoots := by
    rcases t.heap.removeRoot_number id with ⟨_,empty⟩ | ⟨_,emptied⟩
    · exact absurd present (empty value)
    · exact congrArg Heap.freeRoots emptied
  have number : ((t.call (.removeRoot id)).heap.addRoot v).1 = id := by simp only [addRoot,released]
  let given := (t.call (.removeRoot id)).call (.addRoot v)
  have left : given.heap.freeRoots = front ++ id :: rest :=
    (addRoot_free (t.call (.removeRoot id)).heap v).trans (by rw [released,List.tail_cons,free])
  have held : tenure id given.events = .held v := if_pos number
  obtain ⟨next,later,same,numbers⟩ := calls_given given left vs (Nat.succ.inj length)
  refine ⟨⟨v,?_⟩,?_⟩
  · refine (congrArg (tenure id) same).trans ((tenure_apart fun event member here => ?_).trans held)
    exact apart (here ▸ numbers event member)
  · change ((given.calls (vs.map .addRoot)).heap.addRoot w).1 = id
    simp only [addRoot,next]

end Tenancy

-- A host that gives no number back a second time after storing through it is handed out no number that
-- it holds. Otherwise the number is handed out and then, while it is held, handed out once more.
theorem roots_exclusive (config : HeapConfig) (calls : List Call) :
    let t := (Tenancy.new config).calls calls
    (∀ id v, tenure id t.events = .held v →
      t.heap.root id = v ∧ t.heap.IsRoot v ∧
      (∀ r, v.handle? = some r → t.heap.isLive r = true → t.heap.collect.2.object? r = t.heap.object? r) ∧
      ∀ more later, (t.calls more).events = later ++ t.events → (∀ event ∈ later, event.id ≠ id) →
        (t.calls more).heap.root id = v ∧
        ∀ r, v.handle? = some r → t.heap.isLive r = true → (t.calls more).heap.isLive r = true) ∧
    (GivenBackOnce t.events → ∀ id v w, tenure id t.events = .held v → (t.heap.addRoot w).1 ≠ id) ∧
    ∀ id, tenure id t.events = .back true → ∃ n, ∀ (vs : List Value) w, vs.length = n + 1 →
      (∃ v, tenure id (t.calls (.removeRoot id :: vs.map .addRoot)).events = .held v) ∧
      ((t.calls (.removeRoot id :: vs.map .addRoot)).heap.addRoot w).1 = id := by
  have placed := (Tenancy.new_placed config).calls calls
  have intact : ((Tenancy.new config).calls calls).heap.Intact := Tenancy.calls_intact (new_intact config) calls
  refine ⟨fun id v held => ?_,fun once id v w held same => ?_,fun id back => ?_⟩
  · obtain ⟨stored,root⟩ := placed.root held
    have kept r (handle : v.handle? = some r) (live : ((Tenancy.new config).calls calls).heap.isLive r = true) :=
      (collect_extends intact).objects r (Or.inr (.root root handle live))
    refine ⟨stored,root,kept,fun more later same apart => ?_⟩
    refine ⟨((placed.calls more).root ?_).1,fun r handle live => placed.calls_live intact held handle live more same apart⟩
    rw [same,tenure_apart apart]
    exact held
  · have exclusive := (Tenancy.new_exclusive config).calls (Tenancy.new_placed config) calls once
    exact exclusive.unlike placed held w same
  · exact placed.twice back

-- A number that is used again, stored through in the meantime, and a list behind it.
theorem roots_exclusive_used_again :
    ∃ t : Tenancy, GivenBackOnce t.events ∧ tenure 0 t.events = .held (.list ⟨0,0⟩) ∧ t.heap.isLive ⟨0,0⟩ = true ∧
      (∀ w, (t.heap.addRoot w).1 ≠ 0) ∧ t.heap.collect.2.object? ⟨0,0⟩ = t.heap.object? ⟨0,0⟩ ∧
      (t.calls [.collect,.newList 4]).heap.isLive ⟨0,0⟩ = true := by
  obtain ⟨held,unlike,_⟩ := roots_exclusive {}
    [.addRoot (.int 1),.removeRoot 0,.setRoot 0 (.int 2),.newList 0,.addRoot (.list ⟨0,0⟩)]
  obtain ⟨_,_,kept,later⟩ := held 0 (.list ⟨0,0⟩) (by decide +kernel)
  have once : GivenBackOnce ((Tenancy.new {}).calls
      [.addRoot (.int 1),.removeRoot 0,.setRoot 0 (.int 2),.newList 0,.addRoot (.list ⟨0,0⟩)]).events :=
    ⟨by decide +kernel,trivial⟩
  refine ⟨_,once,by decide +kernel,by decide +kernel,fun w => unlike once 0 (.list ⟨0,0⟩) w (by decide +kernel),
    kept ⟨0,0⟩ rfl (by decide +kernel),?_⟩
  exact (later [.collect,.newList 4] [] rfl fun _ member => by cases member).2 ⟨0,0⟩ rfl (by decide +kernel)

-- Given back, stored through and given back again, a number has two holders, and the value of the second
-- one takes the place of the first one's.
theorem roots_shared :
    let t := (Tenancy.new {}).calls [.addRoot (.int 1),.removeRoot 0,.setRoot 0 (.int 2),.removeRoot 0,.addRoot (.int 10)]
    tenure 0 t.events = .held (.int 10) ∧ t.heap.root 0 = .int 10 ∧
      (t.heap.addRoot (.int 20)).1 = 0 ∧ (t.heap.addRoot (.int 20)).2.root 0 = .int 20 := by
  decide +kernel

end

end RegisterMachine.Heap
