import RegisterMachine.Proofs.Heap.Reachable
import RegisterMachine.Proofs.Map.Keys
import Mathlib.Data.Set.Card

namespace RegisterMachine.Heap

structure Canonical (h : Heap) : Prop where
  long : ∀ (i : Nat) (slot : Slot) text, h.slots[i]? = some slot → slot.object = some (.str text) → slot.immortal = false →
    internThreshold ≤ text.utf8ByteSize
  listed : ∀ (i : Nat) (slot : Slot) text, h.slots[i]? = some slot → slot.object = some (.str text) → slot.immortal = true →
    5 < text.utf8ByteSize ∧ h.interned.get? text = some ⟨i,slot.generation⟩

theorem new_canonical (config : HeapConfig) : (new config).Canonical where
  long := by simp [new]
  listed := by simp [new]

theorem Canonical.of_texts {h h' : Heap} (canonical : h.Canonical) (interned : h'.interned = h.interned)
    (texts : ∀ (i : Nat) (slot' : Slot) text, h'.slots[i]? = some slot' → slot'.object = some (.str text) →
      ∃ slot, h.slots[i]? = some slot ∧ slot.object = some (.str text) ∧ slot'.generation = slot.generation ∧
        slot'.immortal = slot.immortal) : h'.Canonical := by
  constructor
  · intro i slot' text present content mortal
    obtain ⟨slot,before,same,_,immortal⟩ := texts i slot' text present content
    exact canonical.long i slot text before same (immortal.symm.trans mortal)
  · intro i slot' text present content immortal
    obtain ⟨slot,before,same,generation,flag⟩ := texts i slot' text present content
    rw [interned,generation]
    exact canonical.listed i slot text before same (flag.symm.trans immortal)

theorem Canonical.reslot {h h' : Heap} (canonical : h.Canonical) (size : h'.slots.size = h.slots.size)
    (each : ∀ (i : Nat) (slot : Slot), h.slots[i]? = some slot → ∃ slot', h'.slots[i]? = some slot' ∧ slot.Alike slot')
    (interned : h'.interned = h.interned) : h'.Canonical := by
  apply canonical.of_texts interned
  intro i slot' text present content
  obtain ⟨slot,before,alike⟩ := slot_origin size each present
  exact ⟨slot,before,alike.text.mp content,alike.generation,alike.immortal⟩

theorem collect_interned (h : Heap) : h.collect.2.interned = h.interned := by
  by_cases enabled : h.disabled = 0
  · rw [collect_enabled enabled]
    rfl
  · rw [collect_disabled enabled]

theorem collect_canonical {h : Heap} (canonical : h.Canonical) : h.collect.2.Canonical := by
  by_cases enabled : h.disabled = 0
  · apply canonical.of_texts h.collect_interned
    rw [collect_enabled enabled]
    intro i slot' text present content
    obtain ⟨slot,before,same⟩ := swept_slot.mp present
    by_cases dead : dies h.mark.marks i slot = true
    · rw [if_pos dead] at same
      rw [← same] at content
      cases content
    · rw [if_neg dead] at same
      subst same
      exact ⟨slot,before,content,rfl,rfl⟩
  · rw [collect_disabled enabled]
    exact canonical

theorem Installed.canonical {h h' : Heap} {object : Object} (installed : Installed h object charge immortal r h') (canonical : h.Canonical)
    (known : ∀ text q, h.interned.get? text = some q → h'.interned.get? text = some q)
    (long : ∀ text, object = .str text → immortal = false → internThreshold ≤ text.utf8ByteSize)
    (listed : ∀ text, object = .str text → immortal = true → 5 < text.utf8ByteSize ∧ h'.interned.get? text = some r) :
    h'.Canonical := by
  constructor
  · intro i slot text present content mortal
    rw [installed.slots] at present
    split at present
    · cases present
      exact long text (Option.some.inj content) mortal
    · exact canonical.long i slot text present content mortal
  · intro i slot text present content immortal
    rw [installed.slots] at present
    split at present
    · rename_i here
      cases present
      subst here
      exact listed text (Option.some.inj content) immortal
    · obtain ⟨size,found⟩ := canonical.listed i slot text present content immortal
      exact ⟨size,known text _ found⟩

theorem insert_known {h : Heap} {text other : String} (absent : h.interned.get? text = none) (found : h.interned.get? other = some q) :
    (h.interned.insert text r).get? other = some q := by
  rw [Std.TreeMap.get?_eq_getElem?] at absent found ⊢
  rw [Std.TreeMap.getElem?_insert,if_neg]
  · exact found
  · intro equal
    rw [Std.LawfulEqCmp.compare_eq_iff_eq] at equal
    subst other
    rw [absent] at found
    cases found

theorem intern_known {h : Heap} (text : String) (intact : h.Intact) (found : h.interned.get? other = some q) :
    (h.intern text).2.interned.get? other = some q := by
  rcases intern_changes text intact with same | ⟨r,_,_,interned,absent,_⟩
  · rwa [same]
  · rw [interned]
    exact insert_known absent found

theorem Step.known {h h' : Heap} (step : Step h h') (intact : h.Intact) (found : h.interned.get? text = some q) :
    h'.interned.get? text = some q := by
  cases step with
  | apart apart => rwa [apart.interned]
  | rewrite => exact found
  | recharge => rwa [(recharge_others _ _).2.2.2]
  | collect => rwa [collect_interned]
  | install => rwa [allocated,install_interned]
  | intern => exact intern_known _ intact found

theorem Steps.known {h h' : Heap} (steps : Steps h h') (intact : h.Intact) (found : h.interned.get? text = some q) :
    h'.interned.get? text = some q := by
  induction steps with
  | refl => exact found
  | tail before step ih => exact step.known (Steps.intact before intact) ih

theorem intern_canonical {h : Heap} (text : String) (intact : h.Intact) (canonical : h.Canonical) : (h.intern text).2.Canonical := by
  rcases intern_changes text intact with same | ⟨r,_,installed,interned,absent,size⟩
  · rwa [same]
  · refine installed.canonical canonical (fun other q found => ?_) (fun _ _ mortal => by cases mortal) (fun other here _ => ?_)
    · rw [interned]
      exact insert_known absent found
    · cases here
      refine ⟨size,?_⟩
      rw [interned,Std.TreeMap.get?_eq_getElem?,Std.TreeMap.getElem?_insert_self]

theorem Step.canonical {h h' : Heap} (step : Step h h') (intact : h.Intact) (canonical : h.Canonical) : h'.Canonical := by
  cases step with
  | apart apart =>
      apply canonical.of_texts apart.interned
      intro i slot text present content
      rw [apart.slots] at present
      exact ⟨slot,present,content,rfl,rfl⟩
  | rewrite size each =>
      refine canonical.reslot size (fun i slot present => ?_) rfl
      obtain ⟨slot',present',rewritten⟩ := each i slot present
      exact ⟨slot',present',rewritten.alike⟩
  | @recharge r =>
      refine canonical.reslot (size_recharge h r) (fun i slot present => ?_) (recharge_others h r).2.2.2
      obtain ⟨charge,charged⟩ := recharge_slot h r present
      exact ⟨_,charged,.charged slot charge⟩
  | collect => exact collect_canonical canonical
  | install sane _ =>
      refine (allocated_installed intact _).canonical canonical (fun text q found => ?_) (fun text same _ => sane.text text same)
        (fun _ _ immortal => by cases immortal)
      rwa [allocated,install_interned]
  | intern => exact intern_canonical _ intact canonical

theorem Steps.canonical {h h' : Heap} (steps : Steps h h') (intact : h.Intact) (canonical : h.Canonical) : h'.Canonical := by
  induction steps with
  | refl => exact canonical
  | tail before step ih => exact step.canonical (Steps.intact before intact) ih

theorem Reachable.canonical (reachable : Reachable h) : h.Canonical := by
  induction reachable with
  | new config => exact new_canonical config
  | call call before ih => exact (call.steps _).canonical before.intact ih

theorem isInterned_immortal {h : Heap} : h.isInterned (.str r) = true ↔ h.Immortal r := by
  simp only [isInterned,Immortal]
  cases h.slots[r.index]? with
  | none => simp
  | some slot => simp

theorem Canonical.interned {h : Heap} (canonical : h.Canonical) (interned : h.isInterned (.str r) = true)
    (present : h.object? r = some (.str text)) : 5 < text.utf8ByteSize ∧ h.interned.get? text = some r := by
  obtain ⟨slot,found,_,immortal⟩ := isInterned_immortal.mp interned
  obtain ⟨other,same,generation,content⟩ := object?_slot.mp present
  rw [found] at same
  cases same
  obtain ⟨size,listed⟩ := canonical.listed _ slot text found content immortal
  rw [generation] at listed
  exact ⟨size,listed⟩

theorem Canonical.mortal {h : Heap} (canonical : h.Canonical) (mortal : h.isInterned (.str r) = false)
    (present : h.object? r = some (.str text)) : internThreshold ≤ text.utf8ByteSize := by
  obtain ⟨slot,found,generation,content⟩ := object?_slot.mp present
  refine canonical.long _ slot text found content ?_
  simpa [isInterned,found,generation] using mortal

theorem Canonical.long_text {h : Heap} (canonical : h.Canonical) (present : h.object? r = some (.str text)) :
    5 < text.utf8ByteSize := by
  cases interned : h.isInterned (.str r) with
  | true => exact (canonical.interned interned present).1
  | false => exact Nat.lt_of_lt_of_le (by decide) (canonical.mortal interned present)

theorem Intact.listed {h : Heap} (intact : h.Intact) (found : h.interned.get? text = some r) :
    h.isInterned (.str r) = true ∧ h.object? r = some (.str text) := by
  obtain ⟨slot,present,generation,immortal,content⟩ := intact.interned text r found
  exact ⟨isInterned_immortal.mpr ⟨slot,present,generation,immortal⟩,object?_slot.mpr ⟨slot,present,generation,content⟩⟩

theorem Intact.interned_text {h : Heap} (intact : h.Intact) (interned : h.isInterned (.str r) = true) :
    ∃ text, h.object? r = some (.str text) := by
  obtain ⟨slot,found,generation,immortal⟩ := isInterned_immortal.mp interned
  obtain ⟨text,content⟩ := intact.eternal _ slot found immortal
  exact ⟨text,object?_slot.mpr ⟨slot,found,generation,content⟩⟩

-- The handles of interned strings are those of the list, each under one text.
theorem interned_count {h : Heap} (intact : h.Intact) (canonical : h.Canonical) :
    {r | h.isInterned (.str r) = true}.encard = h.stats.internedStrings := by
  have once : (h.interned.toList.map Prod.snd).Nodup := by
    refine List.Nodup.map_on ?_ (Std.TreeMap.distinct_keys_toList.imp ?_)
    · intro a memberA b memberB same
      have listedA := intact.listed (Std.TreeMap.mem_toList_iff_getElem?_eq_some.mp memberA)
      have listedB := intact.listed (Std.TreeMap.mem_toList_iff_getElem?_eq_some.mp memberB)
      have texts := listedB.2
      rw [← same,listedA.2,Option.some.injEq,Object.str.injEq] at texts
      exact Prod.ext texts same
    · intro a b different same
      exact different (by rw [same]; exact Std.ReflCmp.compare_self)
  have same : {r | h.isInterned (.str r) = true} = ((h.interned.toList.map Prod.snd).toFinset : Set Handle) := by
    ext r
    simp only [Set.mem_ofPred_eq,List.coe_toFinset,List.mem_map]
    constructor
    · intro interned
      obtain ⟨text,present⟩ := intact.interned_text interned
      exact ⟨(text,r),Std.TreeMap.mem_toList_iff_getElem?_eq_some.mpr (canonical.interned interned present).2,rfl⟩
    · intro listed
      obtain ⟨pair,member,here⟩ := listed
      exact here ▸ (intact.listed (Std.TreeMap.mem_toList_iff_getElem?_eq_some.mp member)).1
  rw [same,Set.encard_coe_eq_coe_finsetCard,List.toFinset_card_of_nodup once,List.length_map,Std.TreeMap.length_toList]
  rfl

theorem text?_string {h : Heap} {v : Value} (found : h.text? v = some text) :
    (∃ t : ShortText, v = .short t ∧ t.text = text) ∨ ∃ r, v = .str r ∧ h.object? r = some (.str text) := by
  cases v with
  | short t => exact Or.inl ⟨t,rfl,Option.some.inj found⟩
  | str r => exact Or.inr ⟨r,rfl,text?_str.mp found⟩
  | null | int | double | list | map | funcRef => cases found

theorem Canonical.identical {h : Heap} {a b : Value} (canonical : h.Canonical) (ha : h.text? a = some text) (hb : h.text? b = some text)
    (small : text.utf8ByteSize < internThreshold) : a = b := by
  have interned : ∀ r, h.object? r = some (.str text) → h.interned.get? text = some r := by
    intro r present
    cases flag : h.isInterned (.str r) with
    | true => exact (canonical.interned flag present).2
    | false => exact absurd small (Nat.not_lt.mpr (canonical.mortal flag present))
  rcases text?_string ha with ⟨s,rfl,textS⟩ | ⟨r,rfl,presentR⟩
  · rcases text?_string hb with ⟨t,rfl,textT⟩ | ⟨q,rfl,presentQ⟩
    · obtain ⟨s,_⟩ := s
      obtain ⟨t,_⟩ := t
      cases textS
      cases textT
      rfl
    · exact absurd (canonical.long_text presentQ) (Nat.not_lt.mpr (textS ▸ s.fits))
  · rcases text?_string hb with ⟨t,rfl,textT⟩ | ⟨q,rfl,presentQ⟩
    · exact absurd (canonical.long_text presentR) (Nat.not_lt.mpr (textT ▸ t.fits))
    · have same := interned r presentR
      rw [interned q presentQ,Option.some.injEq] at same
      rw [same]

theorem intern_text {h : Heap} (text : String) (intact : h.Intact) : (h.intern text).2.text? (h.intern text).1 = some text := by
  rcases intern_cases text intact with ⟨t,here,same⟩ | ⟨r,found,same⟩ | ⟨r,h',same,installed,_⟩
  · rw [same,text?,here]
  · rw [same,text?,(intact.listed found).2]
  · rw [same,text?,installed.object]

theorem Swept.config (swept : Swept h h') : h'.config = h.config := by
  induction swept with
  | refl => rfl
  | @tail s _ _ last ih =>
      rw [last,← ih]
      by_cases enabled : s.disabled = 0
      · rw [collect_enabled enabled]
        rfl
      · rw [collect_disabled enabled]

theorem allocate_failed {h h' : Heap} {object : Object} (failed : allocate object h = .error e h') :
    e = .outOfMemory object.charge ∧ ∃ limit, h.config.maxBytes = some limit ∧ limit < h'.bytes + object.charge := by
  obtain ⟨s,swept,⟨exceeds,refused⟩ | ⟨_,made⟩⟩ := allocate_parts object h
  · rw [refused] at failed
    cases failed
    refine ⟨rfl,?_⟩
    unfold exceedsLimit at exceeds
    split at exceeds
    · rename_i limit known
      exact ⟨limit,swept.config ▸ known,of_decide_eq_true exceeds⟩
    · cases exceeds
  · rw [made] at failed
    cases failed

theorem newString_text {h : Heap} (text : String) (intact : h.Intact) :
    (∃ v h', newString text h = .ok v h' ∧ h'.text? v = some text) ∨
      internThreshold ≤ text.utf8ByteSize ∧ ∃ limit h', h.config.maxBytes = some limit ∧
        limit < h'.bytes + (Object.str text).charge ∧ newString text h = .error (.outOfMemory (Object.str text).charge) h' := by
  unfold newString
  cases size : ShortText.ofString? text with
  | some t => exact Or.inl ⟨.short t,h,rfl,congrArg some (ofString?_some.mp size)⟩
  | none =>
      by_cases small : text.utf8ByteSize < internThreshold
      · simp only [if_pos small]
        exact Or.inl ⟨_,_,rfl,intern_text text intact⟩
      · simp only [if_neg small]
        cases made : allocate (.str text) h with
        | ok r h' =>
            obtain ⟨_,_,_,installed⟩ := allocate_ok intact made
            refine Or.inl ⟨.str r,h',?_,by rw [text?,installed.object]⟩
            simp only [Functor.map,EStateM.map,made]
        | error e h' =>
            obtain ⟨rfl,limit,known,exceeds⟩ := allocate_failed made
            refine Or.inr ⟨Nat.le_of_not_lt small,limit,h',known,exceeds,?_⟩
            simp only [Functor.map,EStateM.map,made]

-- What holds of the strings of a heap, and of those made next.
structure OneForm (h : Heap) : Prop where
  short : ∀ r text, h.object? r = some (.str text) → 5 < text.utf8ByteSize
  long : ∀ r text, h.object? r = some (.str text) → h.isInterned (.str r) = false → 128 ≤ text.utf8ByteSize
  unique : ∀ r q text, h.isInterned (.str r) = true → h.isInterned (.str q) = true → h.object? r = some (.str text) →
    h.object? q = some (.str text) → r = q
  permanent : ∀ r, h.isInterned (.str r) = true → ∃ text, h.object? r = some (.str text) ∧
    ∀ calls : List Call, (calls.foldl Call.run h).isInterned (.str r) = true ∧ (calls.foldl Call.run h).object? r = some (.str text)
  counted : {r | h.isInterned (.str r) = true}.encard = h.stats.internedStrings
  equal : ∀ a b x y, h.text? a = some x → h.text? b = some y → (h.equal a b = true ↔ x = y)
  identical : ∀ a b x y, h.text? a = some x → h.text? b = some y → x.utf8ByteSize < 128 → (h.equal a b = true ↔ a = b)
  -- Only a limit on bytes keeps a string from being made.
  made : ∀ text, (∃ v h', newString text h = .ok v h' ∧ h'.text? v = some text) ∨
    128 ≤ text.utf8ByteSize ∧ ∃ limit h', h.config.maxBytes = some limit ∧ limit < h'.bytes + (Object.str text).charge ∧
      newString text h = .error (.outOfMemory (Object.str text).charge) h'
  interned : ∀ text, (h.intern text).2.text? (h.intern text).1 = some text

theorem Calls.steps (calls : List Call) (h : Heap) : Steps h (calls.foldl Call.run h) := by
  induction calls generalizing h with
  | nil => exact .refl
  | cons call rest ih => exact (call.steps h).trans (ih (call.run h))

theorem reachable_oneForm (reachable : Reachable h) : h.OneForm := by
  have intact := reachable.intact
  have canonical := reachable.canonical
  constructor
  case short => exact fun r text present => canonical.long_text present
  case long => exact fun r text present mortal => canonical.mortal mortal present
  case unique =>
    intro r q text internedR internedQ presentR presentQ
    have listed := (canonical.interned internedR presentR).2
    rw [(canonical.interned internedQ presentQ).2,Option.some.injEq] at listed
    exact listed.symm
  case permanent =>
    intro r interned
    obtain ⟨text,present⟩ := intact.interned_text interned
    refine ⟨text,present,fun calls => ?_⟩
    have steps := Calls.steps calls h
    exact (steps.intact intact).listed (steps.known intact (canonical.interned interned present).2)
  case counted => exact interned_count intact canonical
  case equal => exact fun a b x y ha hb => equal_texts ha hb
  case identical =>
    intro a b x y ha hb small
    rw [equal_texts ha hb]
    constructor
    · intro same
      subst same
      exact canonical.identical ha hb small
    · intro same
      subst same
      exact Option.some.inj (ha.symm.trans hb)
  case made => exact fun text => newString_text text intact
  case interned => exact fun text => intern_text text intact

-- Two objects with one long text, after an object with a third was freed, and an interned text that was made twice.
theorem reachable_oneForm_long :
    ∃ h : Heap, h.Reachable ∧ h.OneForm ∧ h.history.size = 1 ∧ h.stats.internedStrings = 1 ∧ h.isInterned (.str ⟨1,0⟩) = true ∧
      h.text? (.str ⟨0,1⟩) = h.text? (.str ⟨2,0⟩) ∧ h.equal (.str ⟨0,1⟩) (.str ⟨2,0⟩) = true := by
  have reachable := Reachable.calls [.newString ("".pushn 'b' 128),.newString "interned",.collect,.newString ("".pushn 'a' 128),
    .newString ("".pushn 'a' 128),.newString "interned"] (.new {})
  exact ⟨_,reachable,reachable_oneForm reachable,by decide +kernel,by decide +kernel,by decide +kernel,by decide +kernel,
    by decide +kernel⟩

end RegisterMachine.Heap
