import RegisterMachine.Proofs.Heap.MapLockstep

namespace RegisterMachine.Heap

variable {f f' f₀ : Handle → Handle} {known known' known₀ : Handle → Prop} {clear clear' clear₀ : Value → Prop} {h k s s' t t' : Heap}
  {calm : Heap → Heap → Prop}

def renameCopies (f : Handle → Handle) (copies : Copies) : Copies := copies.map fun pair => (f pair.1,pair.2.rename f)

theorem lookup_renamed {copies : Copies} (apart : ∀ pair ∈ copies, f pair.1 = f r → pair.1 = r) :
    (renameCopies f copies).lookup (f r) = (copies.lookup r).map (Value.rename f) := by
  induction copies with
  | nil => rfl
  | cons pair rest ih =>
      obtain ⟨q,w⟩ := pair
      have later := ih fun other member => apart other (List.mem_cons_of_mem _ member)
      simp only [renameCopies,List.map_cons,List.lookup_cons] at later ⊢
      by_cases same : q = r
      · simp [same]
      · have different : f q ≠ f r := fun equal => same (apart (q,w) List.mem_cons_self equal)
        rw [beq_eq_false_iff_ne.mpr (Ne.symm same),beq_eq_false_iff_ne.mpr (Ne.symm different)]
        exact later

-- A copy as it stands: new, protected, and clear if what it is made from was.
structure Duplicate (known₀ : Handle → Prop) (clear₀ : Value → Prop) (h : Heap) (known : Handle → Prop) (clear : Value → Prop) (s : Heap)
    (pair : Handle × Value) (q : Handle) : Prop where
  handle : pair.2.handle? = some q
  source : known₀ pair.1
  target : known q
  held : pair.2 ∈ s.shadow
  fresh : ¬ known₀ q ∧ ¬ h.Survives q
  data : pair.2.isString = false ∧ pair.2.isFuncRef = false
  clear : (∃ u, clear u ∧ u.handle? = some q) ↔ ∃ u, clear₀ u ∧ u.handle? = some pair.1

-- What holds between two copies, with the heaps where the runs began.
structure Duplicates (f₀ : Handle → Handle) (known₀ : Handle → Prop) (clear₀ : Value → Prop) (h k : Heap) (f : Handle → Handle)
    (known : Handle → Prop) (clear : Value → Prop) (copies : Copies) (s t : Heap) : Prop where
  mirrors : Mirrors f known s t
  grows : ∀ r, known₀ r → known r ∧ f r = f₀ r
  cleared : Clear known clear s
  clears : ∀ v, clear₀ v → clear v
  spared : Spared h s
  later : h.history.size ≤ s.history.size ∧ k.history.size ≤ t.history.size
  objects : ∀ r, known₀ r → s.object? r = h.object? r
  sources : (copies.map Prod.fst).Nodup
  copied : ∀ pair ∈ copies, ∃ q, Duplicate known₀ clear₀ h known clear s pair q
  only : ∀ q, known q → known₀ q ∨ ∃ pair ∈ copies, pair.2.handle? = some q

namespace Duplicates

theorem abreast (duplicates : Duplicates f₀ known₀ clear₀ h k f known clear copies s t) : Abreast f₀ known₀ h k f known s t where
  mirrors := duplicates.mirrors
  grows := duplicates.grows
  kept := by
    intro spare q here
    rcases duplicates.only q here with before | ⟨pair,member,handle⟩
    · exact duplicates.spared.extension.survives (spare q before)
    · obtain ⟨p,copy⟩ := duplicates.copied pair member
      exact Or.inr (.root (.shadow copy.held) handle (duplicates.mirrors.live here))
  later := duplicates.later

theorem bare (duplicates : Duplicates f₀ known₀ clear₀ h k f known clear copies s t) : Bare copies ∧ Bare (renameCopies f copies) := by
  have left : Bare copies := by
    intro pair member
    obtain ⟨q,copy⟩ := duplicates.copied pair member
    exact copy.data.1
  refine ⟨left,fun pair member => ?_⟩
  obtain ⟨origin,listed,rfl⟩ := List.mem_map.mp member
  rw [Value.rename_isString]
  exact left origin listed

-- Every container is copied once, so the levels last.
theorem room (duplicates : Duplicates f₀ known₀ clear₀ h k f known clear copies s t) (start : Mirrors f₀ known₀ h k) :
    copies.length ≤ h.slots.size ∧ copies.length ≤ k.slots.size := by
  have known_ : ∀ r ∈ copies.map Prod.fst, known₀ r := by
    intro r member
    obtain ⟨pair,listed,rfl⟩ := List.mem_map.mp member
    exact (duplicates.copied pair listed).choose_spec.source
  have left := live_bounded h duplicates.sources fun r member => start.live (known_ r member)
  have once := duplicates.sources.map_on (f := f₀) fun a first b second same => start.apart a b (known_ a first) (known_ b second) same
  have right := live_bounded k once fun r member => ?_
  · simp only [List.length_map] at left right
    exact ⟨left,right⟩
  · obtain ⟨origin,listed,rfl⟩ := List.mem_map.mp member
    rw [start.isLive (known_ origin listed)]
    exact start.live (known_ origin listed)

theorem lookup (duplicates : Duplicates f₀ known₀ clear₀ h k f known clear copies s t) (here : known₀ r) :
    (renameCopies f copies).lookup (f₀ r) = (copies.lookup r).map (Value.rename f) := by
  rw [← (duplicates.grows r here).2]
  refine lookup_renamed fun pair member same => ?_
  have source := (duplicates.copied pair member).choose_spec.source
  exact duplicates.mirrors.apart _ _ (duplicates.grows _ source).1 (duplicates.grows r here).1 same

theorem wrote {object : Object} (duplicates : Duplicates f₀ known₀ clear₀ h k f known clear copies s t) (member : pair ∈ copies)
    (handle : pair.2.handle? = some q) (left : Wrote s s' q object) (right : Wrote t t' (f q) (object.rename f))
    (refs : ∀ v, object.Refers v → v.Within known) (clean : Clear known clear s') :
    Duplicates f₀ known₀ clear₀ h k f known clear copies s' t' := by
  obtain ⟨_,copy⟩ := duplicates.copied pair member
  obtain rfl := Option.some.inj (copy.handle.symm.trans handle)
  have fewer := left.steps.fewer duplicates.mirrors.intact
  have fewer' := right.steps.fewer duplicates.mirrors.image
  exact {
    mirrors := duplicates.mirrors.wrote copy.target left right refs
    grows := duplicates.grows
    cleared := clean
    clears := duplicates.clears
    spared := duplicates.spared.touch left.toTouched copy.fresh.2 left.steps
    later := ⟨Nat.le_trans duplicates.later.1 fewer,Nat.le_trans duplicates.later.2 fewer'⟩
    objects := fun r here => (left.others r fun same => copy.fresh.1 (same ▸ here)).trans (duplicates.objects r here)
    sources := duplicates.sources
    copied := fun other listed => by
      obtain ⟨p,old⟩ := duplicates.copied other listed
      exact ⟨p,{ old with held := by rw [left.roots.shadow]; exact old.held }⟩
    only := duplicates.only }

theorem protect (duplicates : Duplicates f₀ known₀ clear₀ h k f known clear copies s t) (within : v.Within known) :
    Duplicates f₀ known₀ clear₀ h k f known clear copies (s.protect v) (t.protect (v.rename f)) where
  mirrors := duplicates.mirrors.protect within
  grows := duplicates.grows
  cleared := duplicates.cleared.registers rfl rfl
  clears := duplicates.clears
  spared := duplicates.spared.trans (protect_spared duplicates.mirrors.intact v)
  later := duplicates.later
  objects := duplicates.objects
  sources := duplicates.sources
  copied := fun pair listed => by
    obtain ⟨p,old⟩ := duplicates.copied pair listed
    exact ⟨p,{ old with held := List.mem_cons_of_mem _ old.held }⟩
  only := duplicates.only

end Duplicates

-- What a later state of the copy keeps of an earlier one.
structure Furthers (f : Handle → Handle) (known : Handle → Prop) (clear : Value → Prop) (copies : Copies) (f' : Handle → Handle)
    (known' : Handle → Prop) (clear' : Value → Prop) (copies' : Copies) : Prop where
  grows : ∀ r, known r → known' r ∧ f' r = f r
  clears : ∀ v, clear v → clear' v
  listed : copies ⊆ copies'
  longer : copies.length ≤ copies'.length

theorem Furthers.refl (copies : Copies) : Furthers f known clear copies f known clear copies :=
  ⟨fun _ here => ⟨here,rfl⟩,fun _ => id,List.Subset.refl _,Nat.le_refl _⟩

theorem Furthers.trans (first : Furthers f known clear copies f' known' clear' copies')
    (second : Furthers f' known' clear' copies' f'' known'' clear'' copies'') : Furthers f known clear copies f'' known'' clear'' copies'' where
  grows := fun r here => ⟨(second.grows r (first.grows r here).1).1,(second.grows r (first.grows r here).1).2.trans (first.grows r here).2⟩
  clears := fun v free => second.clears v (first.clears v free)
  listed := List.Subset.trans first.listed second.listed
  longer := Nat.le_trans first.longer second.longer

theorem Duplicates.entered {make : Handle → Value} (duplicates : Duplicates f₀ known₀ clear₀ h k f known clear copies s t)
    (fresh : Fresh f known s make (make q) w s' t') (handle : ∀ r, (make r).handle? = some r) (renames : ∀ g r, (make r).rename g = make (g r))
    (data : (make q).isString = false ∧ (make q).isFuncRef = false) (spared : Spared s s') (dead : ¬ s.Survives q) (roots : SameRoots s s')
    (empty : s'.contents q = []) (plain : ∀ table, s'.object? q = some (.map table) → table.aliases = none)
    (later : s.history.size ≤ s'.history.size ∧ t.history.size ≤ t'.history.size) (source : known₀ r) (absent : copies.lookup r = none) :
    ∃ f' known' clear', w = make (f' q) ∧ Duplicates f₀ known₀ clear₀ h k f' known' clear' ((r,make q) :: copies) (s'.protect (make q)) (t'.protect w) ∧
      Furthers f known clear copies f' known' clear' ((r,make q) :: copies) := by
  obtain ⟨q',p,same,rfl,mirrors,new⟩ := fresh
  have equal : q' = q := by
    have both := congrArg Value.handle? same
    rw [handle,handle] at both
    exact (Option.some.inj both).symm
  subst equal
  have unknown : ¬ known q' := fun here => (new q' here).1 rfl
  have grows : ∀ r, known r → (known r ∨ r = q') ∧ Function.update f q' p r = f r := fun r here =>
    ⟨Or.inl here,Function.update_of_ne (new r here).1 _ _⟩
  have within : (make q').Within fun r => known r ∨ r = q' := by
    intro r held
    rw [handle] at held
    cases held
    exact Or.inr rfl
  have held := mirrors.protect within
  rw [renames,Function.update_self] at held
  have clean := duplicates.cleared.fresh (∃ u, clear₀ u ∧ u.handle? = some r) new roots.registers empty plain
  have both := spared.trans (protect_spared spared.intact (make q'))
  refine ⟨_,_,_,by rw [Function.update_self],{
    mirrors := held
    grows := fun r here => ⟨(grows r (duplicates.grows r here).1).1,(grows r (duplicates.grows r here).1).2.trans (duplicates.grows r here).2⟩
    cleared := clean.registers rfl rfl
    clears := fun v free => Or.inl (duplicates.clears v free)
    spared := duplicates.spared.trans both
    later := ⟨Nat.le_trans duplicates.later.1 later.1,Nat.le_trans duplicates.later.2 later.2⟩
    objects := fun r here => ((new r (duplicates.grows r here).1).2).trans (duplicates.objects r here)
    sources := List.nodup_cons.mpr ⟨lookup_absent absent,duplicates.sources⟩
    copied := ?_
    only := ?_ },fun r here => grows r here,fun v => Or.inl,List.subset_cons_self _ _,Nat.le_succ _⟩
  · intro pair member
    rcases List.mem_cons.mp member with rfl | older
    · refine ⟨q',handle q',source,Or.inr rfl,List.mem_cons_self,⟨fun here => unknown (duplicates.grows q' here).1,
        duplicates.spared.extension.fresh dead⟩,data,fun ⟨u,free,at_⟩ => ?_,fun some_ => ⟨make q',Or.inr ⟨some_,handle q',data.2⟩,handle q'⟩⟩
      rcases free with free | ⟨some_,_⟩
      · exact absurd (duplicates.cleared.within u free q' at_) unknown
      · exact some_
    · obtain ⟨x,old⟩ := duplicates.copied pair older
      refine ⟨x,{ old with target := Or.inl old.target, held := both.extension.shadow old.held, clear := Iff.trans ⟨?_,?_⟩ old.clear }⟩
      · rintro ⟨u,free,at_⟩
        rcases free with free | ⟨_,new',_⟩
        · exact ⟨u,free,at_⟩
        · rw [at_] at new'
          cases new'
          exact absurd old.target unknown
      · rintro ⟨u,free,at_⟩
        exact ⟨u,Or.inl free,at_⟩
  · intro r here
    rcases here with here | rfl
    · exact (duplicates.only r here).imp id fun ⟨pair,member,at_⟩ => ⟨pair,List.mem_cons_of_mem _ member,at_⟩
    · exact Or.inr ⟨_,List.mem_cons_self,handle r⟩

theorem Duplicates.copies_renamed (duplicates : Duplicates f₀ known₀ clear₀ h k f known clear copies s t)
    (grows : ∀ r, known r → f' r = f r) : renameCopies f' copies = renameCopies f copies := by
  refine List.map_congr_left fun pair member => ?_
  obtain ⟨q,copy⟩ := duplicates.copied pair member
  have within : pair.2.Within known := by
    intro p handle
    rw [copy.handle] at handle
    cases handle
    exact copy.target
  rw [grows _ (duplicates.grows _ copy.source).1,Mirrors.rename_within grows within]

theorem Duplicates.object (duplicates : Duplicates f₀ known₀ clear₀ h k f known clear copies s t) (member : pair ∈ copies)
    (handle : pair.2.handle? = some q) (spared : Spared s s') : s'.object? q = s.object? q := by
  obtain ⟨_,copy⟩ := duplicates.copied pair member
  obtain rfl := Option.some.inj (copy.handle.symm.trans handle)
  exact spared.extension.objects _ (Or.inr (.root (.shadow copy.held) copy.handle (duplicates.mirrors.live copy.target)))

theorem Duplicates.push {list : ListObject} (duplicates : Duplicates f₀ known₀ clear₀ h k f known clear copies s t) (member : (r,.list q) ∈ copies)
    (present : s.object? q = some (.list list)) (open_ : list.frozen = false) (within : item.Within known)
    (clean : (∃ u, clear₀ u ∧ u.handle? = some r) → clear item) :
    ∃ s' t', listPush (.list q) item s = .ok () s' ∧ listPush (.list (f q)) (item.rename f) t = .ok () t' ∧
      Duplicates f₀ known₀ clear₀ h k f known clear copies s' t' ∧ Wrote s s' q (.list (list.push item)) := by
  obtain ⟨target,copy⟩ := duplicates.copied _ member
  obtain rfl : q = target := Option.some.inj copy.handle
  have image : t.object? (f q) = some (.list (list.rename f)) := by
    rw [duplicates.mirrors.object copy.target,present]
    rfl
  obtain ⟨s',pushed,left⟩ := updateList_wrote (·.push item) present open_
  obtain ⟨t',pushed',right⟩ := updateList_wrote (·.push (item.rename f)) image open_
  rw [ListObject.push_rename] at right
  have joined : ∀ w ∈ (list.push item).items, w ∈ list.items ∨ w = item := fun w => Array.mem_push.mp
  refine ⟨s',t',pushed,pushed',duplicates.wrote member rfl left right (fun w refers => ?_) ?_,left⟩
  · cases refers with
    | item inside =>
        rcases joined w inside with old | rfl
        · exact duplicates.mirrors.refers copy.target present (.item old)
        · exact within
  · refine duplicates.cleared.touched left.toTouched (fun some_ w inside => ?_) (fun _ same => by cases same) fun _ _ same => by cases same
    rw [contents_list left.here,Array.mem_toList_iff] at inside
    rcases joined w inside with old | rfl
    · obtain ⟨u,free,handle⟩ := some_
      refine duplicates.cleared.contents u q free handle w ?_
      rw [contents_list present]
      exact Array.mem_toList_iff.mpr old
    · exact clean (copy.clear.mp some_)

theorem Duplicates.store {table : Table} (duplicates : Duplicates f₀ known₀ clear₀ h k f known clear copies s t) (member : (r,.map q) ∈ copies)
    (present : s.object? q = some (.map table)) (keyed : key.Within known) (free : clear key) (valued : value.Within known)
    (clean : (∃ u, clear₀ u ∧ u.handle? = some r) → clear value) :
    Duplicates f₀ known₀ clear₀ h k f known clear copies (s.store q key value) (t.store (f q) (key.rename f) (value.rename f)) := by
  obtain ⟨target,copy⟩ := duplicates.copied _ member
  obtain rfl : q = target := Option.some.inj copy.handle
  have image : t.object? (f q) = some (.map (table.rename f)) := by
    rw [duplicates.mirrors.object copy.target,present]
    rfl
  have right := store_wrote (key.rename f) (value.rename f) image
  rw [duplicates.mirrors.stored duplicates.cleared copy.target present keyed free value] at right
  refine duplicates.wrote member rfl (store_wrote key value present) right (fun w refers => ?_) ?_
  · rcases stored_refers (duplicates.mirrors.intact.table present) refers with rfl | rfl | old
    · exact keyed
    · exact valued
    · exact duplicates.mirrors.refers copy.target present old
  · exact duplicates.cleared.store duplicates.mirrors.intact copy.target present free fun some_ => clean (copy.clear.mp some_)

-- How the copies of one value compare.
def Duplicated (f₀ : Handle → Handle) (known₀ : Handle → Prop) (clear₀ : Value → Prop) (h k : Heap) (f : Handle → Handle) (known : Handle → Prop)
    (clear : Value → Prop) (copies : Copies) (a : Value) (result result' : Value × Copies) (s' t' : Heap) : Prop :=
  ∃ f' known' clear', Duplicates f₀ known₀ clear₀ h k f' known' clear' result.2 s' t' ∧
    Furthers f known clear copies f' known' clear' result.2 ∧ result' = (result.1.rename f',renameCopies f' result.2) ∧
    result.1.Within known' ∧ (clear₀ a → clear' result.1)

def Filled (f₀ : Handle → Handle) (known₀ : Handle → Prop) (clear₀ : Value → Prop) (h k : Heap) (f : Handle → Handle) (known : Handle → Prop)
    (clear : Value → Prop) (copies copies' copies'' : Copies) (s' t' : Heap) : Prop :=
  ∃ f' known' clear', Duplicates f₀ known₀ clear₀ h k f' known' clear' copies' s' t' ∧
    Furthers f known clear copies f' known' clear' copies' ∧ copies'' = renameCopies f' copies'

-- With levels left in both runs for the containers not yet copied.
def Matched (f₀ : Handle → Handle) (known₀ : Handle → Prop) (clear₀ : Value → Prop) (h k : Heap) (levels levels' : Nat) : Prop :=
  ∀ a f known clear copies s t, a.Within known₀ → Duplicates f₀ known₀ clear₀ h k f known clear copies s t →
    h.slots.size + 2 ≤ levels + copies.length → k.slots.size + 2 ≤ levels' + copies.length →
    Tallies (Calm known₀ h k) (Still f₀ known₀) (Duplicated f₀ known₀ clear₀ h k f known clear copies a) (copyDeep levels a copies s)
      (copyDeep levels' (a.rename f₀) (renameCopies f copies) t)

theorem copyItems_performs {copies : Copies} (levels : Nat) (out : Value) (items : List Value) (bare : Bare copies) :
    Performs (fun _ => True) (copyItems (copyDeep levels) out items copies) :=
  copyItems_acts (copyDeep_keeps levels) (copyDeep_acts levels) out items bare

theorem copyItems_tallies {items : List Value} {list : ListObject} (matched : Matched f₀ known₀ clear₀ h k levels levels')
    (duplicates : Duplicates f₀ known₀ clear₀ h k f known clear copies s t) (member : (r,.list q) ∈ copies) (here : f q = p)
    (present : s.object? q = some (.list list)) (open_ : list.frozen = false) (within : ∀ item ∈ items, item.Within known₀)
    (free : (∃ u, clear₀ u ∧ u.handle? = some r) → ∀ item ∈ items, clear₀ item) (enough : h.slots.size + 2 ≤ levels + copies.length)
    (enough' : k.slots.size + 2 ≤ levels' + copies.length) :
    Tallies (Calm known₀ h k) (Still f₀ known₀) (Filled f₀ known₀ clear₀ h k f known clear copies)
      (copyItems (copyDeep levels) (.list q) items copies s)
      (copyItems (copyDeep levels') (.list p) (items.map (Value.rename f₀)) (renameCopies f copies) t) := by
  induction items generalizing f known clear copies s t list with
  | nil => exact .pure ⟨f,known,clear,duplicates,.refl copies,rfl⟩
  | cons item rest ih =>
      have intact := duplicates.mirrors.intact
      have image := duplicates.mirrors.image
      have joins : ∀ (levels : Nat) (out : Value) (rest : List Value) (result : Value × Copies), Bare result.2 → Performs (fun _ => True)
          (listPush out result.1 >>= fun _ => copyItems (copyDeep levels) out rest result.2) := fun levels out rest result bare =>
        Does.bind (updateList_acts out _) fun _ => copyItems_performs levels out rest bare
      refine (matched item f known clear copies s t (within item List.mem_cons_self) duplicates enough enough').halves
        (fun result u done => (joins levels _ rest result (copyDeep_keeps _ _ _ duplicates.bare.1 _ _ _ done).2).later
          ((copyDeep_spares _ _ _ _ intact).ok done).1.intact)
        (fun result u done => (joins levels' _ _ result (copyDeep_keeps _ _ _ duplicates.bare.2 _ _ _ done).2).later
          ((copyDeep_spares _ _ _ _ image).ok done).1.intact) ?_
      rintro ⟨copy,copies'⟩ _ u v done done' ⟨f',known',clear',duplicates',furthers,rfl,inner,clean⟩
      dsimp only at duplicates' furthers inner clean
      have still := (duplicates.object member rfl ((copyDeep_spares _ _ _ _ intact).ok done).1).trans present
      obtain ⟨target,old⟩ := duplicates.copied _ member
      obtain rfl : q = target := Option.some.inj old.handle
      obtain rfl : f' q = p := (furthers.grows q old.target).2.trans here
      obtain ⟨u',v',pushed,pushed',joined,wrote⟩ := duplicates'.push (furthers.listed member) still open_ inner fun some_ =>
        clean (free some_ item List.mem_cons_self)
      have longer := furthers.longer
      have next := ih joined (furthers.listed member) rfl wrote.here open_ (fun other later => within other (List.mem_cons_of_mem _ later))
        (fun some_ other later => free some_ other (List.mem_cons_of_mem _ later)) (by omega) (by omega)
      simp only [Bind.bind,EStateM.bind,pushed,pushed']
      refine next.mono (fun _ _ => id) fun copies₁ _ s₁ t₁ filled => ?_
      obtain ⟨f₁,known₁,clear₁,duplicates₁,further₁,same⟩ := filled
      exact ⟨f₁,known₁,clear₁,duplicates₁,furthers.trans further₁,same⟩

theorem copyEntries_performs {copies : Copies} (levels : Nat) (out : Value) (entries : List (Value × Value)) (bare : Bare copies) :
    Performs (fun _ => True) (copyEntries (copyDeep levels) out entries copies) :=
  copyEntries_acts (copyDeep_keeps levels) (copyDeep_acts levels) (fun entry _ => entry.1.named_all) (fun _ _ => trivial) bare

theorem copyEntries_tallies {entries : List (Value × Value)} {table : Table} (matched : Matched f₀ known₀ clear₀ h k levels levels')
    (duplicates : Duplicates f₀ known₀ clear₀ h k f known clear copies s t) (member : (r,.map q) ∈ copies) (here : f q = p)
    (present : s.object? q = some (.map table)) (open_ : table.frozen = false) (plain : table.aliases = none)
    (within : ∀ entry ∈ entries, entry.1.Within known₀ ∧ entry.2.Within known₀) (keys : ∀ entry ∈ entries, clear₀ entry.1)
    (free : (∃ u, clear₀ u ∧ u.handle? = some r) → ∀ entry ∈ entries, clear₀ entry.2) (enough : h.slots.size + 2 ≤ levels + copies.length)
    (enough' : k.slots.size + 2 ≤ levels' + copies.length) :
    Tallies (Calm known₀ h k) (Still f₀ known₀) (Filled f₀ known₀ clear₀ h k f known clear copies)
      (copyEntries (copyDeep levels) (.map q) entries copies s)
      (copyEntries (copyDeep levels') (.map p) (entries.map (renamePair f₀)) (renameCopies f copies) t) := by
  induction entries generalizing f known clear copies s t table with
  | nil => exact .pure ⟨f,known,clear,duplicates,.refl copies,rfl⟩
  | cons entry rest ih =>
      obtain ⟨key,value⟩ := entry
      obtain ⟨keyed,valued⟩ := within _ List.mem_cons_self
      have intact := duplicates.mirrors.intact
      have image := duplicates.mirrors.image
      have sets : ∀ (levels : Nat) (out key : Value) (rest : List (Value × Value)) (result : Value × Copies), Bare result.2 →
          Performs (fun _ => True) (mapSet out key result.1 >>= fun _ => copyEntries (copyDeep levels) out rest result.2) :=
        fun levels out key rest result bare => (mapSet_acts _ key.named_all fun _ _ => trivial).bind fun _ => copyEntries_performs levels out rest bare
      have joins : ∀ (levels : Nat) (out value : Value) (rest : List (Value × Value)) (result : Value × Copies), Bare result.2 →
          Performs (fun _ => True) (modify (·.protect result.1) >>= fun _ => copyDeep levels value result.2 >>= fun copied =>
            mapSet out result.1 copied.1 >>= fun _ => copyEntries (copyDeep levels) out rest copied.2) := fun levels out value rest result bare =>
        (protecting_acts result.1).bind fun _ => (copyDeep_acts levels value _ bare).bind_given (copyDeep_keeps levels value _ bare) fun _ given =>
          sets levels out result.1 rest _ given.2
      refine (matched key f known clear copies s t keyed duplicates enough enough').halves
        (fun result u done => (joins levels _ value rest result (copyDeep_keeps _ _ _ duplicates.bare.1 _ _ _ done).2).later
          ((copyDeep_spares _ _ _ _ intact).ok done).1.intact)
        (fun result u done => (joins levels' _ _ _ result (copyDeep_keeps _ _ _ duplicates.bare.2 _ _ _ done).2).later
          ((copyDeep_spares _ _ _ _ image).ok done).1.intact) ?_
      rintro ⟨key',copies'⟩ _ u v done done' ⟨f',known',clear',duplicates',furthers,rfl,inner,clean⟩
      dsimp only at duplicates' furthers inner clean
      -- The copy of the key is protected while the value is copied.
      have held := duplicates'.protect inner
      have longer := furthers.longer
      refine (matched value f' known' clear' copies' _ _ valued held (by omega) (by omega)).halves
        (fun result u' copied => (sets levels _ _ rest result (copyDeep_keeps _ _ _ held.bare.1 _ _ _ copied).2).later
          ((copyDeep_spares _ _ _ _ held.mirrors.intact).ok copied).1.intact)
        (fun result v' copied => (sets levels' _ _ _ result (copyDeep_keeps _ _ _ held.bare.2 _ _ _ copied).2).later
          ((copyDeep_spares _ _ _ _ held.mirrors.image).ok copied).1.intact) ?_
      rintro ⟨value',copies''⟩ _ u' v' copied copied' ⟨f'',known'',clear'',duplicates'',furthers',rfl,inner',clean'⟩
      dsimp only at duplicates'' furthers' inner' clean'
      obtain ⟨target,old⟩ := duplicates.copied _ member
      obtain rfl : q = target := Option.some.inj old.handle
      have before := (duplicates.object member rfl ((copyDeep_spares _ _ _ _ intact).ok done).1).trans present
      have there := (held.object (furthers.listed member) rfl ((copyDeep_spares _ _ _ _ held.mirrors.intact).ok copied).1).trans before
      have whole := furthers.trans furthers'
      have longer' := furthers'.longer
      obtain rfl : f'' q = p := (whole.grows q old.target).2.trans here
      have known_ : key'.Within known'' := inner.mono fun r here => (furthers'.grows r here).1
      have stored := duplicates''.store (whole.listed member) there known_ (furthers'.clears _ (clean (keys _ List.mem_cons_self))) inner'
        fun some_ => clean' (free some_ _ List.mem_cons_self)
      have image' : v'.object? (f'' q) = some (.map (table.rename f'')) := by
        rw [duplicates''.mirrors.object (whole.grows q old.target).1,there]
        rfl
      obtain ⟨frozen,aliases⟩ := stored_parts (h := u') key' value' (duplicates''.mirrors.intact.table there)
      have next := ih stored (whole.listed member) rfl (store_touched key' value' there).here (frozen.trans open_) (aliases.trans plain)
        (fun other later => within other (List.mem_cons_of_mem _ later)) (fun other later => keys other (List.mem_cons_of_mem _ later))
        (fun some_ other later => free some_ other (List.mem_cons_of_mem _ later)) (by omega) (by omega)
      rw [Mirrors.rename_within (fun r here => (furthers'.grows r here).2) inner] at next
      simp only [Bind.bind,EStateM.bind,mapSet_plain there open_ plain,mapSet_plain image' open_ (by simp [plain])]
      refine next.mono (fun _ _ => id) fun copies₁ _ s₁ t₁ filled => ?_
      obtain ⟨f₁,known₁,clear₁,duplicates₁,further₁,same⟩ := filled
      exact ⟨f₁,known₁,clear₁,duplicates₁,whole.trans further₁,same⟩

theorem Duplicates.found (duplicates : Duplicates f₀ known₀ clear₀ h k f known clear copies s t) (handle : a.handle? = some r)
    (found : copies.lookup r = some copy) :
    Tallies calm (Still f₀ known₀) (Duplicated f₀ known₀ clear₀ h k f known clear copies a)
      ((pure (copy,copies) : HeapM (Value × Copies)) s) ((pure (copy.rename f,renameCopies f copies) : HeapM (Value × Copies)) t) := by
  obtain ⟨q,listed⟩ := duplicates.copied _ (lookup_mem found)
  refine .pure ⟨f,known,clear,duplicates,.refl copies,rfl,fun p held => ?_,fun free => ?_⟩
  · obtain rfl := Option.some.inj (listed.handle.symm.trans held)
    exact listed.target
  · obtain ⟨u,clean,held⟩ := listed.clear.mpr ⟨a,free,handle⟩
    exact duplicates.cleared.kinds u copy q clean held listed.handle listed.data.2

theorem Duplicates.itself (duplicates : Duplicates f₀ known₀ clear₀ h k f known clear copies s t) (within : a.Within known₀) :
    Tallies calm (Still f₀ known₀) (Duplicated f₀ known₀ clear₀ h k f known clear copies a)
      ((pure (a,copies) : HeapM (Value × Copies)) s) ((pure (a.rename f₀,renameCopies f copies) : HeapM (Value × Copies)) t) := by
  rw [← Mirrors.rename_within (fun r here => (duplicates.grows r here).2) within]
  exact .pure ⟨f,known,clear,duplicates,.refl copies,rfl,within.mono fun r here => (duplicates.grows r here).1,duplicates.clears a⟩

theorem items_same (object : s.object? r = h.object? r) : s.items? (.list r) = h.items? (.list r) := by
  simp only [items?,list?,object]

theorem entries_same (object : s.object? r = h.object? r) (registers : s.registers = h.registers) :
    s.mapEntries (.map r) = h.mapEntries (.map r) := by
  have assigned : ∀ i, s.assigned? i = h.assigned? i := fun i => by rw [assigned?,assigned?,registers]
  simp only [mapEntries,table?,object,aliasEntries,assignedAliases,assigned]

-- A container is made, protected and filled; the copies of what is inside it are made on the way.
def madeOf (create : HeapM Value) (fill : Value → Copies → HeapM Copies) (r : Handle) (copies : Copies) : HeapM (Value × Copies) := do
  let out ← create
  modify (·.protect out)
  let copies ← fill out ((r,out) :: copies)
  pure (out,copies)

theorem madeOf_tallies {make : Handle → Value} {create : HeapM Value} {fill fill' : Value → Copies → HeapM Copies} {blank : Object}
    (duplicates : Duplicates f₀ known₀ clear₀ h k f known clear copies s t) (handle : ∀ r, (make r).handle? = some r)
    (renames : ∀ g r, (make r).rename g = make (g r)) (data : ∀ q, (make q).isString = false ∧ (make q).isFuncRef = false)
    (fresh : Tallies (Calm known s t) (Still f known) (Fresh f known s make) (create s) (create t)) (creates : Performs (fun _ => True) create)
    (spares : Concludes create s (Spared s) fun v u => ∃ q, v = make q ∧ u.object? q = some blank ∧ ¬ s.Survives q ∧ SameRoots s u)
    (bare : Delivers create fun v => v.isString = false) (empty : ∀ (u : Heap) q, u.object? q = some blank → u.contents q = [])
    (plain : ∀ table, blank = .map table → table.aliases = none)
    (fills : ∀ out copies, Bare copies → Performs (fun _ => True) (fill out copies))
    (fills' : ∀ out copies, Bare copies → Performs (fun _ => True) (fill' out copies))
    (same : a.handle? = some r) (within : a.Within known₀) (absent : copies.lookup r = none)
    (filled : ∀ f' known' clear' q s' t', Duplicates f₀ known₀ clear₀ h k f' known' clear' ((r,make q) :: copies) s' t' → s'.object? q = some blank →
      Tallies (Calm known₀ h k) (Still f₀ known₀) (Filled f₀ known₀ clear₀ h k f' known' clear' ((r,make q) :: copies))
        (fill (make q) ((r,make q) :: copies) s') (fill' (make (f' q)) (renameCopies f' ((r,make q) :: copies)) t')) :
    Tallies (Calm known₀ h k) (Still f₀ known₀) (Duplicated f₀ known₀ clear₀ h k f known clear copies a)
      (madeOf create fill r copies s) (madeOf create fill' (f₀ r) (renameCopies f copies) t) := by
  have intact := duplicates.mirrors.intact
  have image := duplicates.mirrors.image
  have rest : ∀ (fill : Value → Copies → HeapM Copies) r copies out, (∀ out copies, Bare copies → Performs (fun _ => True) (fill out copies)) →
      Bare copies → out.isString = false → Performs (fun _ => True) (do
        modify (·.protect out)
        let copies ← fill out ((r,out) :: copies)
        pure (out,copies)) := fun fill r copies out fills bare container =>
    (protecting_acts out).bind fun _ => (fills out _ (bare.cons container)).bind fun _ => .pure _
  refine (duplicates.abreast.tallies fresh).halves
    (fun out u done => (rest fill r copies out fills duplicates.bare.1 (bare _ _ _ done)).later ((creates.forward done).intact intact))
    (fun out u done => (rest fill' _ _ out fills' duplicates.bare.2 (bare _ _ _ done)).later ((creates.forward done).intact image)) ?_
  intro _ w u v done done' new
  obtain ⟨spared,q,rfl,present,dead,roots⟩ := spares.ok done
  obtain ⟨f',known',clear',rfl,duplicates',furthers⟩ := duplicates.entered new handle renames (data q) spared dead roots (empty u q present)
    (fun table there => plain table (Option.some.inj (present.symm.trans there)))
    ⟨creates.since intact done,creates.since image done'⟩ (within r same) absent
  have source := duplicates.grows r (within r same)
  have copies' : renameCopies f' ((r,make q) :: copies) = (f₀ r,make (f' q)) :: renameCopies f copies := by
    rw [← duplicates.copies_renamed fun r here => (furthers.grows r here).2]
    simp only [renameCopies,List.map_cons,renames,(furthers.grows r source.1).2,source.2]
  have next := filled f' known' clear' q _ _ duplicates' present
  rw [copies'] at next
  refine next.halves (fun _ _ _ => Nat.le_refl _) (fun _ _ _ => Nat.le_refl _) ?_
  rintro copies₁ _ u' v' _ _ ⟨f₁,known₁,clear₁,duplicates₁,furthers₁,rfl⟩
  obtain ⟨target,copy⟩ := duplicates₁.copied _ (furthers₁.listed List.mem_cons_self)
  obtain rfl : q = target := Option.some.inj ((handle q).symm.trans copy.handle)
  have there : known' q := by
    obtain ⟨x,first⟩ := duplicates'.copied _ List.mem_cons_self
    obtain rfl : q = x := Option.some.inj ((handle q).symm.trans first.handle)
    exact first.target
  refine .pure ⟨f₁,known₁,clear₁,duplicates₁,furthers.trans furthers₁,?_,fun p held => ?_,fun free => ?_⟩
  · rw [renames,(furthers₁.grows q there).2]
  · obtain rfl := Option.some.inj ((handle q).symm.trans held)
    exact copy.target
  · obtain ⟨x,clean,held⟩ := copy.clear.mpr ⟨a,free,same⟩
    exact duplicates₁.cleared.kinds x _ q clean held copy.handle copy.data.2

theorem copyDeep_matched (start : Mirrors f₀ known₀ h k) (cleared : Clear known₀ clear₀ h) (levels levels' : Nat) :
    Matched f₀ known₀ clear₀ h k levels levels' := by
  induction levels generalizing levels' with
  | zero =>
      intro a f known clear copies s t _ duplicates enough _
      have room := (duplicates.room start).1
      omega
  | succ levels ih =>
      intro a f known clear copies s t within duplicates enough enough'
      obtain ⟨fewer,rfl⟩ : ∃ fewer, levels' = fewer + 1 := by
        have room := (duplicates.room start).2
        exact ⟨levels' - 1,by omega⟩
      have abreast := duplicates.abreast
      have intact := duplicates.mirrors.intact
      have image := duplicates.mirrors.image
      have agrees : ∀ r, known₀ r → f r = f₀ r := fun r here => (duplicates.grows r here).2
      cases a with
      | null | int | double | short =>
          rw [copyDeep_plain _ _ rfl,copyDeep_plain _ _ rfl]
          exact duplicates.itself within
      | str r | funcRef r =>
          have looked := duplicates.lookup (within r rfl)
          rw [copyDeep_choice (r := r) levels copies (by simp),copyDeep_choice (r := f₀ r) fewer _ (by simp [Value.rename]),looked]
          cases found : copies.lookup r with
          | some copy => exact duplicates.found rfl found
          | none => exact duplicates.itself within
      | list r =>
          have source := within r rfl
          have looked := duplicates.lookup source
          rw [Value.rename_list,copyDeep_list,copyDeep_list,looked]
          cases found : copies.lookup r with
          | some copy => exact duplicates.found rfl found
          | none =>
              have items := duplicates.mirrors.itemList (v := .list r) fun p held => (duplicates.grows p (within p held)).1
              have same := items_same (duplicates.objects r source)
              rw [Value.rename_list,(duplicates.grows r source).2] at items
              have inner : ∀ item ∈ ((h.items? (.list r)).getD #[]).toList, item.Within known₀ := by
                cases listed : h.items? (.list r) with
                | none => simp
                | some items => exact fun item member => start.closed.items within listed item (Array.mem_toList_iff.mp member)
              have sizes : ((t.items? (.list (f₀ r))).getD #[]).size = ((s.items? (.list r)).getD #[]).size := by
                simpa using congrArg List.length items
              rw [same,List.map_congr_left fun item member => Mirrors.rename_within agrees (inner item member)] at items
              show Tallies _ _ _ (madeOf (newList ((s.items? (.list r)).getD #[]).size)
                  (fun out copies => copyItems (copyDeep levels) out ((s.items? (.list r)).getD #[]).toList copies) r copies s)
                (madeOf (newList ((t.items? (.list (f₀ r))).getD #[]).size)
                  (fun out copies => copyItems (copyDeep fewer) out ((t.items? (.list (f₀ r))).getD #[]).toList copies) (f₀ r) (renameCopies f copies) t)
              rw [sizes,items,same]
              refine madeOf_tallies duplicates (fun _ => rfl) (fun _ _ => rfl) (fun _ => ⟨rfl,rfl⟩) (newList_fresh duplicates.mirrors _)
                (newListOf_acts _ _) (newListOf_spared _ _ intact) (newListOf_delivers _ _) (fun u q present => ?_) (fun _ same => by cases same)
                (fun out copies bare => copyItems_performs _ _ _ bare) (fun out copies bare => copyItems_performs _ _ _ bare) rfl within found
                fun f' known' clear' q s' t' duplicates' present => ?_
              · rw [contents_list present]
                rfl
              · refine copyItems_tallies (ih fewer) duplicates' List.mem_cons_self rfl present rfl inner (fun some_ item member => ?_)
                  (by rw [List.length_cons]; omega) (by rw [List.length_cons]; omega)
                obtain ⟨u,free,held⟩ := some_
                exact cleared.parts (cleared.kinds u (.list r) r free held rfl rfl) member
      | map r =>
          have source := within r rfl
          have looked := duplicates.lookup source
          rw [Value.rename_map,copyDeep_map,copyDeep_map,looked]
          cases found : copies.lookup r with
          | some copy => exact duplicates.found rfl found
          | none =>
              have entries := duplicates.mirrors.mapEntries (v := .map r) fun p held => (duplicates.grows p (within p held)).1
              have same := entries_same (duplicates.objects r source) duplicates.spared.extension.registers
              have inner : ∀ entry ∈ h.mapEntries (.map r), entry.1.Within known₀ ∧ entry.2.Within known₀ := fun entry member =>
                start.closed.entries within member
              rw [Value.rename_map,(duplicates.grows r source).2,same,renamePair_within agrees inner] at entries
              show Tallies _ _ _ (madeOf (newMap ((s.mapEntries (.map r)).length * 2))
                  (fun out copies => copyEntries (copyDeep levels) out (s.mapEntries (.map r)) copies) r copies s)
                (madeOf (newMap ((t.mapEntries (.map (f₀ r))).length * 2))
                  (fun out copies => copyEntries (copyDeep fewer) out (t.mapEntries (.map (f₀ r))) copies) (f₀ r) (renameCopies f copies) t)
              rw [entries,List.length_map,same]
              refine madeOf_tallies duplicates (fun _ => rfl) (fun _ _ => rfl) (fun _ => ⟨rfl,rfl⟩) (newMap_fresh duplicates.mirrors _)
                ((allocate_acts .map).map _) (newMap_spared _ intact) (newMap_delivers _) (fun u q present => contents_blank present)
                (fun table same => by cases same; rfl) (fun out copies bare => copyEntries_performs _ _ _ bare)
                (fun out copies bare => copyEntries_performs _ _ _ bare) rfl within found
                fun f' known' clear' q s' t' duplicates' present => ?_
              refine copyEntries_tallies (ih fewer) duplicates' List.mem_cons_self rfl present rfl rfl inner
                (fun entry member => entries_clear cleared within member) (fun some_ entry member => ?_)
                (by rw [List.length_cons]; omega) (by rw [List.length_cons]; omega)
              obtain ⟨u,free,held⟩ := some_
              have part : entry.2 ∈ h.parts (.map r) := List.mem_flatMap.mpr ⟨entry,member,by simp⟩
              exact cleared.parts (cleared.kinds u (.map r) r free held rfl rfl) part

theorem Duplicates.start (mirrors : Mirrors f known h k) (cleared : Clear known clear h) :
    Duplicates f known clear h k f known clear [] h k where
  mirrors := mirrors
  grows := fun _ here => ⟨here,rfl⟩
  cleared := cleared
  clears := fun _ => id
  spared := .refl mirrors.intact
  later := ⟨Nat.le_refl _,Nat.le_refl _⟩
  objects := fun _ _ => rfl
  sources := List.nodup_nil
  copied := fun _ member => by cases member
  only := fun _ => Or.inl

theorem freeze_alike (alike : Alike f known v w s t) : Alike f known v w (s.freeze v) (t.freeze w) := by
  obtain ⟨f',known',mirrors,grows,rfl,within⟩ := alike
  exact ⟨f',known',mirrors.freeze within,grows,rfl,within⟩

theorem frozenCopy_alike (mirrors : Mirrors f known h k) (cleared : Clear known clear h) (within : v.Within known) :
    Tallies (Calm known h k) (Still f known) (Alike f known) (frozenCopy v h) (frozenCopy (v.rename f) k) := by
  have copied := copyDeep_matched mirrors.pushScope (cleared.registers rfl rfl) (h.slots.size + 2) (k.slots.size + 2) v f known clear [] _ _ within
    (.start mirrors.pushScope (cleared.registers rfl rfl)) (Nat.le_refl _) (Nat.le_refl _)
  have closed : Tallies (Calm known h k) (Still f known) (fun result result' => Alike f known result.1 result'.1)
      (inScope (copyDeep (h.slots.size + 2) v []) h) (inScope (copyDeep (k.slots.size + 2) (v.rename f) []) k) := by
    refine .inScope copied fun result _ s t ⟨f',known',_,duplicates,furthers,same,inner,_⟩ => ?_
    subst same
    exact ⟨f',known',duplicates.mirrors.popScope,furthers.grows,rfl,inner⟩
  refine closed.halves (fun _ _ _ => Nat.le_refl _) (fun _ _ _ => Nat.le_refl _) ?_
  intro result result' s t _ _ alike
  exact .ok (freeze_alike alike)

end RegisterMachine.Heap
