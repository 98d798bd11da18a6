import RegisterMachine.Proofs.Heap.Freezing
import RegisterMachine.Proofs.Map.Equality
import RegisterMachine.Proofs.Map.Gone

namespace RegisterMachine

-- The value with the handle of a list or a map replaced.
def Value.clone (twin : Handle → Handle) : Value → Value
  | .list r => .list (twin r)
  | .map r => .map (twin r)
  | v => v

namespace Heap

theorem Does.forward {operation : HeapM α} (does : Performs (fun _ => True) operation) (done : operation s = .ok a t) : Steps s t := by
  have deeds := does s (.all s)
  rw [after,done] at deeds
  exact deeds.steps

theorem Swept.before {s t : Heap} {object : Object} (swept : Swept s t) (intact : s.Intact) (present : t.object? r = some object) :
    s.object? r = some object := by
  induction swept with
  | refl => exact present
  | @tail u _ first last ih =>
      subst last
      by_cases enabled : u.disabled = 0
      · exact ih ((collect_object (Swept.steps first |>.intact intact).toClean enabled).mp present).1
      · rw [collect_disabled enabled] at present
        exact ih present

-- A value to be copied on the way from one heap to another. Each handle inside it stands for one value,
-- its containers are kept by the roots or gone for good, and its maps have no aliases and different keys.
structure Source (h k : Heap) (v : Value) : Prop where
  intact : h.Intact
  young : k.history.size < 2 ^ 32 → h.Young
  typed : ∀ a b r, Inside h v a → Inside h v b → a.handle? = some r → b.handle? = some r → a = b
  kept : ∀ a r, Inside h v a → a.handle? = some r → h.isLive r = true → h.Survives r
  lasting : ∀ a r, Inside h v a → a.isContainer = true → a.handle? = some r → h.isLive r = true ∨ h.Past r ∧ k.history.size < 2 ^ 32
  maps : ∀ r table, Inside h v (.map r) → h.object? r = some (.map table) → table.aliases = none ∧ Rows h (Table.contents table.cells)

theorem Source.object (source : Source h k v) (steps : Steps h s) (extension : Extends h s) (later : Steps s k) (inside : Inside h v a)
    (container : a.isContainer = true) (handle : a.handle? = some r) : s.object? r = h.object? r := by
  rcases source.lasting a r inside container handle with live | ⟨past,few⟩
  · exact extension.objects r (source.kept a r inside handle live)
  · have fewer := later.fewer (steps.intact source.intact)
    have still := (steps.past source.intact (source.young few) (by omega)).2 r past
    have before := past.dead
    have after := still.dead
    rw [isLive,Option.isSome_eq_false_iff,Option.isNone_iff_eq_none] at before after
    rw [before,after]

theorem Source.items (source : Source h k v) (steps : Steps h s) (extension : Extends h s) (later : Steps s k)
    (inside : Inside h v (.list r)) : s.items? (.list r) = h.items? (.list r) := by
  simp only [items?,list?,source.object steps extension later inside rfl rfl]

theorem Source.entries (source : Source h k v) (steps : Steps h s) (extension : Extends h s) (later : Steps s k)
    (inside : Inside h v (.map r)) : s.mapEntries (.map r) = h.mapEntries (.map r) := by
  have tables : s.table? (.map r) = h.table? (.map r) := by simp only [table?,source.object steps extension later inside rfl rfl]
  simp only [mapEntries,tables]
  cases found : h.table? (.map r) with
  | none => rfl
  | some table =>
      obtain ⟨q,same,present⟩ := table?_object.mp found
      cases same
      simp only [aliasEntries,(source.maps r table inside present).1]

theorem Source.reads (source : Source h k v) (inside : Inside h v (.map r)) : Reads h (.map r) := by
  cases found : h.table? (.map r) with
  | none => exact reads_gone found
  | some table =>
      obtain ⟨q,same,present⟩ := table?_object.mp found
      cases same
      obtain ⟨plain,rows⟩ := source.maps r table inside present
      exact rows.reads present (source.intact.table present) plain

-- The copy of a value among the copies.
inductive Twin (copies : Copies) : Value → Value → Prop where
  | list : (r,b) ∈ copies → Twin copies (.list r) b
  | map : (r,b) ∈ copies → Twin copies (.map r) b
  | scalar : a.isContainer = false → Twin copies a a

theorem Twin.mono (twin : Twin copies a b) (more : copies ⊆ copies') : Twin copies' a b := by
  cases twin with
  | list member => exact .list (more member)
  | map member => exact .map (more member)
  | scalar scalar => exact .scalar scalar

theorem Twin.listed (twin : Twin copies a b) (container : a.isContainer = true) (handle : a.handle? = some r) : (r,b) ∈ copies := by
  cases twin with
  | list member | map member =>
      cases handle
      exact member
  | scalar scalar =>
      rw [scalar] at container
      cases container

-- A container and its copy, by their handles.
inductive Counterpart (r q : Handle) : Value → Value → Prop where
  | list : Counterpart r q (.list r) (.list q)
  | map : Counterpart r q (.map r) (.map q)

theorem Counterpart.handles (counterpart : Counterpart r q a b) : a.handle? = some r ∧ b.handle? = some q := by
  cases counterpart with
  | list => exact ⟨rfl,rfl⟩
  | map => exact ⟨rfl,rfl⟩

theorem Counterpart.container (counterpart : Counterpart r q a b) : a.isContainer = true ∧ b.isString = false := by
  cases counterpart with
  | list => exact ⟨rfl,rfl⟩
  | map => exact ⟨rfl,rfl⟩

structure Made (h k : Heap) (v : Value) (s : Heap) (pair : Handle × Value) : Prop where
  held : pair.2 ∈ s.shadow
  known : ∃ a q, Inside h v a ∧ Counterpart pair.1 q a pair.2 ∧ s.isLive q = true ∧ ¬ h.Survives q ∧ (k.history.size < 2 ^ 32 → ¬ h.Seen q)

theorem Made.move (made : Made h k v s pair) (shadow : s.shadow ⊆ t.shadow)
    (live : ∀ q, pair.2.handle? = some q → s.isLive q = true → t.isLive q = true) : Made h k v t pair := by
  obtain ⟨a,q,inside,counterpart,there,fresh⟩ := made.known
  exact ⟨shadow made.held,a,q,inside,counterpart,live q counterpart.handles.2 there,fresh⟩

theorem Made.survives (made : Made h k v s pair) (handle : pair.2.handle? = some q) : s.Survives q ∧ ¬ h.Survives q := by
  obtain ⟨_,p,_,counterpart,there,fresh,_⟩ := made.known
  obtain rfl : p = q := Option.some.inj (counterpart.handles.2.symm.trans handle)
  exact ⟨Or.inr (.root (.shadow made.held) handle there),fresh⟩

theorem Made.later (made : Made h k v s pair) (spared : Spared s t) : Made h k v t pair := by
  refine made.move spared.extension.shadow fun q handle there => ?_
  rw [isLive,spared.extension.objects q (made.survives handle).1]
  exact there

-- Every object is one of the first heap's or a copy, and no copy is a string.
structure Progress (h k : Heap) (v : Value) (copies : Copies) (s : Heap) : Prop where
  steps : Steps h s
  extension : Extends h s
  made : ∀ pair ∈ copies, Made h k v s pair
  sources : (copies.map Prod.fst).Nodup
  targets : (copies.map fun pair => pair.2.handle?).Nodup
  older : ∀ r object, s.object? r = some object → h.object? r = some object ∨ ∃ pair ∈ copies, pair.2.handle? = some r
  texts : ∀ q text, s.object? q = some (.str text) → h.object? q = some (.str text)

theorem Progress.keyOf (progress : Progress h k v copies s) (source : Source h k v) (inside : Inside h v a) : s.keyOf a = h.keyOf a := by
  cases a with
  | str q =>
      have texts : s.text? (.str q) = h.text? (.str q) := by
        refine Option.ext fun text => ?_
        rw [text?_str,text?_str]
        refine ⟨progress.texts q text,fun there => ?_⟩
        rw [progress.extension.objects q (source.kept _ q inside rfl (by rw [isLive,there]; rfl))]
        exact there
      rw [Heap.keyOf,Heap.keyOf,texts]
  | null | int | double | short | list | map | funcRef => rfl

theorem Progress.bare (progress : Progress h k v copies s) : Bare copies := by
  intro pair member
  obtain ⟨_,_,_,counterpart,_⟩ := (progress.made pair member).known
  exact counterpart.container.2

theorem Progress.move (progress : Progress h k v copies s) (steps : Steps s t) (extension : Extends h t) (shadow : s.shadow ⊆ t.shadow)
    (live : ∀ r, s.isLive r = true → t.isLive r = true)
    (older : ∀ r object, t.object? r = some object → s.object? r = some object ∨ ∃ pair ∈ copies, pair.2.handle? = some r)
    (texts : ∀ q text, t.object? q = some (.str text) → s.object? q = some (.str text)) : Progress h k v copies t where
  steps := progress.steps.trans steps
  extension := extension
  made := fun pair member => (progress.made pair member).move shadow fun q _ => live q
  sources := progress.sources
  targets := progress.targets
  older := by
    intro r object present
    rcases older r object present with before | copy
    · exact progress.older r object before
    · exact Or.inr copy
  texts := fun q text there => progress.texts q text (texts q text there)

theorem lookup_absent {copies : Copies} (absent : copies.lookup r = none) : r ∉ copies.map Prod.fst := by
  intro member
  obtain ⟨pair,listed,rfl⟩ := List.mem_map.mp member
  have different := List.lookup_eq_none_iff.mp absent pair listed
  simp at different

theorem Progress.lookup (progress : Progress h k v copies s) (member : (r,b) ∈ copies) : copies.lookup r = some b := by
  cases found : copies.lookup r with
  | none => exact absurd (List.mem_map.mpr ⟨_,member,rfl⟩) (lookup_absent found)
  | some c =>
      have same := List.inj_on_of_nodup_map progress.sources member (lookup_mem found) rfl
      cases same
      rfl

theorem Installed.unseen {object : Object} (installed : Installed h object charge immortal r h') : ¬ h.Seen r := by
  intro seen
  rcases seen with live | past
  · rw [installed.dead] at live
    cases live
  · rw [Past,← installed.generation] at past
    exact Nat.lt_irrefl _ past

theorem Progress.allocate {object : Object} (progress : Progress h k v copies s) (source : Source h k v) (sane : object.Sane)
    (other : ∀ text, object ≠ .str text) (allocated : allocate object s = .ok q t) (later : Steps t k) (inside : Inside h v a)
    (counterpart : Counterpart r q a out) (absent : copies.lookup r = none) :
    Progress h k v ((r,out) :: copies) (t.protect out) ∧ Spared s (t.protect out) ∧ t.object? q = some object ∧ ¬ s.Survives q := by
  have intact := progress.steps.intact source.intact
  obtain ⟨spared,present,fresh,roots⟩ := (allocate_spared sane intact).ok allocated
  obtain ⟨u,swept,whole,installed⟩ := allocate_ok intact allocated
  have moved : Steps s t := by
    have moves := allocate_moves sane s
    rwa [after,allocated] at moves
  have both : Spared s (t.protect out) := spared.trans (protect_spared spared.intact out)
  have unseen : k.history.size < 2 ^ 32 → ¬ h.Seen q := by
    intro few seen
    have first := progress.steps.trans swept.steps
    have fewer := later.fewer (moved.intact intact)
    have count : u.history.size = t.history.size := by rw [installed.history]
    exact installed.unseen (Steps.seen first source.intact (source.young few) (by omega) seen)
  refine ⟨⟨?_,progress.extension.trans both.extension,?_,?_,?_,?_,?_⟩,both,present,fresh⟩
  · exact (progress.steps.trans moved).trans (Steps.apart (protect_apart t out))
  · intro pair member
    rcases List.mem_cons.mp member with rfl | older
    · exact ⟨List.mem_cons_self,a,q,inside,counterpart,by rw [show (t.protect out).isLive q = t.isLive q from rfl,isLive,present]; rfl,
        progress.extension.fresh fresh,unseen⟩
    · exact (progress.made pair older).later both
  · exact List.nodup_cons.mpr ⟨lookup_absent absent,progress.sources⟩
  · refine List.nodup_cons.mpr ⟨fun member => ?_,progress.targets⟩
    obtain ⟨pair,listed,same⟩ := List.mem_map.mp member
    exact fresh ((progress.made pair listed).survives (same.trans counterpart.handles.2)).1
  · intro p other there
    rcases installed.object_cases there with ⟨rfl,_⟩ | before
    · exact Or.inr ⟨_,List.mem_cons_self,counterpart.handles.2⟩
    · rcases progress.older p other (swept.before intact before) with first | ⟨pair,member,handle⟩
      · exact Or.inl first
      · exact Or.inr ⟨pair,List.mem_cons_of_mem _ member,handle⟩
  · intro p text there
    rcases installed.object_cases there with ⟨_,same⟩ | before
    · exact absurd same.symm (other text)
    · exact progress.texts p text (swept.before intact before)

-- The copy of a map, open, with keys of the original. What the keys are is read in the first heap.
structure MapCopy (h : Heap) (v : Value) (s : Heap) (q : Handle) (table : Table) : Prop where
  object : s.object? q = some (.map table)
  valid : table.Valid
  writable : table.frozen = false
  plain : table.aliases = none
  keys : ∀ entry ∈ Table.contents table.cells, Inside h v entry.key
  rows : Rows h (Table.contents table.cells)

theorem MapCopy.blank (object : s.object? q = some (.map (.withCapacity n))) : MapCopy h v s q (.withCapacity n) := by
  refine ⟨object,Table.withCapacity_valid n,rfl,rfl,?_,?_⟩
  · simp [Table.withCapacity]
  · simpa [Table.withCapacity] using Rows.nil h

theorem MapCopy.move (filled : MapCopy h v s q table) (object : t.object? q = some (.map table)) : MapCopy h v t q table :=
  ⟨object,filled.valid,filled.writable,filled.plain,filled.keys,filled.rows⟩

-- A copy that is complete: the items of the list, or the entries of the map in some order.
inductive Complete (h : Heap) (v : Value) (copies : Copies) (s : Heap) (r : Handle) : Value → Prop where
  | list {list : ListObject} : s.object? q = some (.list list) → list.frozen = false →
      List.Forall₂ (Twin copies) ((h.items? (.list r)).getD #[]).toList list.items.toList → Complete h v copies s r (.list q)
  | map {entries : List (Value × Value)} : MapCopy h v s q table →
      List.Forall₂ (fun entry copy => copy.1 = entry.1 ∧ Twin copies entry.2 copy.2) (h.mapEntries (.map r)) entries →
      (s.mapEntries (.map q)).Perm entries → Complete h v copies s r (.map q)

theorem mapEntries_kept {s t : Heap} {table : Table} (before : s.object? q = some (.map table)) (after : t.object? q = some (.map table))
    (plain : table.aliases = none) : t.mapEntries (.map q) = s.mapEntries (.map q) := by
  rw [mapEntries_plain before plain,mapEntries_plain after plain]

theorem Complete.move (complete : Complete h v copies s r out) (more : copies ⊆ copies')
    (same : ∀ q, out.handle? = some q → t.object? q = s.object? q) : Complete h v copies' t r out := by
  cases complete with
  | list present open_ items => exact .list ((same _ rfl).trans present) open_ (items.imp fun _ _ twin => twin.mono more)
  | map filled entries listed =>
      have present := (same _ rfl).trans filled.object
      refine .map (filled.move present) (entries.imp fun _ _ pair => ⟨pair.1,pair.2.mono more⟩) ?_
      rw [mapEntries_kept filled.object present filled.plain]
      exact listed

theorem Complete.later (complete : Complete h v copies s pair.1 pair.2) (made : Made h k v s pair) (more : copies ⊆ copies') (spared : Spared s t) :
    Complete h v copies' t pair.1 pair.2 :=
  complete.move more fun q handle => spared.extension.objects q (made.survives handle).1

-- From a base on, with some copies known before: what was made since is complete.
structure Advance (h k : Heap) (v : Value) (base : Heap) (known copies : Copies) (s : Heap) : Prop where
  grown : known ⊆ copies
  progress : Progress h k v copies s
  spared : Spared base s
  complete : ∀ pair ∈ copies, pair ∉ known → Complete h v copies s pair.1 pair.2

theorem Advance.refl (progress : Progress h k v copies s) (spared : Spared base s) : Advance h k v base copies copies s :=
  ⟨List.Subset.refl _,progress,spared,fun _ member fresh => absurd member fresh⟩

theorem Advance.trans (first : Advance h k v base known copies s) (second : Advance h k v s copies copies' t) :
    Advance h k v base known copies' t where
  grown := List.Subset.trans first.grown second.grown
  progress := second.progress
  spared := first.spared.trans second.spared
  complete := by
    intro pair member fresh
    by_cases before : pair ∈ copies
    · exact (first.complete pair before fresh).later (first.progress.made pair before) second.grown second.spared
    · exact second.complete pair member before

theorem Advance.protect (advance : Advance h k v base known copies s) (w : Value) : Advance h k v base known copies (s.protect w) where
  grown := advance.grown
  progress := by
    have spared := protect_spared advance.spared.intact w
    refine advance.progress.move (Steps.apart (protect_apart s w)) (advance.progress.extension.trans spared.extension)
      spared.extension.shadow (fun _ live => live) (fun _ _ present => Or.inl present) fun _ _ there => there
  spared := advance.spared.trans (protect_spared advance.spared.intact w)
  complete := fun pair member fresh => (advance.complete pair member fresh).move (List.Subset.refl _) fun _ _ => rfl

theorem Advance.touch {object : Object} (advance : Advance h k v base known copies s) (touched : Touched s t q object) (steps : Steps s t)
    (fresh : ¬ base.Survives q) (member : pair ∈ known) (handle : pair.2.handle? = some q) (other : ∀ text, object ≠ .str text) :
    Advance h k v base known copies t where
  grown := advance.grown
  progress := by
    have made := advance.progress.made pair (advance.grown member)
    refine advance.progress.move steps (touched.extends advance.progress.extension (made.survives handle).2)
      (by rw [touched.roots.shadow]; exact List.Subset.refl _) ?_ ?_ ?_
    · intro r live
      by_cases same : r = q
      · rw [same,isLive,touched.here]
        rfl
      · rw [isLive,touched.others r same]
        exact live
    · intro r there present
      by_cases same : r = q
      · exact Or.inr ⟨pair,advance.grown member,same ▸ handle⟩
      · rw [touched.others r same] at present
        exact Or.inl present
    · intro r text there
      by_cases same : r = q
      · rw [same,touched.here] at there
        exact absurd (Option.some.inj there) (other text)
      · rwa [touched.others r same] at there
  spared := advance.spared.touch touched fresh steps
  complete := by
    intro copy listed unknown
    have apart : copy.2.handle? ≠ some q := by
      intro same
      have equal := List.inj_on_of_nodup_map advance.progress.targets listed (advance.grown member) (same.trans handle.symm)
      exact unknown (equal ▸ member)
    exact (advance.complete copy listed unknown).move (List.Subset.refl _) fun p there => touched.others p fun same => apart (same ▸ there)

theorem live_bounded (h : Heap) {handles : List Handle} (once : handles.Nodup) (live : ∀ r ∈ handles, h.isLive r = true) : handles.length ≤ h.slots.size := by
  have apart : (handles.map Handle.index).Nodup := by
    refine once.map_on fun a left b right same => ?_
    have first := live a left
    have second := live b right
    rw [isLive_holds] at first second
    exact Marking.holds_unique first second same
  have bounded : handles.map Handle.index ⊆ List.range h.slots.size := by
    intro i member
    obtain ⟨r,listed,rfl⟩ := List.mem_map.mp member
    have there := live r listed
    rw [isLive_holds] at there
    exact List.mem_range.mpr (Marking.holds_inside there)
  have length := (List.subperm_of_subset apart bounded).length_le
  rwa [List.length_map,List.length_range] at length

-- Copies of containers that are there.
def standing (h : Heap) (copies : Copies) : Nat := copies.countP fun pair => h.isLive pair.1

theorem Progress.standing_le (progress : Progress h k v copies s) : h.standing copies ≤ h.slots.size := by
  have bounded := live_bounded h (progress.sources.sublist ((List.filter_sublist (p := fun pair => h.isLive pair.1)).map Prod.fst)) fun r member => ?_
  · rwa [List.length_map,← List.countP_eq_length_filter] at bounded
  · obtain ⟨pair,listed,rfl⟩ := List.mem_map.mp member
    exact (List.mem_filter.mp listed).2

theorem Advance.standing_mono (advance : Advance h k v base known copies s) (progress : Progress h k v known base') :
    h.standing known ≤ h.standing copies :=
  (List.subperm_of_subset progress.sources.of_map advance.grown).countP_le _

-- What copying a value promises, with enough levels left for the containers that are not copied yet.
def Clones (h k : Heap) (v : Value) (levels : Nat) : Prop :=
  ∀ a copies s b copies' t, Inside h v a → Progress h k v copies s → h.slots.size + 2 ≤ levels + h.standing copies →
    copyDeep levels a copies s = .ok (b,copies') t → Steps t k → Advance h k v s copies copies' t ∧ Twin copies' a b

theorem Advance.here (advance : Advance h k v base known copies s) (member : pair ∈ known) (handle : pair.2.handle? = some q)
    (spared : Spared s t) : t.object? q = s.object? q :=
  spared.extension.objects q ((advance.progress.made pair (advance.grown member)).survives handle).1

theorem copyItems_advances (clones : Clones h k v levels) {items earlier : List Value} {list : ListObject}
    (inside : ∀ item ∈ items, Inside h v item) (advance : Advance h k v base known copies s) (member : (r,.list q) ∈ known)
    (fresh : ¬ base.Survives q) (present : s.object? q = some (.list list)) (open_ : list.frozen = false)
    (filled : List.Forall₂ (Twin copies) earlier list.items.toList)
    (enough : items ≠ [] → h.slots.size + 2 ≤ levels + h.standing copies)
    (done : copyItems (copyDeep levels) (.list q) items copies s = .ok copies' t) (later : Steps t k) :
    Advance h k v base known copies' t ∧ ∃ list', t.object? q = some (.list list') ∧ list'.frozen = false ∧
      List.Forall₂ (Twin copies') (earlier ++ items) list'.items.toList := by
  induction items generalizing copies s earlier list with
  | nil =>
      cases done
      exact ⟨advance,list,present,open_,by rwa [List.append_nil]⟩
  | cons item rest ih =>
      obtain ⟨⟨copy,copies₁⟩,s₁,copied,done⟩ := bind_ok done
      obtain ⟨_,s₂,pushed,done⟩ := bind_ok done
      have bare := (copyDeep_keeps levels item copies advance.progress.bare _ _ _ copied).2
      have filling := Does.forward (copyItems_acts (copyDeep_keeps levels) (copyDeep_acts levels) _ rest bare) done
      have pushing := Does.forward (updateList_acts _ _) pushed
      obtain ⟨moved,twin⟩ := clones item copies s copy copies₁ s₁ (inside item List.mem_cons_self) advance.progress
        (enough (List.cons_ne_nil _ _)) copied ((pushing.trans filling).trans later)
      have there := (advance.here member rfl moved.spared).trans present
      obtain ⟨_,result,touched,steps⟩ := updateList_result (·.push copy) there open_
      cases result.symm.trans pushed
      have next := (advance.trans moved).touch touched steps fresh member rfl fun _ impossible => by cases impossible
      have added : List.Forall₂ (Twin copies₁) (earlier ++ [item]) (list.push copy).items.toList := by
        rw [ListObject.push,Array.toList_push]
        exact List.rel_append (filled.imp fun _ _ old => old.mono moved.grown) (.cons twin .nil)
      have room := enough (List.cons_ne_nil _ _)
      have more := moved.standing_mono advance.progress
      obtain ⟨whole,list',last,still,items⟩ := ih (fun other later => inside other (List.mem_cons_of_mem _ later)) next touched.here open_
        added (fun _ => by omega) done
      exact ⟨whole,list',last,still,by rwa [List.append_assoc] at items⟩

theorem copyDeep_scalar (source : Source h k v) (progress : Progress h k v copies s) (inside : Inside h v a) (scalar : a.isContainer = false)
    (levels : Nat) : copyDeep levels a copies = pure (a,copies) := by
  have absent : ∀ r, a.handle? = some r → copies.lookup r = none := by
    intro r handle
    rw [Option.eq_none_iff_forall_ne_some]
    intro copy found
    obtain ⟨b,_,within,counterpart,_⟩ := (progress.made _ (lookup_mem found)).known
    have same := source.typed a b r inside within handle counterpart.handles.1
    rw [same,counterpart.container.1] at scalar
    cases scalar
  cases a with
  | list | map => cases scalar
  | null | int | double | short => exact copyDeep_plain levels copies rfl
  | str r | funcRef r =>
      cases levels with
      | zero => exact copyDeep_zero _ copies
      | succ levels =>
          rw [copyDeep_leaf (r := r) levels copies (by simp),absent r rfl]
          rfl

theorem MapCopy.entered (filled : MapCopy h v s q table) (source : Source h k v) (progress : Progress h k v copies s) (inside : Inside h v a)
    (scalar : a.isContainer = false) (absent : ∀ entry ∈ Table.contents table.cells, h.keyOf entry.key ≠ h.keyOf a) (b : Value) :
    ∃ table', MapCopy h v (s.store q a b) q table' ∧ Touched s (s.store q a b) q (.map table') ∧
      (Table.contents table'.cells).Perm ({ key := a,value := b,hash := s.hash a } :: Table.contents table.cells) := by
  have here : Rows s (Table.contents table.cells) := filled.rows.carry fun entry member => progress.keyOf source (filled.keys entry member)
  have missing : (table.find? (s.hash a) fun k => s.sameKey k a) = none := by
    have found := here.find filled.valid scalar
    cases result : table.find? (s.hash a) fun k => s.sameKey k a with
    | none => rfl
    | some i =>
        rw [result] at found
        obtain ⟨entry,present,same⟩ := found
        have member := Table.mem_contents.mpr ⟨i,present⟩
        rw [progress.keyOf source (filled.keys entry member),progress.keyOf source inside] at same
        exact absurd same (absent entry member)
  have touched := store_touched a b filled.object
  simp only [Heap.stored,missing] at touched
  obtain ⟨_,_,frozen,aliases⟩ := Table.insertNew_parts { key := a,value := b,hash := s.hash a } filled.valid
  have listed := Table.insertNew_contents { key := a,value := b,hash := s.hash a } filled.valid
  refine ⟨_,⟨touched.here,Table.insertNew_valid _ filled.valid,frozen.trans filled.writable,aliases.trans filled.plain,?_,?_⟩,touched,listed⟩
  · intro entry member
    rcases List.mem_cons.mp (listed.mem_iff.mp member) with rfl | older
    · exact inside
    · exact filled.keys entry older
  · exact (filled.rows.cons scalar (hash_scalar scalar scalar (progress.keyOf source inside)) absent).perm listed.symm

theorem copyEntries_advances (source : Source h k v) (clones : Clones h k v levels) {entries : List (Value × Value)}
    (inside : ∀ entry ∈ entries, Inside h v entry.1 ∧ Inside h v entry.2) (scalar : ∀ entry ∈ entries, entry.1.isContainer = false)
    (once : (entries.map fun entry => h.keyOf entry.1).Nodup) (advance : Advance h k v base known copies s) (member : (r,.map q) ∈ known)
    (fresh : ¬ base.Survives q) (filled : MapCopy h v s q table)
    (absent : ∀ entry ∈ entries, ∀ row ∈ Table.contents table.cells, h.keyOf row.key ≠ h.keyOf entry.1)
    (enough : entries ≠ [] → h.slots.size + 2 ≤ levels + h.standing copies)
    (done : copyEntries (copyDeep levels) (.map q) entries copies s = .ok copies' t) (later : Steps t k) :
    Advance h k v base known copies' t ∧ copies ⊆ copies' ∧ ∃ table', MapCopy h v t q table' ∧ ∃ added,
      List.Forall₂ (fun entry copy => copy.1 = entry.1 ∧ Twin copies' entry.2 copy.2) entries added ∧
        (t.mapEntries (.map q)).Perm (s.mapEntries (.map q) ++ added) := by
  induction entries generalizing copies s table with
  | nil =>
      cases done
      exact ⟨advance,List.Subset.refl _,table,filled,[],.nil,by rw [List.append_nil]⟩
  | cons entry rest ih =>
      obtain ⟨key,value⟩ := entry
      obtain ⟨withinKey,withinValue⟩ := inside _ List.mem_cons_self
      have plainKey : key.isContainer = false := scalar _ List.mem_cons_self
      rw [copyEntries,copyDeep_scalar source advance.progress withinKey plainKey] at done
      obtain ⟨⟨copy,copies₁⟩,s₁,copied,done⟩ := bind_ok (s := s.protect key) done
      obtain ⟨_,s₂,stored,done⟩ := bind_ok done
      have guarded := advance.protect key
      have bare := (copyDeep_keeps levels value copies guarded.progress.bare _ _ _ copied).2
      have filling := Does.forward (copyEntries_acts (copyDeep_keeps levels) (copyDeep_acts levels) (fun entry _ => entry.1.named_all)
        (fun _ _ => trivial) bare) done
      have storing := Does.forward (mapSet_acts copy key.named_all fun _ _ => trivial) stored
      obtain ⟨moved,twin⟩ := clones value copies _ copy copies₁ s₁ withinValue guarded.progress (enough (List.cons_ne_nil _ _)) copied
        ((storing.trans filling).trans later)
      have there := (guarded.here member rfl moved.spared).trans filled.object
      have still : MapCopy h v s₁ q table := filled.move there
      have set : mapSet (.map q) key copy s₁ = .ok () (s₁.store q key copy) := mapSet_plain still.object still.writable still.plain
      cases set.symm.trans stored
      obtain ⟨table',entered,touched,listed⟩ := still.entered source moved.progress withinKey plainKey (absent _ List.mem_cons_self) copy
      have next := (guarded.trans moved).touch touched storing fresh member rfl fun _ impossible => by cases impossible
      have room := enough (List.cons_ne_nil _ _)
      have more := moved.standing_mono guarded.progress
      obtain ⟨first,others⟩ := List.nodup_cons.mp once
      have unbound : ∀ other ∈ rest, ∀ row ∈ Table.contents table'.cells, h.keyOf row.key ≠ h.keyOf other.1 := by
        intro other within row present
        rcases List.mem_cons.mp (listed.mem_iff.mp present) with rfl | older
        · exact fun same => first (List.mem_map.mpr ⟨other,within,same.symm⟩)
        · exact absent other (List.mem_cons_of_mem _ within) row older
      obtain ⟨whole,later_,table'',final,added,pairs,perm⟩ := ih (fun other within => inside other (List.mem_cons_of_mem _ within))
        (fun other within => scalar other (List.mem_cons_of_mem _ within)) others next entered unbound (fun _ => by omega) done
      refine ⟨whole,List.Subset.trans moved.grown later_,table'',final,(key,copy) :: added,.cons ⟨rfl,twin.mono later_⟩ pairs,?_⟩
      have pairs : ((s₁.store q key copy).mapEntries (.map q)).Perm ((key,copy) :: s.mapEntries (.map q)) := by
        rw [mapEntries_plain entered.object entered.plain,mapEntries_plain filled.object filled.plain]
        exact listed.map _
      exact (perm.trans (pairs.append_right added)).trans List.perm_middle.symm

theorem items_inside {h : Heap} (inside : Inside h v (.list r)) : ∀ item ∈ ((h.items? (.list r)).getD #[]).toList, Inside h v item :=
  fun _ member => .part inside member

theorem entries_inside {h : Heap} (inside : Inside h v (.map r)) : ∀ entry ∈ h.mapEntries (.map r), Inside h v entry.1 ∧ Inside h v entry.2 :=
  fun _ member => ⟨.part inside (List.mem_flatMap.mpr ⟨_,member,by simp⟩),.part inside (List.mem_flatMap.mpr ⟨_,member,by simp⟩)⟩

-- What is not there has no contents, so its copy takes no further level.
theorem items_live {h : Heap} (contents : ((h.items? (.list r)).getD #[]).toList ≠ []) : h.isLive r = true := by
  cases present : h.object? r with
  | none => simp [items?,list?,present] at contents
  | some object => rw [isLive,present]; rfl

theorem entries_live {h : Heap} (contents : h.mapEntries (.map r) ≠ []) : h.isLive r = true := by
  cases present : h.object? r with
  | none => simp [mapEntries,table?,present] at contents
  | some object => rw [isLive,present]; rfl

theorem standing_cons {h : Heap} (live : h.isLive r = true) : h.standing ((r,out) :: copies) = h.standing copies + 1 := by
  simp [standing,live]

theorem Advance.close (advance : Advance h k v base ((r,out) :: copies) copies' t) (complete : Complete h v copies' t r out) :
    Advance h k v base copies copies' t where
  grown := fun _ member => advance.grown (List.mem_cons_of_mem _ member)
  progress := advance.progress
  spared := advance.spared
  complete := by
    intro pair member fresh
    by_cases same : pair = (r,out)
    · rw [same]
      exact complete
    · refine advance.complete pair member fun known => ?_
      rcases List.mem_cons.mp known with itself | older
      · exact same itself
      · exact fresh older

theorem copyDeep_clones (source : Source h k v) (levels : Nat) : Clones h k v levels := by
  induction levels with
  | zero =>
      intro a copies s b copies' t _ progress enough
      have bound := progress.standing_le
      omega
  | succ levels ih =>
      intro a copies s b copies' t inside progress enough done later
      have bound := progress.standing_le
      have intact := progress.steps.intact source.intact
      cases a with
      | list r =>
          rw [copyDeep_list] at done
          cases found : copies.lookup r with
          | some copy =>
              rw [found] at done
              cases done
              exact ⟨.refl progress (.refl intact),.list (lookup_mem found)⟩
          | none =>
              rw [found] at done
              obtain ⟨_,_,got,done⟩ := bind_ok done
              cases got
              obtain ⟨_,s₁,made,done⟩ := bind_ok done
              obtain ⟨q,allocated,rfl⟩ := map_ok made
              obtain ⟨copies₁,s₂,filled,done⟩ := bind_ok (s := s₁.protect (.list q)) done
              cases done
              have filling := Does.forward (copyItems_acts (copyDeep_keeps levels) (copyDeep_acts levels) _ _ (progress.bare.cons rfl)) filled
              have onward := ((Steps.apart (protect_apart s₁ _)).trans filling).trans later
              obtain ⟨entered,spared,present,fresh⟩ := progress.allocate source (sane_list _) (by simp) allocated onward inside .list found
              have allocating : Steps s s₁ := Does.forward (allocate_acts .list) allocated
              rw [source.items progress.steps progress.extension (allocating.trans onward) inside] at filled
              obtain ⟨whole,list,last,open_,items⟩ := copyItems_advances ih (items_inside inside) (.refl entered spared)
                List.mem_cons_self fresh present rfl .nil (fun some_ => by rw [standing_cons (items_live some_)]; omega) filled later
              exact ⟨whole.close (.list last open_ items),.list (whole.grown List.mem_cons_self)⟩
      | map r =>
          rw [copyDeep_map] at done
          cases found : copies.lookup r with
          | some copy =>
              rw [found] at done
              cases done
              exact ⟨.refl progress (.refl intact),.map (lookup_mem found)⟩
          | none =>
              rw [found] at done
              obtain ⟨_,_,got,done⟩ := bind_ok done
              cases got
              obtain ⟨_,s₁,made,done⟩ := bind_ok done
              obtain ⟨q,allocated,rfl⟩ := map_ok made
              obtain ⟨copies₁,s₂,filled,done⟩ := bind_ok (s := s₁.protect (.map q)) done
              cases done
              have filling := Does.forward (copyEntries_acts (copyDeep_keeps levels) (copyDeep_acts levels) (fun entry _ => entry.1.named_all)
                (fun _ _ => trivial) (progress.bare.cons rfl)) filled
              have onward := ((Steps.apart (protect_apart s₁ _)).trans filling).trans later
              obtain ⟨entered,spared,present,fresh⟩ := progress.allocate source (sane_map (Table.withCapacity_valid _)) nofun allocated onward inside .map found
              have allocating : Steps s s₁ := Does.forward (allocate_acts .map) allocated
              rw [source.entries progress.steps progress.extension (allocating.trans onward) inside] at filled present
              have reads := source.reads inside
              obtain ⟨whole,_,table,last,added,pairs,perm⟩ := copyEntries_advances source ih (entries_inside inside) reads.scalar reads.once
                (.refl entered spared) List.mem_cons_self fresh (.blank present) (by simp [Table.withCapacity])
                (fun some_ => by rw [standing_cons (entries_live some_)]; omega) filled later
              refine ⟨whole.close (.map last pairs ?_),.map (whole.grown List.mem_cons_self)⟩
              have empty : (s₁.protect (.map q)).mapEntries (.map q) = [] :=
                (mapEntries_plain (h := s₁.protect (.map q)) present rfl).trans (by simp [Table.withCapacity])
              rwa [empty] at perm
      | null | int | double | short | str | funcRef =>
          rw [copyDeep_scalar source progress inside rfl] at done
          cases done
          exact ⟨.refl progress (.refl intact),.scalar rfl⟩

end Heap

end RegisterMachine
