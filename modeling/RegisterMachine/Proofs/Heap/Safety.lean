import RegisterMachine.Proofs.Heap.Objects

namespace RegisterMachine

-- The kind of object behind a value.
inductive Object.Fits : Object → Value → Prop where
  | str : Fits (.str text) (.str r)
  | list : Fits (.list items) (.list r)
  | map : Fits (.map table) (.map r)
  | funcRef : Fits (.funcRef ref) (.funcRef r)

theorem Object.Rewritten.fits (rewritten : Object.Rewritten before after) (fits : before.Fits v) : after.Fits v := by
  cases rewritten with
  | str => exact fits
  | list => cases fits; exact .list
  | map => cases fits; exact .map
  | funcRef => exact fits

namespace Heap

-- A value without a handle, or one whose handle leads to a live object of its kind.
def Sound (h : Heap) (v : Value) : Prop :=
  ∀ r, v.handle? = some r → ∃ object, h.object? r = some object ∧ object.Fits v

structure Safe (h : Heap) : Prop extends Intact h where
  rooted : ∀ v, h.IsRoot v → h.Sound v
  closed : ∀ r object v, h.object? r = some object → object.Refers v → h.Sound v
  opened : h.scopes.headD 0 ≤ h.shadow.length

-- A sound value whose object no collection frees as long as the roots stay.
def Kept (h : Heap) (v : Value) : Prop :=
  h.Sound v ∧ ∀ r, v.handle? = some r → h.Survives r

theorem sound_plain (h : Heap) (plain : v.handle? = none) : h.Sound v := by
  intro r handle
  rw [plain] at handle
  cases handle

theorem kept_plain (h : Heap) (plain : v.handle? = none) : h.Kept v := by
  refine ⟨sound_plain h plain,?_⟩
  intro r handle
  rw [plain] at handle
  cases handle

theorem Sound.list {h : Heap} (sound : h.Sound (.list r)) : ∃ list, h.object? r = some (.list list) := by
  obtain ⟨object,present,fits⟩ := sound r rfl
  cases fits
  exact ⟨_,present⟩

theorem Sound.map {h : Heap} (sound : h.Sound (.map r)) : ∃ table, h.object? r = some (.map table) := by
  obtain ⟨object,present,fits⟩ := sound r rfl
  cases fits
  exact ⟨_,present⟩

theorem Sound.move {h h' : Heap} (sound : h.Sound v) (same : ∀ r, h'.object? r = h.object? r) : h'.Sound v := by
  intro r handle
  obtain ⟨object,present,fits⟩ := sound r handle
  exact ⟨object,by rw [same]; exact present,fits⟩

theorem Sound.live {h : Heap} (sound : h.Sound v) (handle : v.handle? = some r) : h.isLive r = true := by
  obtain ⟨object,present,_⟩ := sound r handle
  rw [isLive,present]
  rfl

theorem Safe.root_kept {h : Heap} (safe : h.Safe) (root : h.IsRoot v) : h.Kept v :=
  ⟨safe.rooted v root,fun _ handle => Or.inr (.root root handle ((safe.rooted v root).live handle))⟩

-- An immortal object is a text and refers to nothing, so survivors refer to survivors.
theorem refers_survives {h : Heap} {object : Object} (intact : h.Intact) (survives : h.Survives r) (present : h.object? r = some object)
    (refers : object.Refers v) (handle : v.handle? = some q) (live : h.isLive q = true) : h.Survives q := by
  rcases survives with ⟨slot,found,_,immortal⟩ | reached
  · obtain ⟨text,content⟩ := intact.eternal _ slot found immortal
    obtain ⟨other,same,_,held⟩ := object?_slot.mp present
    rw [found] at same
    cases same
    rw [content] at held
    cases held
    cases refers
  · exact Or.inr (.refers reached present refers handle live)

theorem Safe.refers_kept {h : Heap} {object : Object} (safe : h.Safe) (survives : h.Survives r)
    (present : h.object? r = some object) (refers : object.Refers v) : h.Kept v := by
  have sound := safe.closed r object v present refers
  exact ⟨sound,fun q handle => refers_survives safe.toIntact survives present refers handle (sound.live handle)⟩

-- A later heap: more protected values, the other roots as before, and every survivor as it was.
structure Extends (h h' : Heap) : Prop where
  registers : h'.registers = h.registers
  roots : h'.roots = h.roots
  freeRoots : h'.freeRoots = h.freeRoots
  callbacks : h'.callbacks = h.callbacks
  shadow : h.shadow ⊆ h'.shadow
  objects : ∀ r, h.Survives r → h'.object? r = h.object? r
  immortal : ∀ r, h.Immortal r → h'.Immortal r

-- Scopes and protected values, with what was protected since.
structure Nested (h h' : Heap) : Prop where
  scopes : h'.scopes = h.scopes
  shadow : h.shadow <:+ h'.shadow

structure Balanced (h h' : Heap) : Prop where
  scopes : h'.scopes = h.scopes
  shadow : h'.shadow = h.shadow

theorem Extends.refl (h : Heap) : Extends h h :=
  ⟨rfl,rfl,rfl,rfl,fun _ member => member,fun _ _ => rfl,fun _ immortal => immortal⟩

theorem IsRoot.widen {h h' : Heap} (root : h.IsRoot v) (shadow : h.shadow ⊆ h'.shadow)
    (roots : ∀ w, some w ∈ h.roots → some w ∈ h'.roots) (registers : ∀ register ∈ h.registers, register ∈ h'.registers)
    (callbacks : h'.callbacks = h.callbacks) : h'.IsRoot v := by
  cases root with
  | shadow member => exact .shadow (shadow member)
  | persistent member => exact .persistent (roots _ member)
  | register member => exact .register (registers _ member)
  | name member => exact .name (registers _ member)
  | callback member marked => exact .callback (callbacks ▸ member) marked

theorem Extends.isRoot (extension : Extends h h') (root : h.IsRoot v) : h'.IsRoot v :=
  root.widen extension.shadow (fun _ member => extension.roots ▸ member) (fun _ member => extension.registers ▸ member)
    extension.callbacks

theorem Extends.reached (extension : Extends h h') (reached : h.Reached r) : h'.Reached r := by
  induction reached with
  | @root v r root handle live =>
      refine .root (extension.isRoot root) handle ?_
      rw [isLive,extension.objects r (Or.inr (.root root handle live))]
      exact live
  | @refers q object v r before present refers handle live ih =>
      refine .refers ih (show h'.object? q = some object from ?_) refers handle ?_
      · rw [extension.objects q (Or.inr before)]
        exact present
      · rw [isLive,extension.objects r (Or.inr (.refers before present refers handle live))]
        exact live

theorem Extends.survives (extension : Extends h h') (survives : h.Survives r) : h'.Survives r :=
  survives.imp (extension.immortal r) extension.reached

theorem Extends.kept (extension : Extends h h') (kept : h.Kept v) : h'.Kept v := by
  refine ⟨fun r handle => ?_,fun r handle => extension.survives (kept.2 r handle)⟩
  rw [extension.objects r (kept.2 r handle)]
  exact kept.1 r handle

theorem Extends.trans (first : Extends h h') (second : Extends h' h'') : Extends h h'' where
  registers := second.registers.trans first.registers
  roots := second.roots.trans first.roots
  freeRoots := second.freeRoots.trans first.freeRoots
  callbacks := second.callbacks.trans first.callbacks
  shadow := List.Subset.trans first.shadow second.shadow
  objects := fun r survives => (second.objects r (first.survives survives)).trans (first.objects r survives)
  immortal := fun r immortal => second.immortal r (first.immortal r immortal)

theorem Extends.fresh (extension : Extends h h') (fresh : ¬ h'.Survives r) : ¬ h.Survives r :=
  fun survives => fresh (extension.survives survives)

theorem Nested.refl (h : Heap) : Nested h h := ⟨rfl,List.suffix_refl _⟩

theorem Nested.trans (first : Nested h h') (second : Nested h' h'') : Nested h h'' :=
  ⟨second.scopes.trans first.scopes,first.shadow.trans second.shadow⟩

theorem Balanced.nested (balanced : Balanced h h') : Nested h h' :=
  ⟨balanced.scopes,balanced.shadow ▸ List.suffix_refl _⟩

theorem Balanced.refl (h : Heap) : Balanced h h := ⟨rfl,rfl⟩

theorem Balanced.trans (first : Balanced h h') (second : Balanced h' h'') : Balanced h h'' :=
  ⟨second.scopes.trans first.scopes,second.shadow.trans first.shadow⟩

theorem Safe.reroot {h h' : Heap} (safe : h.Safe) (apart : Apart h h') (roots : ∀ v, h'.IsRoot v → h.Sound v)
    (opened : h'.scopes.headD 0 ≤ h'.shadow.length) : h'.Safe := by
  have objects := object?_slots apart.slots
  refine ⟨(Step.apart apart).intact safe.toIntact,fun v root => (roots v root).move objects,?_,opened⟩
  intro r object v present refers
  rw [objects] at present
  exact (safe.closed r object v present refers).move objects

theorem collect_roots (h : Heap) : SameRoots h h.collect.2 := by
  by_cases enabled : h.disabled = 0
  · rw [collect_enabled enabled]
    exact ⟨rfl,rfl,rfl,rfl,rfl,rfl⟩
  · rw [collect_disabled enabled]
    exact .refl h

theorem SameRoots.isRoot (same : SameRoots h h') : h'.IsRoot v ↔ h.IsRoot v := by
  rw [← mem_rootValues,← mem_rootValues,rootValues,rootValues,same.shadow,same.roots,same.registers,same.callbacks]

theorem Swept.roots {h h' : Heap} (swept : Swept h h') : SameRoots h h' := by
  induction swept with
  | refl => exact .refl h
  | @tail s _ _ last ih =>
      subst last
      exact ih.trans s.collect_roots

theorem Swept.rooted {h h' : Heap} {object : Object} (swept : Swept h h') (intact : h.Intact) (root : h.IsRoot v) (handle : v.handle? = some r)
    (present : h.object? r = some object) : h'.object? r = some object := by
  induction swept with
  | refl => exact present
  | @tail s _ before last ih =>
      subst last
      by_cases enabled : s.disabled = 0
      · have live : s.isLive r = true := by rw [isLive,ih]; rfl
        have reached : s.Reached r := .root ((Swept.roots before).isRoot.mpr root) handle live
        exact (collect_object ((Swept.steps before).intact intact).toClean enabled).mpr ⟨ih,Or.inr reached⟩
      · rw [collect_disabled enabled]
        exact ih

theorem SameRoots.balanced (same : SameRoots h h') : Balanced h h' := ⟨same.scopes,same.shadow⟩

theorem collect_immortal {h : Heap} (immortal : h.Immortal r) : h.collect.2.Immortal r := by
  by_cases enabled : h.disabled = 0
  · obtain ⟨slot,present,generation,set⟩ := immortal
    rw [collect_enabled enabled]
    refine ⟨slot,?_,generation,set⟩
    rw [sweep_slot,show h.mark.slots[r.index]? = some slot from present,Option.map_some]
    simp [dies,set]
  · rw [collect_disabled enabled]
    exact immortal

theorem SameRoots.extends (same : SameRoots h h') (objects : ∀ r, h.Survives r → h'.object? r = h.object? r)
    (immortal : ∀ r, h.Immortal r → h'.Immortal r) : Extends h h' :=
  ⟨same.registers,same.roots,same.freeRoots,same.callbacks,fun _ member => same.shadow ▸ member,objects,immortal⟩

theorem collect_extends {h : Heap} (intact : h.Intact) : Extends h h.collect.2 := by
  by_cases enabled : h.disabled = 0
  · refine h.collect_roots.extends ?_ fun r => collect_immortal
    intro r survives
    cases present : h.object? r with
    | some object => exact (collect_object intact.toClean enabled).mpr ⟨present,survives⟩
    | none =>
        cases after : h.collect.2.object? r with
        | none => rfl
        | some object =>
            have before := ((collect_object intact.toClean enabled).mp after).1
            rw [present] at before
            cases before
  · rw [collect_disabled enabled]
    exact .refl h

theorem collect_safe {h : Heap} (safe : h.Safe) : h.collect.2.Safe ∧ Extends h h.collect.2 := by
  have roots := h.collect_roots
  have extension := collect_extends safe.toIntact
  by_cases enabled : h.disabled = 0
  · refine ⟨⟨collect_intact safe.toIntact,?_,?_,by rw [roots.scopes,roots.shadow]; exact safe.opened⟩,extension⟩
    · intro v root
      exact (extension.kept (safe.root_kept (roots.isRoot.mp root))).1
    · intro r object v present refers
      obtain ⟨before,survives⟩ := (collect_object safe.toClean enabled).mp present
      exact (extension.kept (safe.refers_kept survives before refers)).1
  · rw [collect_disabled enabled]
    exact ⟨safe,.refl h⟩

theorem Swept.safe {h h' : Heap} (swept : Swept h h') (safe : h.Safe) : h'.Safe ∧ Extends h h' ∧ Balanced h h' := by
  induction swept with
  | refl => exact ⟨safe,.refl h,.refl h⟩
  | @tail s _ _ last ih =>
      obtain ⟨kept,extension,balanced⟩ := ih
      subst last
      obtain ⟨collected,further⟩ := collect_safe kept
      exact ⟨collected,extension.trans further,balanced.trans s.collect_roots.balanced⟩

theorem Installed.object_cases {object other : Object} (installed : Installed h object charge immortal r h')
    (present : h'.object? q = some other) : (q = r ∧ other = object) ∨ h.object? q = some other := by
  obtain ⟨slot,found,generation,content⟩ := object?_slot.mp present
  rw [installed.slots] at found
  split at found
  · rename_i same
    cases found
    cases content
    obtain ⟨i,g⟩ := q
    obtain ⟨j,g'⟩ := r
    cases same
    cases generation
    exact Or.inl ⟨rfl,rfl⟩
  · exact Or.inr (object?_slot.mpr ⟨slot,found,generation,content⟩)

theorem Installed.kept_object {object other : Object} (installed : Installed h object charge immortal r h')
    (present : h.object? q = some other) : h'.object? q = some other := by
  obtain ⟨slot,found,generation,content⟩ := object?_slot.mp present
  exact object?_slot.mpr ⟨slot,installed.others found (by rw [content]; rfl),generation,content⟩

theorem allocate_roots {h h' : Heap} (made : allocate object h = .ok r h') : SameRoots h h' := by
  obtain ⟨s,swept,⟨_,failed⟩ | ⟨_,done⟩⟩ := allocate_parts object h
  · rw [failed] at made
    cases made
  · rw [done] at made
    cases made
    exact (Swept.roots swept).trans (allocated_roots s object)

theorem allocate_rooted {h h' : Heap} {object other : Object} (intact : h.Intact) (made : allocate object h = .ok r h') (root : h.IsRoot v)
    (handle : v.handle? = some q) (present : h.object? q = some other) : h'.object? q = some other := by
  obtain ⟨s,swept,_,installed⟩ := allocate_ok intact made
  exact installed.kept_object (Swept.rooted swept intact root handle present)

theorem allocate_text {h h' : Heap} {object : Object} (intact : h.Intact) (made : allocate object h = .ok r h') (root : h.IsRoot v)
    (found : h.text? v = some text) : h'.text? v = some text := by
  cases v with
  | str q =>
      simp only [text?] at found ⊢
      split at found
      · rename_i present
        cases found
        simp only [allocate_rooted intact made root rfl present]
      · cases found
  | short => exact found
  | null | int | double | list | map | funcRef => cases found

theorem Installed.sound {object : Object} (installed : Installed h object charge immortal r h') (sound : h.Sound v) :
    h'.Sound v := by
  intro q handle
  obtain ⟨other,present,fits⟩ := sound q handle
  exact ⟨other,installed.kept_object present,fits⟩

theorem survives_object {h : Heap} (intact : h.Intact) (survives : h.Survives r) :
    ∃ object, h.object? r = some object := by
  rcases survives with ⟨slot,present,generation,immortal⟩ | reached
  · obtain ⟨text,content⟩ := intact.eternal _ slot present immortal
    exact ⟨_,object?_slot.mpr ⟨slot,present,generation,content⟩⟩
  · exact Option.isSome_iff_exists.mp reached.live

theorem Installed.fresh {object : Object} (installed : Installed h object charge immortal r h') (intact : h.Intact) :
    ¬ h.Survives r := by
  intro survives
  obtain ⟨other,present⟩ := survives_object intact survives
  obtain ⟨slot,found,_,content⟩ := object?_slot.mp present
  rw [installed.vacant slot found] at content
  cases content

theorem Installed.extends {object : Object} (installed : Installed h object charge immortal r h') (intact : h.Intact)
    (roots : SameRoots h h') : Extends h h' := by
  refine roots.extends ?_ ?_
  · intro q survives
    obtain ⟨other,present⟩ := survives_object intact survives
    rw [installed.kept_object present,present]
  · rintro q ⟨slot,present,generation,set⟩
    obtain ⟨text,content⟩ := intact.eternal _ slot present set
    exact ⟨slot,installed.others present (by rw [content]; rfl),generation,set⟩

theorem Installed.safe {object : Object} (installed : Installed h object charge immortal r h') (safe : h.Safe)
    (intact : h'.Intact) (roots : SameRoots h h') (refs : ∀ v, object.Refers v → h.Sound v) : h'.Safe := by
  refine ⟨intact,fun v root => installed.sound (safe.rooted v (roots.isRoot.mp root)),?_,
    by rw [roots.scopes,roots.shadow]; exact safe.opened⟩
  intro q other v present refers
  rcases installed.object_cases present with ⟨_,rfl⟩ | before
  · exact installed.sound (refs v refers)
  · exact installed.sound (safe.closed q other v before refers)

theorem Touched.sound {old object : Object} (touched : Touched h h' r object) (before : h.object? r = some old)
    (kind : ∀ v, old.Fits v → object.Fits v) (sound : h.Sound v) : h'.Sound v := by
  intro q handle
  obtain ⟨other,present,fits⟩ := sound q handle
  by_cases same : q = r
  · subst q
    rw [before] at present
    cases present
    exact ⟨object,touched.here,kind v fits⟩
  · exact ⟨other,by rw [touched.others q same]; exact present,fits⟩

theorem Touched.safe {old object : Object} (touched : Touched h h' r object) (safe : h.Safe) (intact : h'.Intact)
    (before : h.object? r = some old) (kind : ∀ v, old.Fits v → object.Fits v)
    (refs : ∀ v, object.Refers v → h.Sound v) : h'.Safe := by
  refine ⟨intact,fun v root => touched.sound before kind (safe.rooted v (touched.roots.isRoot.mp root)),?_,
    by rw [touched.roots.scopes,touched.roots.shadow]; exact safe.opened⟩
  intro q other v present refers
  by_cases same : q = r
  · subst q
    rw [touched.here] at present
    cases present
    exact touched.sound before kind (refs v refers)
  · rw [touched.others q same] at present
    exact touched.sound before kind (safe.closed q other v present refers)

-- An object that was made since the start may change without the start noticing.
theorem Touched.extends {object : Object} (touched : Touched h h' r object) (extension : Extends h₀ h) (fresh : ¬ h₀.Survives r) :
    Extends h₀ h' where
  registers := touched.roots.registers.trans extension.registers
  roots := touched.roots.roots.trans extension.roots
  freeRoots := touched.roots.freeRoots.trans extension.freeRoots
  callbacks := touched.roots.callbacks.trans extension.callbacks
  shadow := fun _ member => touched.roots.shadow ▸ extension.shadow member
  objects := by
    intro q survives
    have other : q ≠ r := fun same => fresh (same ▸ survives)
    rw [touched.others q other]
    exact extension.objects q survives
  immortal := fun q immortal => (touched.immortal q).mpr (extension.immortal q immortal)

end Heap

end RegisterMachine
