import RegisterMachine.Proofs.Heap.Cloning

namespace RegisterMachine.Heap

-- Values that are copied faithfully on the way from one heap to another. What is inside the value has
-- the kind of its object, and a handle whose object is gone has one kind as well and was used up in the
-- past. Maps have no aliases, and keys that are no containers, which were there when they were bound or
-- are gone for good.
structure Copyable (h k : Heap) (v : Value) : Prop where
  rooted : h.Rooted v
  fits : ∀ a r object, Inside h v a → a.handle? = some r → h.object? r = some object → object.Fits a
  typed : ∀ a b r, Inside h v a → Inside h v b → a.handle? = some r → b.handle? = some r → a = b
  lasting : ∀ a r, Inside h v a → a.isContainer = true → a.handle? = some r → h.isLive r = true ∨ h.Past r ∧ k.history.size < 2 ^ 32
  plain : ∀ r table, Inside h v (.map r) → h.object? r = some (.map table) →
    table.aliases = none ∧ ∀ entry ∈ table.entries, entry.key.isContainer = false
  bound : (∀ r table, Inside h v (.map r) → h.object? r = some (.map table) → ∀ entry ∈ table.entries, entry.hash ≠ 0) ∨
    Honest h ∧ h.history.size < 2 ^ 32

theorem parts_container {h : Heap} (member : b ∈ h.parts a) : a.isContainer = true := by
  cases a with
  | list | map => rfl
  | null | int | double | short | str | funcRef => cases member

theorem Copyable.kept (copyable : Copyable h k v) (intact : h.Intact) (inside : Inside h v a) (handle : a.handle? = some r)
    (live : h.isLive r = true) : h.Survives r := by
  induction inside generalizing r with
  | self => exact copyable.rooted r handle live
  | @part u b inside member ih =>
      obtain ⟨q,within,content⟩ := parts_contents member
      cases present : h.object? q with
      | none =>
          simp only [contents,present] at content
          cases content
      | some object =>
          have fits := copyable.fits u q object inside within present
          have plain : ∀ table, object = .map table → table.aliases = none := by
            intro table same
            cases same
            cases fits
            cases within
            exact (copyable.plain q table inside present).1
          have refers := contents_refers present plain content
          rcases ih within (by rw [isLive,present]; rfl) with ⟨slot,found,generation,immortal⟩ | reached
          · obtain ⟨text,full⟩ := intact.eternal _ slot found immortal
            rw [object?_slot.mpr ⟨slot,found,generation,full⟩] at present
            cases present
            cases refers
          · exact Or.inr (.refers reached present refers handle live)

theorem Reachable.young (reachable : Reachable h) (few : h.history.size < 2 ^ 32) : h.Young := by
  induction reachable with
  | new config => exact fun _ => Nat.zero_le _
  | @call h call before ih =>
      have steps := call.steps h
      have fewer := steps.fewer before.intact
      exact (steps.past before.intact (ih (by omega)) few).1

theorem Copyable.source (copyable : Copyable h k v) (reachable : Reachable h) (later : Steps h k) : Source h k v where
  intact := reachable.intact
  young := by
    intro few
    have fewer := later.fewer reachable.intact
    exact reachable.young (by omega)
  typed := copyable.typed
  kept := fun a r inside handle live => copyable.kept reachable.intact inside handle live
  lasting := copyable.lasting
  maps := by
    intro r table inside present
    obtain ⟨plain,scalar⟩ := copyable.plain r table inside present
    refine ⟨plain,?_⟩
    rcases copyable.bound with bound | ⟨honest,few⟩
    · exact reachable.rows present (bound r table inside present) scalar
    · exact honest.rows few present scalar

-- The handle of a copy.
def twinOf (copies : Copies) (r : Handle) : Handle := ((copies.lookup r).bind Value.handle?).getD r

-- All copies are complete.
structure Finished (h k : Heap) (v w : Value) (copies : Copies) (s : Heap) : Prop extends Progress h k v copies s where
  source : Source h k v
  complete : ∀ pair ∈ copies, Complete h v copies s pair.1 pair.2
  root : Twin copies v w

theorem Value.clone_scalar {a : Value} (scalar : a.isContainer = false) (twin : Handle → Handle) : a.clone twin = a := by
  cases a with
  | list | map => cases scalar
  | null | int | double | short | str | funcRef => rfl

theorem Finished.counterpart (finished : Finished h k v w copies s) (member : (r,b) ∈ copies) (inside : Inside h v a)
    (handle : a.handle? = some r) : Counterpart r (twinOf copies r) a b := by
  obtain ⟨c,q,within,counterpart,_⟩ := (finished.made _ member).known
  obtain rfl : a = c := finished.source.typed a c r inside within handle counterpart.handles.1
  have target : twinOf copies r = q := by simp [twinOf,finished.toProgress.lookup member,counterpart.handles.2]
  rw [target]
  exact counterpart

theorem Finished.clone (finished : Finished h k v w copies s) (inside : Inside h v a) (twin : Twin copies a b) : b = a.clone (twinOf copies) := by
  cases twin with
  | list member | map member =>
      cases finished.counterpart member inside rfl
      rfl
  | scalar scalar => exact (Value.clone_scalar scalar _).symm

theorem Finished.items (finished : Finished h k v w copies s) {xs ys : List Value} (twins : List.Forall₂ (Twin copies) xs ys)
    (inside : ∀ x ∈ xs, Inside h v x) : ys = xs.map (Value.clone (twinOf copies)) ∧ ∀ x ∈ xs, ∃ y, Twin copies x y := by
  induction twins with
  | nil => exact ⟨rfl,fun _ member => absurd member List.not_mem_nil⟩
  | cons twin _ ih =>
      obtain ⟨same,each⟩ := ih fun x member => inside x (List.mem_cons_of_mem _ member)
      rw [List.map_cons,← same,← finished.clone (inside _ List.mem_cons_self) twin]
      refine ⟨rfl,fun x member => ?_⟩
      rcases List.mem_cons.mp member with rfl | later
      · exact ⟨_,twin⟩
      · exact each x later

theorem Finished.pairs (finished : Finished h k v w copies s) {xs ys : List (Value × Value)}
    (twins : List.Forall₂ (fun entry copy => copy.1 = entry.1 ∧ Twin copies entry.2 copy.2) xs ys) (inside : ∀ x ∈ xs, Inside h v x.2) :
    ys = (xs.map fun entry => (entry.1,entry.2.clone (twinOf copies))) ∧ ∀ x ∈ xs, ∃ y, Twin copies x.2 y := by
  induction twins with
  | nil => exact ⟨rfl,fun _ member => absurd member List.not_mem_nil⟩
  | cons twin _ ih =>
      obtain ⟨same,each⟩ := ih fun x member => inside x (List.mem_cons_of_mem _ member)
      rw [List.map_cons,← same,← finished.clone (inside _ List.mem_cons_self) twin.2,← twin.1]
      refine ⟨rfl,fun x member => ?_⟩
      rcases List.mem_cons.mp member with rfl | later
      · exact ⟨_,twin.2⟩
      · exact each x later

-- Everything inside the value has its copy.
theorem Finished.twin (finished : Finished h k v w copies s) (inside : Inside h v a) : Twin copies a (a.clone (twinOf copies)) := by
  have some_ : ∃ b, Twin copies a b := by
    induction inside with
    | self => exact ⟨w,finished.root⟩
    | @part u b inside member ih =>
        obtain ⟨c,twin⟩ := ih
        cases twin with
        | list listed =>
            cases finished.counterpart listed inside rfl
            cases finished.complete _ listed with
            | list _ _ items => exact (finished.items items (items_inside inside)).2 b member
        | map listed =>
            cases finished.counterpart listed inside rfl
            cases finished.complete _ listed with
            | map _ entries _ =>
                obtain ⟨entry,entered,either⟩ := List.mem_flatMap.mp member
                rcases List.mem_cons.mp either with rfl | last
                · exact ⟨_,.scalar ((finished.source.reads inside).scalar entry entered)⟩
                · rw [List.mem_singleton.mp last]
                  exact (finished.pairs entries fun x within => (entries_inside inside x within).2).2 entry entered
        | scalar scalar =>
            have container := parts_container member
            rw [scalar] at container
            cases container
  obtain ⟨b,twin⟩ := some_
  rw [← finished.clone inside twin]
  exact twin

-- A heap that holds the copies, frozen or not.
structure Image (h : Heap) (v w : Value) (twin : Handle → Handle) (s : Heap) : Prop where
  value : w = v.clone twin
  keys : ∀ r, Inside h v (.map r) → ∀ entry ∈ h.mapEntries (.map r), entry.1.isContainer = false
  lists : ∀ r, Inside h v (.list r) → ∃ list, s.object? (twin r) = some (.list list) ∧
    list.items = ((h.items? (.list r)).getD #[]).map (Value.clone twin)
  maps : ∀ r, Inside h v (.map r) → ∃ table, s.object? (twin r) = some (.map table) ∧ table.Valid ∧ table.aliases = none ∧
    Rows h (Table.contents table.cells) ∧ ((Table.contents table.cells).map fun entry => (entry.key,entry.value)).Perm
      ((h.mapEntries (.map r)).map fun entry => (entry.1,entry.2.clone twin))

theorem Finished.image (finished : Finished h k v w copies s) : Image h v w (twinOf copies) s where
  value := finished.clone .self finished.root
  keys := fun _ inside => (finished.source.reads inside).scalar
  lists := by
    intro r inside
    cases finished.complete _ ((finished.twin inside).listed rfl rfl) with
    | @list _ list present _ items =>
        refine ⟨list,present,?_⟩
        rw [← Array.toList_inj,(finished.items items (items_inside inside)).1,Array.toList_map]
  maps := by
    intro r inside
    cases finished.complete _ ((finished.twin inside).listed rfl rfl) with
    | @map _ table entries filled pairs perm =>
        refine ⟨table,filled.object,filled.valid,filled.plain,filled.rows,?_⟩
        rw [← mapEntries_plain filled.object filled.plain,← (finished.pairs pairs fun x within => (entries_inside inside x within).2).1]
        exact perm

theorem Image.move (image : Image h v w twin s)
    (same : ∀ r object, s.object? r = some object → t.object? r = some object ∨ t.object? r = some (freezeObject object)) : Image h v w twin t where
  value := image.value
  keys := image.keys
  lists := by
    intro r inside
    obtain ⟨list,present,items⟩ := image.lists r inside
    rcases same _ _ present with kept | frozen
    · exact ⟨list,kept,items⟩
    · exact ⟨_,frozen,items⟩
  maps := by
    intro r inside
    obtain ⟨table,present,valid,plain,rows,perm⟩ := image.maps r inside
    rcases same _ _ present with kept | frozen
    · exact ⟨table,kept,valid,plain,rows,perm⟩
    · exact ⟨_,frozen,valid.of_same rfl rfl,plain,rows,perm⟩

theorem Image.parts (image : Image h v w twin s) (inside : Inside h v a) :
    c ∈ s.parts (a.clone twin) ↔ ∃ b ∈ h.parts a, b.clone twin = c := by
  cases a with
  | list r =>
      obtain ⟨list,present,items⟩ := image.lists r inside
      simp only [Value.clone,Heap.parts,items?,list?,present,Option.map_some,Option.getD_some,items,Array.toList_map,List.mem_map]
  | map r =>
      obtain ⟨table,present,_,plain,_,perm⟩ := image.maps r inside
      have keys := image.keys r inside
      rw [← mapEntries_plain present plain] at perm
      change c ∈ s.parts (.map (twin r)) ↔ _
      simp only [Heap.parts,List.mem_flatMap,perm.mem_iff,List.mem_map]
      constructor
      · rintro ⟨_,⟨entry,member,rfl⟩,either⟩
        rcases List.mem_cons.mp either with rfl | last
        · exact ⟨entry.1,⟨entry,member,by simp⟩,Value.clone_scalar (keys entry member) twin⟩
        · exact ⟨entry.2,⟨entry,member,by simp⟩,(List.mem_singleton.mp last).symm⟩
      · rintro ⟨b,⟨entry,member,either⟩,same⟩
        refine ⟨_,⟨entry,member,rfl⟩,?_⟩
        rcases List.mem_cons.mp either with rfl | last
        · rw [← same,Value.clone_scalar (keys entry member)]
          exact List.mem_cons_self
        · rw [← same,List.mem_singleton.mp last]
          simp
  | null | int | double | short | str | funcRef => simp [Value.clone,Heap.parts]

theorem Image.inside (image : Image h v w twin s) : Inside s w c ↔ ∃ a, Inside h v a ∧ a.clone twin = c := by
  constructor
  · intro inside
    induction inside with
    | self => exact ⟨v,.self,image.value.symm⟩
    | part _ member ih =>
        obtain ⟨a,within,rfl⟩ := ih
        obtain ⟨b,part,same⟩ := (image.parts within).mp member
        exact ⟨b,.part within part,same⟩
  · intro ⟨a,inside,same⟩
    subst same
    induction inside with
    | self =>
        rw [← image.value]
        exact .self
    | part within member ih => exact .part ih ((image.parts within).mpr ⟨_,member,rfl⟩)

theorem Inside.contains (inside : Inside s w c) (handle : c.handle? = some q) (live : s.isLive q = true) : Contains s w q := by
  induction inside generalizing q with
  | self => exact .self handle live
  | part _ member ih =>
      obtain ⟨p,within,content⟩ := parts_contents member
      refine .part (ih within ?_) content handle live
      cases present : s.object? p with
      | none =>
          simp only [contents,present] at content
          cases content
      | some object => rw [isLive,present]; rfl

theorem contents_parts {s : Heap} {object : Object} (present : s.object? q = some object) (fits : object.Fits c) (handle : c.handle? = some q) :
    s.contents q = s.parts c := by
  cases fits <;> cases handle <;> simp [contents,parts,items?,list?,present]

theorem Image.fits (image : Image h v w twin s) (inside : Inside h v a) (container : a.isContainer = true) (handle : a.handle? = some r) :
    (a.clone twin).handle? = some (twin r) ∧ ∃ object, s.object? (twin r) = some object ∧ object.Fits (a.clone twin) := by
  cases a with
  | list p =>
      cases handle
      obtain ⟨list,present,_⟩ := image.lists r inside
      exact ⟨rfl,_,present,.list⟩
  | map p =>
      cases handle
      obtain ⟨table,present,_⟩ := image.maps r inside
      exact ⟨rfl,_,present,.map⟩
  | null | int | double | short | str | funcRef => cases container

theorem Finished.reaches (finished : Finished h k v w copies s) (inside : Inside h v a) (handle : (a.clone (twinOf copies)).handle? = some q) :
    (∃ pair ∈ copies, pair.2.handle? = some q) ∨ a.isContainer = false ∧ a.handle? = some q := by
  cases container : a.isContainer with
  | true =>
      have some_ : ∃ r, a.handle? = some r := by
        cases a with
        | list r | map r => exact ⟨r,rfl⟩
        | null | int | double | short | str | funcRef => cases container
      obtain ⟨r,source⟩ := some_
      exact Or.inl ⟨_,(finished.twin inside).listed container source,handle⟩
  | false =>
      rw [Value.clone_scalar container] at handle
      exact Or.inr ⟨rfl,handle⟩

theorem Finished.contained (finished : Finished h k v w copies s)
    (fits : ∀ a r object, Inside h v a → a.handle? = some r → h.object? r = some object → object.Fits a) (contains : Contains s w q) :
    (∃ pair ∈ copies, pair.2.handle? = some q) ∨ ∃ a, Inside h v a ∧ a.isContainer = false ∧ a.handle? = some q := by
  -- A copy leads to copies and to what is no container.
  have onward : ∀ {p q c}, (∃ pair ∈ copies, pair.2.handle? = some p) → c ∈ s.contents p → c.handle? = some q →
      (∃ pair ∈ copies, pair.2.handle? = some q) ∨ ∃ a, Inside h v a ∧ a.isContainer = false ∧ a.handle? = some q := by
    intro p q c copy content target
    obtain ⟨⟨r,out⟩,member,handle⟩ := copy
    obtain ⟨a,_,inside,counterpart,_⟩ := (finished.made _ member).known
    have same := finished.counterpart member inside counterpart.handles.1
    obtain ⟨image,object,present,fits⟩ := finished.image.fits inside counterpart.container.1 counterpart.handles.1
    obtain rfl : twinOf copies r = p := Option.some.inj (same.handles.2.symm.trans handle)
    rw [contents_parts present fits image] at content
    obtain ⟨b,part,rfl⟩ := (finished.image.parts inside).mp content
    rcases finished.reaches (.part inside part) target with copy | scalar
    · exact Or.inl copy
    · exact Or.inr ⟨b,.part inside part,scalar⟩
  induction contains with
  | self handle live =>
      rw [finished.image.value] at handle
      rcases finished.reaches .self handle with copy | scalar
      · exact Or.inl copy
      · exact Or.inr ⟨v,.self,scalar⟩
  | @part p c q within content target _ ih =>
      rcases ih with copy | ⟨a,inside,scalar,handle⟩
      · exact onward copy content target
      · obtain ⟨object,present⟩ := Option.isSome_iff_exists.mp within.live
        rcases finished.older p object present with before | copy
        · rw [contents_parts present (fits a p object inside handle before) handle] at content
          have container := parts_container content
          rw [scalar] at container
          cases container
        · exact onward copy content target

theorem frozenCopy_parts {h : Heap} (intact : h.Intact) (copied : frozenCopy v h = .ok w k) :
    ∃ copies t, copyDeep (h.slots.size + 2) v [] h.pushScope = .ok (w,copies) t ∧
      k = { t.freeze w with scopes := h.scopes,shadow := h.shadow } := by
  obtain ⟨_,_,got,copied⟩ := bind_ok copied
  cases got
  obtain ⟨⟨copy,copies⟩,s,opened,copied⟩ := bind_ok copied
  cases copied
  simp only [inScope] at opened
  cases done : copyDeep (h.slots.size + 2) v [] h.pushScope with
  | error e t =>
      rw [done] at opened
      cases opened
  | ok result t =>
      rw [done] at opened
      cases opened
      have nested := ((copyDeep_spares _ v [] _ (pushScope_intact intact)).ok done).1.nested
      exact ⟨copies,t,rfl,by rw [popScope_nested nested]; rfl⟩

theorem freeze_choice {s : Heap} {object : Object} (w : Value) (present : s.object? r = some object) :
    (s.freeze w).object? r = some object ∨ (s.freeze w).object? r = some (freezeObject object) := by
  rw [freeze_object,present,Option.map_some]
  split
  · exact Or.inr rfl
  · exact Or.inl rfl

-- Freezing the copy changes copies only.
theorem Finished.untouched {object : Object} (finished : Finished h k v w copies s)
    (fits : ∀ a r object, Inside h v a → a.handle? = some r → h.object? r = some object → object.Fits a)
    (present : (s.freeze w).object? r = some object) : h.object? r = some object ∨ ∃ pair ∈ copies, pair.2.handle? = some r := by
  rw [freeze_object] at present
  obtain ⟨old,before,same⟩ := Option.map_eq_some_iff.mp present
  rcases finished.older r old before with first | copy
  · split at same
    · rename_i marked
      have live : s.isLive r = true := by
        rw [isLive,before]
        rfl
      rcases finished.contained fits ((insideOf_contains w live).mp marked) with copy | ⟨a,inside,scalar,handle⟩
      · exact Or.inr copy
      · left
        have kind := fits a r old inside handle first
        cases kind with
        | str | funcRef => exact first.trans (congrArg some same)
        | list | map => cases scalar
    · exact Or.inl (first.trans (congrArg some same))
  · exact Or.inr copy

-- A value and its frozen copy: the copies are new and frozen, each container has its own, and they hold
-- the copies of what the originals hold, in the same places and under the same keys.
structure Cloned (h k : Heap) (v w : Value) (twin : Handle → Handle) : Prop where
  value : w = v.clone twin
  inside : ∀ c, Inside k w c ↔ ∃ a, Inside h v a ∧ a.clone twin = c
  injective : ∀ a b p r, Inside h v a → Inside h v b → a.isContainer = true → b.isContainer = true → a.handle? = some p → b.handle? = some r →
    twin p = twin r → a = b
  fresh : ∀ a r, Inside h v a → a.isContainer = true → a.handle? = some r →
    ¬ h.Survives (twin r) ∧ (k.history.size < 2 ^ 32 → ¬ h.Seen (twin r))
  lists : ∀ r, Inside h v (.list r) → ∃ list, k.object? (twin r) = some (.list list) ∧ list.frozen = true ∧
    list.items = ((h.items? (.list r)).getD #[]).map (Value.clone twin)
  maps : ∀ r, Inside h v (.map r) → ∃ table, k.object? (twin r) = some (.map table) ∧ table.frozen = true ∧ table.aliases = none ∧
    (k.mapEntries (.map (twin r))).Perm ((h.mapEntries (.map r)).map fun entry => (entry.1,entry.2.clone twin)) ∧
    k.mapCount (.map (twin r)) = h.mapCount (.map r) ∧ ∀ key key', key.isContainer = false → key'.isContainer = false →
      k.keyOf key' = h.keyOf key → k.lookup? (.map (twin r)) key' = (h.lookup? (.map r) key).map (Value.clone twin)
  keys : ∀ a, Inside h v a → k.keyOf a = h.keyOf a
  objects : ∀ r, h.Survives r → k.object? r = h.object? r
  others : ∀ r object, k.object? r = some object → h.object? r = some object ∨
    ∃ a q, Inside h v a ∧ a.isContainer = true ∧ a.handle? = some q ∧ twin q = r
  roots : SameRoots h k

theorem Reads.cloned (before : Reads h (.map r)) (after : Reads k (.map q))
    (same : (k.mapEntries (.map q)).Perm ((h.mapEntries (.map r)).map fun pair => (pair.1,pair.2.clone twin)))
    (keys : ∀ pair ∈ h.mapEntries (.map r), k.keyOf pair.1 = h.keyOf pair.1) (scalar : key.isContainer = false)
    (scalar' : key'.isContainer = false) (known : k.keyOf key' = h.keyOf key) :
    k.lookup? (.map q) key' = (h.lookup? (.map r) key).map (Value.clone twin) := by
  refine Option.ext fun value => ?_
  simp only [after.lookup? key' value scalar',Option.map_eq_some_iff,before.lookup? key _ scalar,same.mem_iff,List.mem_map]
  constructor
  · rintro ⟨_,⟨pair,listed,rfl⟩,named,bound⟩
    exact ⟨pair.2,⟨pair,listed,(keys pair listed).symm.trans (named.trans known),rfl⟩,bound⟩
  · rintro ⟨_,⟨pair,listed,named,rfl⟩,bound⟩
    exact ⟨_,⟨pair,listed,rfl⟩,(keys pair listed).trans (named.trans known.symm),bound⟩

theorem Finished.target (finished : Finished h k v w copies s) (member : pair ∈ copies) (handle : pair.2.handle? = some q) :
    ∃ a, Inside h v a ∧ a.isContainer = true ∧ a.handle? = some pair.1 ∧ twinOf copies pair.1 = q := by
  obtain ⟨a,_,inside,counterpart,_⟩ := (finished.made pair member).known
  have same := finished.counterpart member inside counterpart.handles.1
  exact ⟨a,inside,counterpart.container.1,counterpart.handles.1,Option.some.inj (same.handles.2.symm.trans handle)⟩

theorem Finished.fresh (finished : Finished h k v w copies s) (inside : Inside h v a) (container : a.isContainer = true) (handle : a.handle? = some r) :
    ¬ h.Survives (twinOf copies r) ∧ (k.history.size < 2 ^ 32 → ¬ h.Seen (twinOf copies r)) := by
  have member := (finished.twin inside).listed container handle
  obtain ⟨_,q,_,counterpart,_,fresh⟩ := (finished.made _ member).known
  have same := finished.counterpart member inside handle
  obtain rfl : twinOf copies r = q := Option.some.inj (same.handles.2.symm.trans counterpart.handles.2)
  exact fresh

theorem Finished.injective (finished : Finished h k v w copies s) (left : Inside h v a) (right : Inside h v b) (first : a.isContainer = true)
    (second : b.isContainer = true) (handle : a.handle? = some p) (other : b.handle? = some r) (same : twinOf copies p = twinOf copies r) : a = b := by
  have equal := List.inj_on_of_nodup_map finished.targets ((finished.twin left).listed first handle) ((finished.twin right).listed second other) (by
    rw [(finished.image.fits left first handle).1,(finished.image.fits right second other).1,same])
  obtain rfl : p = r := congrArg Prod.fst equal
  exact finished.source.typed a b p left right handle other

theorem Finished.kept (finished : Finished h k v w copies s)
    (fits : ∀ a r object, Inside h v a → a.handle? = some r → h.object? r = some object → object.Fits a) (survives : h.Survives r) :
    (s.freeze w).object? r = h.object? r := by
  obtain ⟨object,before⟩ := survives_object finished.source.intact survives
  have there := (finished.extension.objects r survives).trans before
  have still : ∃ object', (s.freeze w).object? r = some object' := by
    rcases freeze_choice w there with same | frozen
    · exact ⟨_,same⟩
    · exact ⟨_,frozen⟩
  obtain ⟨object',present⟩ := still
  rcases finished.untouched fits present with same | ⟨pair,member,handle⟩
  · rw [present,same]
  · exact absurd survives ((finished.made pair member).survives handle).2

-- Every copy is inside the copy of the value, so freezing reaches it.
theorem Finished.frozen {object : Object} (finished : Finished h k v w copies s) (inside : Inside h v a) (container : a.isContainer = true)
    (handle : a.handle? = some r) (present : s.object? (twinOf copies r) = some object) :
    (s.freeze w).object? (twinOf copies r) = some (freezeObject object) := by
  have within : Inside s w (a.clone (twinOf copies)) := finished.image.inside.mpr ⟨a,inside,rfl⟩
  have target := (finished.image.fits inside container handle).1
  exact freeze_contained (within.contains target (by rw [isLive,present]; rfl)) present

theorem Image.reads (image : Image h v w twin k) (keys : ∀ a, Inside h v a → k.keyOf a = h.keyOf a) (inside : Inside h v (.map r)) :
    Reads k (.map (twin r)) ∧ (k.mapEntries (.map (twin r))).Perm ((h.mapEntries (.map r)).map fun entry => (entry.1,entry.2.clone twin)) := by
  obtain ⟨table,there,valid,plain,rows,perm⟩ := image.maps r inside
  have same : ∀ entry ∈ Table.contents table.cells, k.keyOf entry.key = h.keyOf entry.key := by
    intro entry member
    obtain ⟨pair,listed,copied⟩ := List.mem_map.mp (perm.mem_iff.mp (List.mem_map_of_mem member))
    have key : pair.1 = entry.key := congrArg Prod.fst copied
    exact key ▸ keys pair.1 (entries_inside inside pair listed).1
  rw [← mapEntries_plain there plain] at perm
  exact ⟨(rows.carry same).reads there valid plain,perm⟩

theorem freeze_keyOf (s : Heap) (w a : Value) : (s.freeze w).keyOf a = s.keyOf a := by
  refine keyOf_texts (fun b => ?_) a
  cases b with
  | str q =>
      refine Option.ext fun text => ?_
      rw [text?_str,text?_str,freeze_object,Option.map_eq_some_iff]
      constructor
      · rintro ⟨object,present,same⟩
        split at same
        · cases object with
          | str => rwa [← same]
          | list | map | funcRef => cases same
        · rwa [← same]
      · exact fun present => ⟨_,present,by split <;> rfl⟩
  | null | int | double | short | list | map | funcRef => rfl

theorem copyDeep_finished (source : Source h k v) (done : copyDeep (h.slots.size + 2) v [] h.pushScope = .ok (w,copies) t) (later : Steps t k) :
    Finished h k v w copies t := by
  have start : Progress h k v [] h.pushScope :=
    ⟨Steps.apart (pushScope_apart h),pushScope_extends h,fun _ member => absurd member List.not_mem_nil,List.nodup_nil,List.nodup_nil,
      fun _ _ present => Or.inl present,fun _ _ there => there⟩
  obtain ⟨advance,root⟩ := copyDeep_clones source _ v [] _ _ _ _ .self start (Nat.le_refl _) done later
  exact ⟨advance.progress,source,fun pair member => advance.complete pair member List.not_mem_nil,root⟩

-- A frozen copy is a clone of the value, whatever collections its making caused.
theorem frozenCopy_cloned {h k : Heap} (reachable : Reachable h) (copyable : Copyable h k v) (copied : frozenCopy v h = .ok w k) :
    ∃ twin, Cloned h k v w twin := by
  have moved : Steps h k := by
    have steps := (Call.frozenCopy v).steps h
    rwa [Call.run,after,copied] at steps
  have source := copyable.source reachable moved
  obtain ⟨copies,t,done,final⟩ := frozenCopy_parts reachable.intact copied
  have later : Steps t k := by
    rw [final]
    exact (freeze_steps t w).trans (Steps.apart (by constructor <;> rfl))
  have finished := copyDeep_finished source done later
  have held : ∀ r, k.object? r = (t.freeze w).object? r := by
    intro r
    rw [final]
    rfl
  have image : Image h v w (twinOf copies) k := finished.image.move fun r object present => by
    rw [held]
    exact freeze_choice w present
  have objects : ∀ r, h.Survives r → k.object? r = h.object? r :=
    fun r survives => (held r).trans (finished.kept copyable.fits survives)
  have keys : ∀ a, Inside h v a → k.keyOf a = h.keyOf a := by
    intro a inside
    rw [keyOf_objects held,freeze_keyOf,finished.toProgress.keyOf source inside]
  refine ⟨twinOf copies,image.value,fun c => image.inside,fun a b p r => finished.injective,fun a r => finished.fresh,?_,?_,keys,objects,?_,?_⟩
  · intro r inside
    obtain ⟨list,present,items⟩ := finished.image.lists r inside
    exact ⟨_,(held _).trans (finished.frozen inside rfl rfl present),rfl,items⟩
  · intro r inside
    obtain ⟨table,present,_,plain,_⟩ := finished.image.maps r inside
    have before := source.reads inside
    obtain ⟨after,perm⟩ := image.reads keys inside
    refine ⟨_,(held _).trans (finished.frozen inside rfl rfl present),rfl,plain,perm,?_,fun key key' scalar scalar' known => ?_⟩
    · rw [before.count,after.count,perm.length_eq,List.length_map]
    · exact before.cloned after perm (fun pair listed => keys pair.1 (entries_inside inside pair listed).1) scalar scalar' known
  · intro r object present
    rw [held] at present
    rcases finished.untouched copyable.fits present with same | ⟨pair,member,handle⟩
    · exact Or.inl same
    · obtain ⟨a,inside,container,source,target⟩ := finished.target member handle
      exact Or.inr ⟨a,pair.1,inside,container,source,target⟩
  · have extension := finished.extension
    rw [final]
    exact ⟨rfl,rfl,extension.roots,extension.freeRoots,extension.callbacks,extension.registers⟩

theorem Honest.copyable {h k : Heap} (honest : Honest h) (few : h.history.size < 2 ^ 32) (rooted : h.Rooted v)
    (sound : ∀ a, Inside h v a → h.Sound a) (plain : ∀ r table, Inside h v (.map r) → h.object? r = some (.map table) →
      table.aliases = none ∧ ∀ entry ∈ table.entries, entry.key.isContainer = false) : Copyable h k v where
  rooted := rooted
  fits := by
    intro a r object inside handle present
    obtain ⟨other,there,fits⟩ := sound a inside r handle
    rw [present] at there
    cases there
    exact fits
  typed := by
    intro a b r left right first second
    obtain ⟨object,there,fits⟩ := sound a left r first
    obtain ⟨other,again,fits'⟩ := sound b right r second
    rw [there] at again
    cases again
    -- The object has one kind, and so have the two values.
    cases fits with
    | str | list | map | funcRef =>
        cases fits'
        cases first
        cases second
        rfl
  lasting := fun a r inside _ handle => Or.inl ((sound a inside).live handle)
  plain := plain
  bound := Or.inr ⟨honest,few⟩

theorem SimpleKeys.plain (simple : SimpleKeys h) (present : h.object? r = some (.map table)) :
    table.aliases = none ∧ ∀ entry ∈ table.entries, entry.key.isContainer = false := by
  obtain ⟨plain,scalars⟩ := simple r table present
  refine ⟨plain,fun entry member => ?_⟩
  obtain ⟨list,map⟩ := scalars entry member
  exact Bool.or_eq_false_iff.mpr ⟨list,map⟩

def result? (operation : HeapM α) (h : Heap) : Option α :=
  match operation h with
  | .ok a _ => some a
  | .error _ _ => none

theorem result?_ok {operation : HeapM α} (given : result? operation h = some a) : operation h = .ok a (after operation h) := by
  unfold result? at given
  cases result : operation h with
  | ok b s =>
      rw [result] at given
      cases given
      rw [after,result]
  | error e s =>
      rw [result] at given
      cases given

-- A list that holds itself and a map twice, copied while every allocation collects.
theorem frozenCopy_cloned_cycle :
    ∃ h k : Heap, ∃ w, h.Reachable ∧ h.config.stress = true ∧ frozenCopy (.list ⟨0,0⟩) h = .ok w k ∧ h.history.size < k.history.size ∧
      ∃ twin, Cloned h k (.list ⟨0,0⟩) w twin := by
  let calls : List Call := [.newList 0,.protect (.list ⟨0,0⟩),.newMap 4,.mapSet (.map ⟨1,0⟩) (.int 1) (.list ⟨0,0⟩),
    .listPush (.list ⟨0,0⟩) (.list ⟨0,0⟩),.listPush (.list ⟨0,0⟩) (.map ⟨1,0⟩),.listPush (.list ⟨0,0⟩) (.map ⟨1,0⟩)]
  let h : Heap := calls.foldl Call.run (new { stress := true })
  have honest : Honest h := .calls (.new _) (by decide)
  let values : List Value := [.list ⟨0,0⟩,.map ⟨1,0⟩,.int 1]
  have closed : ∀ v ∈ values, ∀ w ∈ h.parts v, w ∈ values := by decide +kernel
  have checked : ∀ v ∈ values, h.isSound v = true := by decide +kernel
  have simple : h.SimpleKeys := simpleKeys_slots (by decide +kernel)
  have held : Value.list ⟨0,0⟩ ∈ h.shadow := by decide +kernel
  have copied := result?_ok (by decide +kernel : result? (frozenCopy (.list ⟨0,0⟩)) h = some (.list ⟨2,0⟩))
  have collected : h.history.size < (after (frozenCopy (.list ⟨0,0⟩)) h).history.size := by decide +kernel
  generalize after (frozenCopy (.list ⟨0,0⟩)) h = k at copied collected
  have copyable : Copyable h k (.list ⟨0,0⟩) := by
    refine honest.copyable (by decide +kernel) (fun r handle live => Or.inr (.root (.shadow held) handle live)) ?_ ?_
    · exact fun a inside => isSound_sound (checked a (inside_among closed (by decide) inside))
    · exact fun r table _ present => simple.plain present
  exact ⟨h,k,_,honest.reachable,by decide +kernel,copied,collected,frozenCopy_cloned honest.reachable copyable copied⟩

-- A list that is gone counts as an empty one and gets a copy, and a handle is copied as what it was met as first. A key that is
-- there again when generations have come round is bound once in the copy of a map that binds it twice.
theorem frozenCopy_unlike :
    (∃ h k : Heap, ∃ w, Honest h ∧ .list ⟨0,0⟩ ∈ h.shadow ∧ h.SimpleKeys ∧ frozenCopy (.list ⟨0,0⟩) h = .ok w k ∧
      (∀ a, Inside h (.list ⟨0,0⟩) a → a.isContainer = true → h.Sound a → a = .list ⟨0,0⟩) ∧
      ∃ b, Inside k w b ∧ b.isContainer = true ∧ k.Sound b ∧ b ≠ w) ∧
    (∃ h k : Heap, ∃ w, h.Reachable ∧ .list ⟨0,0⟩ ∈ h.shadow ∧ h.SimpleKeys ∧ frozenCopy (.list ⟨0,0⟩) h = .ok w k ∧
      h.items? (.list ⟨0,0⟩) = some #[.list ⟨1,0⟩,.map ⟨1,0⟩] ∧ ∃ r, k.items? w = some #[.list r,.list r]) ∧
    ∃ h k : Heap, ∃ w, Honest h ∧ .map ⟨0,0⟩ ∈ h.shadow ∧ h.SimpleKeys ∧ (∀ a, Inside h (.map ⟨0,0⟩) a → h.Sound a) ∧
      frozenCopy (.map ⟨0,0⟩) h = .ok w k ∧ h.mapCount (.map ⟨0,0⟩) = 2 ∧ k.mapCount w = 1 := by
  refine ⟨?_,?_,?_⟩
  · let calls : List Call := [.newList 0,.protect (.list ⟨0,0⟩),.newList 0,.collect,.listPush (.list ⟨0,0⟩) (.list ⟨1,0⟩)]
    let h : Heap := calls.foldl Call.run (new {})
    have honest : Honest h := .calls (.new _) (by decide)
    let values : List Value := [.list ⟨0,0⟩,.list ⟨1,0⟩]
    have closed : ∀ v ∈ values, ∀ w ∈ h.parts v, w ∈ values := by decide +kernel
    have gone : h.isLive ⟨1,0⟩ = false := by decide +kernel
    have copied := result?_ok (by decide +kernel : result? (frozenCopy (.list ⟨0,0⟩)) h = some (.list ⟨1,1⟩))
    have part : .list ⟨2,0⟩ ∈ (after (frozenCopy (.list ⟨0,0⟩)) h).parts (.list ⟨1,1⟩) := by decide +kernel
    have there : (after (frozenCopy (.list ⟨0,0⟩)) h).isSound (.list ⟨2,0⟩) = true := by decide +kernel
    refine ⟨h,_,_,honest,by decide +kernel,simpleKeys_slots (by decide +kernel),copied,?_,_,.part .self part,rfl,isSound_sound there,by decide⟩
    intro a inside container sound
    have among : a ∈ values := inside_among closed (by decide) inside
    simp only [values,List.mem_cons,List.not_mem_nil,or_false] at among
    rcases among with rfl | rfl
    · rfl
    · have live := sound.live rfl
      rw [gone] at live
      cases live
  · let calls : List Call := [.newList 0,.protect (.list ⟨0,0⟩),.newList 0,.listPush (.list ⟨0,0⟩) (.list ⟨1,0⟩),
      .listPush (.list ⟨0,0⟩) (.map ⟨1,0⟩)]
    let h : Heap := calls.foldl Call.run (new {})
    have copied := result?_ok (by decide +kernel : result? (frozenCopy (.list ⟨0,0⟩)) h = some (.list ⟨2,0⟩))
    exact ⟨h,_,_,.calls calls (.new _),by decide +kernel,simpleKeys_slots (by decide +kernel),copied,by decide +kernel,
      ⟨3,0⟩,by decide +kernel⟩
  · let again : Heap := Call.run (vacant boundGone (2 ^ 32)) (.newString page)
    let h : Heap := Call.run again (.mapSet (.map ⟨0,0⟩) (.str ⟨1,0⟩) (.int 2))
    have begun : Honest (vacant boundGone (2 ^ 32)) := vacant_honest (by decide) (Nat.le_refl _)
    have there : again.isLive ⟨1,0⟩ = true := by decide +kernel
    have made : Honest again := .call _ begun fun v named => absurd named List.not_mem_nil
    have honest : Honest h := made.binds there (.map ⟨0,0⟩) 2
    let values : List Value := [.map ⟨0,0⟩,.str ⟨1,0⟩,.int 1,.int 2]
    have closed : ∀ v ∈ values, ∀ w ∈ h.parts v, w ∈ values := by decide +kernel
    have checked : ∀ v ∈ values, h.isSound v = true := by decide +kernel
    have copied := result?_ok (by decide +kernel : result? (frozenCopy (.map ⟨0,0⟩)) h = some (.map ⟨2,0⟩))
    refine ⟨h,_,_,honest,by decide +kernel,simpleKeys_slots (by decide +kernel),?_,copied,by decide +kernel,by decide +kernel⟩
    exact fun a inside => isSound_sound (checked a (inside_among closed (by decide) inside))

end RegisterMachine.Heap
