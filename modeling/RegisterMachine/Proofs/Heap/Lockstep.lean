import RegisterMachine.Proofs.Heap.Mirroring
import RegisterMachine.Proofs.Heap.Cloning

namespace RegisterMachine.Heap

variable {f f' f₀ : Handle → Handle} {known known' known₀ : Handle → Prop} {h k s t : Heap}

-- On the way to two heaps nothing was collected, or nothing that is known.
def Calm (known : Handle → Prop) (h k s t : Heap) : Prop :=
  (∀ r, known r → h.Survives r) ∨ (s.history.size ≤ h.history.size ∧ t.history.size ≤ k.history.size)

-- What was known is known still, and mirrored by the same handles.
def Still (f : Handle → Handle) (known : Handle → Prop) (s t : Heap) : Prop :=
  ∃ f' known', Mirrors f' known' s t ∧ ∀ r, known r → known' r ∧ f' r = f r

def Alike (f : Handle → Handle) (known : Handle → Prop) (v w : Value) (s t : Heap) : Prop :=
  ∃ f' known', Mirrors f' known' s t ∧ (∀ r, known r → known' r ∧ f' r = f r) ∧ w = v.rename f' ∧ v.Within known'

def Same (f : Handle → Handle) (known : Handle → Prop) (a b : α) (s t : Heap) : Prop := b = a ∧ Still f known s t

theorem Mirrors.still (mirrors : Mirrors f known h k) : Still f known h k := ⟨f,known,mirrors,fun _ here => ⟨here,rfl⟩⟩

theorem Mirrors.alike (mirrors : Mirrors f known h k) (within : v.Within known) : Alike f known v (v.rename f) h k :=
  ⟨f,known,mirrors,fun _ here => ⟨here,rfl⟩,rfl,within⟩

theorem Mirrors.plain (mirrors : Mirrors f known h k) (plain : v.handle? = none) : Alike f known v v h k :=
  ⟨f,known,mirrors,fun _ here => ⟨here,rfl⟩,(Value.rename_plain plain).symm,Value.within_plain plain⟩

theorem Mirrors.same (mirrors : Mirrors f known h k) (a : α) : Same f known a a h k := ⟨rfl,mirrors.still⟩

-- How two runs of an operation compare, if nothing that matters was collected.
def Tallies (calm : Heap → Heap → Prop) (ends : Heap → Heap → Prop) (post : α → β → Heap → Heap → Prop) :
    EStateM.Result Error Heap α → EStateM.Result Error Heap β → Prop
  | .ok a s,.ok b t => calm s t → post a b s t
  | .error e s,.error e' t => calm s t → e' = e ∧ ends s t
  | .ok _ s,.error _ t | .error _ s,.ok _ t => ¬ calm s t

namespace Tallies

variable {calm ends : Heap → Heap → Prop}

theorem pure {a : α} {b : β} {post : α → β → Heap → Heap → Prop} (held : post a b h k) :
    Tallies calm ends post ((Pure.pure a : HeapM α) h) ((Pure.pure b : HeapM β) k) := fun _ => held

theorem ok {a : α} {b : β} {post : α → β → Heap → Heap → Prop} (held : post a b s t) :
    Tallies calm ends post (.ok a s) (.ok b t) := fun _ => held

theorem error {post : α → β → Heap → Heap → Prop} (held : ends s t) : Tallies calm ends post (.error e s) (.error e t) := fun _ => ⟨rfl,held⟩

theorem map {operation : HeapM α} {operation' : HeapM β} {g : α → γ} {g' : β → δ} {post : γ → δ → Heap → Heap → Prop}
    (tallies : Tallies calm ends (fun a b => post (g a) (g' b)) (operation h) (operation' k)) :
    Tallies calm ends post ((g <$> operation) h) ((g' <$> operation') k) := by
  simp only [Functor.map,EStateM.map]
  cases left : operation h <;> cases right : operation' k <;> simpa only [left,right,Tallies] using tallies

theorem mono {x : EStateM.Result Error Heap α} {y : EStateM.Result Error Heap β} {ends' : Heap → Heap → Prop}
    {post post' : α → β → Heap → Heap → Prop} (tallies : Tallies calm ends post x y) (wider : ∀ s t, ends s t → ends' s t)
    (weaker : ∀ a b s t, post a b s t → post' a b s t) : Tallies calm ends' post' x y := by
  cases x with
  | ok a s =>
      cases y with
      | ok b t => exact fun held => weaker a b s t (tallies held)
      | error => exact tallies
  | error e s =>
      cases y with
      | ok => exact tallies
      | error e' t => exact fun held => (tallies held).imp id (wider s t)

theorem bind {first : HeapM α} {first' : HeapM β} {rest : α → HeapM γ} {rest' : β → HeapM δ} {middle : α → β → Heap → Heap → Prop}
    {post : γ → δ → Heap → Heap → Prop} (tallies : Tallies calm ends middle (first h) (first' k))
    (back : ∀ a s, first h = .ok a s → ∀ t, calm (after (rest a) s) t → calm s t)
    (back' : ∀ b t, first' k = .ok b t → ∀ s, calm s (after (rest' b) t) → calm s t)
    (follows : ∀ a b s t, first h = .ok a s → first' k = .ok b t → middle a b s t → Tallies calm ends post (rest a s) (rest' b t)) :
    Tallies calm ends post ((first >>= rest) h) ((first' >>= rest') k) := by
  simp only [Bind.bind,EStateM.bind]
  cases left : first h with
  | ok a s =>
      have earlier := back a s left
      cases right : first' k with
      | ok b t =>
          have earlier' := back' b t right
          have next := follows a b s t left right
          rw [left,right] at tallies
          simp only [after] at earlier earlier'
          cases done : rest a s <;> cases done' : rest' b t <;> simp only [done,done'] at earlier earlier' next ⊢ <;>
            exact fun held => next (tallies (earlier _ (earlier' _ held))) held
      | error e t =>
          rw [left,right] at tallies
          simp only [after] at earlier
          cases done : rest a s <;> simp only [done] at earlier ⊢ <;> exact fun held => absurd (earlier t held) tallies
  | error e s =>
      cases right : first' k with
      | ok b t =>
          have earlier' := back' b t right
          rw [left,right] at tallies
          simp only [after] at earlier'
          cases done : rest' b t <;> simp only [done] at earlier' ⊢ <;> exact fun held => absurd (earlier' s held) tallies
      | error e' t =>
          rw [left,right] at tallies
          exact tallies

end Tallies

-- Operations of several allocations. Between them the runs are abreast: what was known at the start is
-- mirrored as it was, and as long as a collection at the start would have kept it, a collection now
-- keeps everything known.
structure Abreast (f₀ : Handle → Handle) (known₀ : Handle → Prop) (h k : Heap) (f : Handle → Handle) (known : Handle → Prop) (s t : Heap) :
    Prop where
  mirrors : Mirrors f known s t
  grows : ∀ r, known₀ r → known r ∧ f r = f₀ r
  kept : (∀ r, known₀ r → h.Survives r) → ∀ r, known r → s.Survives r
  later : h.history.size ≤ s.history.size ∧ k.history.size ≤ t.history.size

theorem Still.since (still : Still f known s t) (grows : ∀ r, known₀ r → known r ∧ f r = f₀ r) : Still f₀ known₀ s t := by
  obtain ⟨f',known',mirrors,more⟩ := still
  refine ⟨f',known',mirrors,fun r here => ?_⟩
  obtain ⟨there,same⟩ := grows r here
  exact ⟨(more r there).1,(more r there).2.trans same⟩

theorem Alike.since (alike : Alike f known v w s t) (grows : ∀ r, known₀ r → known r ∧ f r = f₀ r) : Alike f₀ known₀ v w s t := by
  obtain ⟨f',known',mirrors,more,same,within⟩ := alike
  refine ⟨f',known',mirrors,fun r here => ?_,same,within⟩
  obtain ⟨there,equal⟩ := grows r here
  exact ⟨(more r there).1,(more r there).2.trans equal⟩

theorem Calm.back (calm : Calm known h k s' t') (later : s.history.size ≤ s'.history.size) (later' : t.history.size ≤ t'.history.size) :
    Calm known h k s t :=
  calm.imp id fun ⟨left,right⟩ => ⟨Nat.le_trans later left,Nat.le_trans later' right⟩

theorem Tallies.calmer {x : EStateM.Result Error Heap α} {y : EStateM.Result Error Heap β} {calm calm' ends : Heap → Heap → Prop}
    {post : α → β → Heap → Heap → Prop} (tallies : Tallies calm' ends post x y) (calmer : ∀ s t, calm s t → calm' s t) : Tallies calm ends post x y := by
  cases x with
  | ok a s =>
      cases y with
      | ok b t => exact fun held => tallies (calmer s t held)
      | error => exact fun held => tallies (calmer _ _ held)
  | error e s =>
      cases y with
      | ok => exact fun held => tallies (calmer _ _ held)
      | error e' t => exact fun held => tallies (calmer s t held)

namespace Abreast

theorem start (mirrors : Mirrors f known h k) : Abreast f known h k f known h k :=
  ⟨mirrors,fun _ here => ⟨here,rfl⟩,id,Nat.le_refl _,Nat.le_refl _⟩

theorem calm (abreast : Abreast f₀ known₀ h k f known s t) (calm : Calm known₀ h k s' t') : Calm known s t s' t' :=
  calm.imp abreast.kept fun ⟨left,right⟩ => ⟨Nat.le_trans left abreast.later.1,Nat.le_trans right abreast.later.2⟩

theorem tallies {x : EStateM.Result Error Heap α} {y : EStateM.Result Error Heap β} {post : α → β → Heap → Heap → Prop}
    (abreast : Abreast f₀ known₀ h k f known s t) (tallies : Tallies (Calm known s t) (Still f known) post x y) :
    Tallies (Calm known₀ h k) (Still f₀ known₀) post x y :=
  (tallies.calmer fun _ _ => abreast.calm).mono (fun _ _ still => still.since abreast.grows) fun _ _ _ _ => id

theorem alike {x y : EStateM.Result Error Heap Value} (abreast : Abreast f₀ known₀ h k f known s t)
    (tallies : Tallies (Calm known s t) (Still f known) (Alike f known) x y) :
    Tallies (Calm known₀ h k) (Still f₀ known₀) (Alike f₀ known₀) x y :=
  (abreast.tallies tallies).mono (fun _ _ => id) fun _ _ _ _ alike => alike.since abreast.grows

theorem again (mirrors : Mirrors f known s t) (grows : ∀ r, known₀ r → known r ∧ f r = f₀ r)
    (kept : (∀ r, known₀ r → h.Survives r) → ∀ r, known₀ r → s.Survives r)
    (later : h.history.size ≤ s.history.size ∧ k.history.size ≤ t.history.size) :
    Abreast f₀ known₀ h k f (fun r => known r ∧ ((∀ r, known₀ r → h.Survives r) → s.Survives r)) s t where
  mirrors := by
    by_cases spare : ∀ r, known₀ r → h.Survives r
    · have same : (fun r => known r ∧ ((∀ r, known₀ r → h.Survives r) → s.Survives r)) = fun r => known r ∧ s.Survives r := by
        funext r
        rw [forall_prop_of_true spare]
      rw [same]
      exact mirrors.survivors
    · have same : (fun r => known r ∧ ((∀ r, known₀ r → h.Survives r) → s.Survives r)) = known := by
        funext r
        rw [forall_prop_of_false spare,and_true]
      rw [same]
      exact mirrors
  grows := fun r here => ⟨⟨(grows r here).1,fun spare => kept spare r here⟩,(grows r here).2⟩
  kept := fun spare r here => here.2 spare
  later := later

end Abreast

theorem Tallies.halves {first : HeapM α} {first' : HeapM β} {rest : α → HeapM γ} {rest' : β → HeapM δ} {middle : α → β → Heap → Heap → Prop}
    {post : γ → δ → Heap → Heap → Prop} {ends : Heap → Heap → Prop} (tallies : Tallies (Calm known h k) ends middle (first s) (first' t))
    (next : ∀ a u, first s = .ok a u → u.history.size ≤ (after (rest a) u).history.size)
    (next' : ∀ b u, first' t = .ok b u → u.history.size ≤ (after (rest' b) u).history.size)
    (follows : ∀ a b u v, first s = .ok a u → first' t = .ok b v → middle a b u v → Tallies (Calm known h k) ends post (rest a u) (rest' b v)) :
    Tallies (Calm known h k) ends post ((first >>= rest) s) ((first' >>= rest') t) :=
  tallies.bind (fun a u done _ calm => calm.back (next a u done) (Nat.le_refl _)) (fun b u done _ calm => calm.back (Nat.le_refl _) (next' b u done))
    follows

theorem Does.later {operation : HeapM α} (does : Performs (fun _ => True) operation) (intact : s.Intact) :
    s.history.size ≤ (after operation s).history.size :=
  (does s (.all s)).steps.fewer intact

theorem Does.since {operation : HeapM α} (does : Performs (fun _ => True) operation) (intact : s.Intact) (done : operation s = .ok a u) :
    s.history.size ≤ u.history.size := by
  have later := does.later intact
  rwa [after,done] at later

variable {calm ends : Heap → Heap → Prop} {clear : Value → Prop}

theorem allocate_tallies (object : Object) (mirrors : Mirrors f known h k) (refs : ∀ v, object.Refers v → v.Within known) (sane : object.Sane)
    (sane' : (object.rename f).Sane) : Tallies (Calm known h k) (Still f known)
      (fun r q s t => Mirrors (Function.update f r q) (fun p => known p ∨ p = r) s t ∧ ∀ p, known p → p ≠ r ∧ s.object? p = h.object? p)
      (allocate object h) (allocate (object.rename f) k) := by
  have first := allocate_unlimited mirrors.unlimited.1 object
  have second := allocate_unlimited mirrors.unlimited.2 (object.rename f)
  have dead := allocate_fresh mirrors.intact first
  rw [first,second]
  refine fun calm => ⟨mirrors.allocated refs sane sane' calm,fun p here => ⟨?_,mirrors.undisturbed here (calm.imp id And.left)⟩⟩
  rintro rfl
  have live := mirrors.live here
  rw [isLive,dead] at live
  cases live

theorem makes_alike (object : Object) (make : Handle → Value) (mirrors : Mirrors f known h k) (refs : ∀ v, object.Refers v → v.Within known)
    (sane : object.Sane) (sane' : (object.rename f).Sane) (handle : ∀ r, (make r).handle? = some r)
    (renames : ∀ g r, (make r).rename g = make (g r)) :
    Tallies (Calm known h k) (Still f known) (Alike f known) ((make <$> allocate object) h) ((make <$> allocate (object.rename f)) k) := by
  refine .map ((allocate_tallies object mirrors refs sane sane').mono (fun _ _ => id) fun r q s t ⟨mirrors',fresh⟩ => ?_)
  refine ⟨_,_,mirrors',fun p here => ⟨Or.inl here,Function.update_of_ne (fresh p here).1 _ _⟩,?_,fun p held => ?_⟩
  · rw [renames,Function.update_self]
  · rw [handle] at held
    cases held
    exact Or.inr rfl

theorem newString_alike (mirrors : Mirrors f known h k) (text : String) :
    Tallies (Calm known h k) (Still f known) (Alike f known) (newString text h) (newString text k) := by
  unfold newString
  cases ShortText.ofString? text with
  | some t => exact .pure (mirrors.plain rfl)
  | none =>
      simp only
      split
      · obtain ⟨f',known',mirrors',grows,_,same,within⟩ := mirrors.intern text
        exact .ok ⟨f',known',mirrors',grows,same,within⟩
      · rename_i long
        have sane := sane_str (Nat.le_of_not_lt long)
        exact makes_alike (.str text) .str mirrors (fun v refers => by cases refers) sane sane (fun _ => rfl) fun _ _ => rfl

theorem newListOf_alike {items : Array Value} (mirrors : Mirrors f known h k) (within : ∀ item ∈ items, item.Within known) (capacity : Nat) :
    Tallies (Calm known h k) (Still f known) (Alike f known) (newListOf items capacity h) (newListOf (items.map (Value.rename f)) capacity k) := by
  refine makes_alike (.list (.ofItems items capacity)) .list mirrors (fun v refers => ?_) (sane_list _) (sane_list _) (fun _ => rfl) fun _ _ => rfl
  cases refers with
  | item member => exact within v member

theorem newFuncRef_alike (mirrors : Mirrors f known h k) (within : outer.Within known) (function : Nat) :
    Tallies (Calm known h k) (Still f known) (Alike f known) (newFuncRef function outer h) (newFuncRef function (outer.rename f) k) := by
  refine makes_alike (.funcRef ⟨function,outer⟩) .funcRef mirrors (fun v refers => ?_) (sane_funcRef _) (sane_funcRef _) (fun _ => rfl) fun _ _ => rfl
  cases refers with
  | outer => exact within

theorem blank_refers (refers : (Object.map (.withCapacity capacity)).Refers v) : v.Within known := by
  have bound : ∃ (named : Aliases) (register : Nat), none = some named ∧ (v,register) ∈ named.bindings := refers_empty refers
  obtain ⟨_,_,none,_⟩ := bound
  cases none

theorem blank_rename (capacity : Nat) : (Object.map (.withCapacity capacity)).rename f = .map (.withCapacity capacity) :=
  congrArg Object.map (Table.withCapacity_rename capacity)

theorem newMap_alike (mirrors : Mirrors f known h k) (capacity : Nat) :
    Tallies (Calm known h k) (Still f known) (Alike f known) (newMap capacity h) (newMap capacity k) := by
  have sane := sane_map (Table.withCapacity_valid capacity)
  have made := makes_alike (.map (.withCapacity capacity)) .map mirrors (fun v refers => blank_refers refers) sane (by rwa [blank_rename])
    (fun _ => rfl) fun _ _ => rfl
  rwa [blank_rename] at made

theorem Mirrors.aliasesFor (mirrors : Mirrors f known h k) (first count : Nat) :
    k.aliasesFor first count = (h.aliasesFor first count).rename f := by
  have sizes : k.registers.size = h.registers.size := by rw [mirrors.registers,Array.size_map]
  have pushed : ∀ (registers : List Nat) (aliases : Aliases),
      registers.foldl (fun aliases i => if (k.registerName i).isNull then aliases else aliases.push (k.registerName i) i) (aliases.rename f) =
      (registers.foldl (fun aliases i => if (h.registerName i).isNull then aliases else aliases.push (h.registerName i) i) aliases).rename f := by
    intro registers
    induction registers with
    | nil => exact fun _ => rfl
    | cons i rest ih =>
        intro aliases
        simp only [List.foldl_cons,mirrors.registerName,Value.rename_isNull] at ih ⊢
        split
        · exact ih aliases
        · rw [← ih]
          simp [Aliases.push,Aliases.rename]
  have empty : Aliases.rename f ⟨#[],0⟩ = ⟨#[],0⟩ := by simp [Aliases.rename]
  have filled := pushed (List.range' first (min (first + count) h.registers.size - first)) ⟨#[],0⟩
  rw [empty] at filled
  simp only [Heap.aliasesFor,sizes]
  exact filled

theorem newAliasMap_alike (mirrors : Mirrors f known h k) (first count : Nat) :
    Tallies (Calm known h k) (Still f known) (Alike f known) (newAliasMap first count h) (newAliasMap first count k) := by
  have renamed : (Object.map (aliasTable (h.aliasesFor first count))).rename f = .map (aliasTable (k.aliasesFor first count)) := by
    simp [Object.rename,Table.rename,aliasTable,mirrors.aliasesFor,Table.withCapacity]
  have made := makes_alike (.map (aliasTable (h.aliasesFor first count))) .map mirrors (fun v refers => ?_)
    (sane_aliasTable _) (by rw [renamed]; exact sane_aliasTable _) (fun _ => rfl) fun _ _ => rfl
  · rwa [renamed] at made
  · obtain ⟨named,register,same,member⟩ := refers_empty refers
    cases same
    rw [show v = _ from h.aliasesFor_names first count _ member]
    exact mirrors.closed.registerName register

theorem textOf_tallies {rest rest' : String → HeapM α} {post : α → α → Heap → Heap → Prop} (mirrors : Mirrors f known h k) (within : v.Within known)
    (still : ends h k) (follows : ∀ text, Tallies calm ends post (rest text h) (rest' text k)) :
    Tallies calm ends post ((textOf v >>= rest) h) ((textOf (v.rename f) >>= rest') k) := by
  simp only [Bind.bind,EStateM.bind,textOf,reading,mirrors.expectText within]
  cases h.expectText v with
  | error e => exact .error still
  | ok text => exact follows text

-- The operands of a concatenation need not survive it: they are read before anything is made.
theorem stringConcat_abreast (abreast : Abreast f₀ known₀ h k f known s t) (mirrors : Mirrors f known' s t)
    (grows : ∀ r, known₀ r → known' r ∧ f r = f₀ r) (left : a.Within known') (right : b.Within known') :
    Tallies (Calm known₀ h k) (Still f₀ known₀) (Alike f₀ known₀) (stringConcat a b s) (stringConcat (a.rename f) (b.rename f) t) := by
  have still := mirrors.still.since grows
  refine textOf_tallies mirrors left still fun x => textOf_tallies mirrors right still fun y => ?_
  split
  · exact .pure ((mirrors.alike left).since grows)
  · split
    · exact .pure ((mirrors.alike right).since grows)
    · exact abreast.alike (newString_alike abreast.mirrors _)

theorem stringConcat_alike (mirrors : Mirrors f known h k) (left : a.Within known) (right : b.Within known) :
    Tallies (Calm known h k) (Still f known) (Alike f known) (stringConcat a b h) (stringConcat (a.rename f) (b.rename f) k) :=
  stringConcat_abreast (.start mirrors) mirrors (fun _ here => ⟨here,rfl⟩) left right

theorem newString_concat {join join' : Value → HeapM Value} (mirrors : Mirrors f known h k) (text : String)
    (acts : ∀ v, Performs (fun _ => True) (join v)) (acts' : ∀ v, Performs (fun _ => True) (join' v))
    (joins : ∀ f' known' known'' s t v, Abreast f known h k f' known'' s t → Mirrors f' known' s t → (∀ r, known r → known' r ∧ f' r = f r) →
      v.Within known' → Tallies (Calm known h k) (Still f known) (Alike f known) (join v s) (join' (v.rename f') t)) :
    Tallies (Calm known h k) (Still f known) (Alike f known) ((newString text >>= join) h) ((newString text >>= join') k) := by
  have writes : Performs (fun _ => True) (newString text) := newString_acts text
  refine (newString_alike mirrors text).halves (fun v s done => (acts v).later ((writes.forward done).intact mirrors.intact))
    (fun v t done => (acts' v).later ((writes.forward done).intact mirrors.image)) ?_
  rintro v w s t done done' ⟨f',known',mirrors',grows,rfl,within⟩
  have spared := ((newString_spares text h mirrors.intact).ok done).1
  refine joins f' known' _ s t v (.again mirrors' grows (fun spare r here => ?_) ⟨writes.since mirrors.intact done,writes.since mirrors.image done'⟩)
    mirrors' grows within
  exact spared.extension.survives (spare r here)

theorem stringSubstring_alike (mirrors : Mirrors f known h k) (within : v.Within known) (start count : Int32) :
    Tallies (Calm known h k) (Still f known) (Alike f known) (stringSubstring v start count h) (stringSubstring (v.rename f) start count k) := by
  refine textOf_tallies mirrors within mirrors.still fun text => ?_
  by_cases whole : clampIndex start text.length = 0 ∧ min (clampIndex start text.length + count.toInt.toNat) text.length = text.length
  · rw [if_pos whole,if_pos whole]
    exact .pure (mirrors.alike within)
  · rw [if_neg whole,if_neg whole]
    exact newString_alike mirrors _

theorem stringSlice_alike (mirrors : Mirrors f known h k) (within : v.Within known) (start stop : Int32) :
    Tallies (Calm known h k) (Still f known) (Alike f known) (stringSlice v start stop h) (stringSlice (v.rename f) start stop k) := by
  simp only [stringSlice,Bind.bind,EStateM.bind,get_ok,mirrors.stringLength within]
  split
  · exact newString_alike mirrors _
  · exact stringSubstring_alike mirrors within _ _

theorem stringReplace_alike (mirrors : Mirrors f known h k) (within : v.Within known) (left : a.Within known) (right : b.Within known) :
    Tallies (Calm known h k) (Still f known) (Alike f known) (stringReplace v a b h) (stringReplace (v.rename f) (a.rename f) (b.rename f) k) := by
  refine textOf_tallies mirrors within mirrors.still fun text => textOf_tallies mirrors left mirrors.still fun old =>
    textOf_tallies mirrors right mirrors.still fun new => ?_
  split
  · exact .pure (mirrors.alike within)
  · exact newString_alike mirrors _

theorem mapText_alike (mirrors : Mirrors f known h k) (within : v.Within known) (change : String → String) :
    Tallies (Calm known h k) (Still f known) (Alike f known) (mapText change v h) (mapText change (v.rename f) k) := by
  refine textOf_tallies mirrors within mirrors.still fun text => ?_
  by_cases unchanged : change text = text
  · rw [if_pos unchanged,if_pos unchanged]
    exact .pure (mirrors.alike within)
  · rw [if_neg unchanged,if_neg unchanged]
    exact newString_alike mirrors _

theorem stringRepeat_alike (mirrors : Mirrors f known h k) (within : v.Within known) (times : Double) :
    Tallies (Calm known h k) (Still f known) (Alike f known) (stringRepeat v times h) (stringRepeat (v.rename f) times k) := by
  refine textOf_tallies mirrors within mirrors.still fun text => ?_
  split
  · exact newString_alike mirrors _
  · split
    · exact .pure (mirrors.alike within)
    · simp only [Bind.bind,EStateM.bind,get_ok,mirrors.unlimited]
      split
      · exact newString_alike mirrors _
      · exact .error mirrors.still

theorem toStringValue_alike (mirrors : Mirrors f known h k) (within : v.Within known) :
    Tallies (Calm known h k) (Still f known) (Alike f known) (toStringValue v h) (toStringValue (v.rename f) k) := by
  simp only [toStringValue,Value.rename_isString]
  split
  · exact .pure (mirrors.alike within)
  · simp only [Bind.bind,EStateM.bind,get_ok,display,mirrors.render maxDepth false within]
    exact newString_alike mirrors _

theorem Value.rename_int {a : Value} : a.rename f = .int x ↔ a = .int x := by
  cases a <;> simp [Value.rename]

theorem mult_other (other : ¬ ∃ x y, a = .int x ∧ b = .int y) : mult a b =
    if a.isNumber && b.isNumber then pure (.double (a.asDouble.mul b.asDouble))
    else if a.isString && b.isNumber && b.asDouble.isFinite then stringRepeat a b.asDouble
    else pure .null := by
  unfold mult
  split
  · exact absurd ⟨_,_,rfl,rfl⟩ other
  · rfl

theorem mult_alike (mirrors : Mirrors f known h k) (left : a.Within known) :
    Tallies (Calm known h k) (Still f known) (Alike f known) (mult a b h) (mult (a.rename f) (b.rename f) k) := by
  by_cases ints : ∃ x y, a = .int x ∧ b = .int y
  · obtain ⟨x,y,rfl,rfl⟩ := ints
    exact .pure (mirrors.plain (Value.ofInt_plain _))
  · rw [mult_other ints,mult_other (by simpa only [Value.rename_int] using ints)]
    simp only [Value.rename_isNumber,Value.rename_isString,Value.rename_asDouble]
    split
    · exact .pure (mirrors.plain rfl)
    · split
      · exact stringRepeat_alike mirrors left _
      · exact .pure (mirrors.plain rfl)

theorem div_alike (mirrors : Mirrors f known h k) (left : a.Within known) :
    Tallies (Calm known h k) (Still f known) (Alike f known) (div a b h) (div (a.rename f) (b.rename f) k) := by
  simp only [div,Value.rename_isNumber,Value.rename_isString,Value.rename_asDouble]
  split
  · exact .pure (mirrors.plain rfl)
  · split
    · exact mult_alike (b := .double (Double.one.div b.asDouble)) mirrors left
    · exact .pure (mirrors.plain rfl)

theorem sub_rename (a b : Value) : sub (a.rename f) (b.rename f) = sub a b ∧ (sub a b).handle? = none := by
  constructor
  · cases a <;> cases b <;> rfl
  · unfold sub
    split
    · exact Value.ofInt_plain _
    · split <;> rfl

theorem mod_rename (a b : Value) : mod (a.rename f) (b.rename f) = mod a b ∧ (mod a b).handle? = none := by
  constructor
  · cases a <;> cases b <;> rfl
  · unfold mod
    split
    · split
      · split
        · rfl
        · exact Value.ofInt_plain _
      · rfl
    · rfl

theorem Mirrors.modifyList {list : ListObject} {change change' : ListObject → ListObject} (mirrors : Mirrors f known h k) (here : known r)
    (present : h.object? r = some (.list list)) (agree : change' (list.rename f) = (change list).rename f)
    (items : ∀ item ∈ (change list).items, item.Within known) : Mirrors f known (h.modifyList r change) (k.modifyList (f r) change') := by
  have image : k.object? (f r) = some (.list (list.rename f)) := by
    rw [mirrors.object here,present]
    rfl
  have right := modifyList_wrote change' image
  rw [agree] at right
  refine mirrors.wrote here (modifyList_wrote change present) right fun v refers => ?_
  cases refers with
  | item member => exact items v member

theorem writableList_tallies {operation operation' : HeapM α} {post : α → α → Heap → Heap → Prop} (mirrors : Mirrors f known h k)
    (within : v.Within known) (refused : ∀ e, h.writableList v = .error e → operation h = .error e h)
    (refused' : ∀ e, k.writableList (v.rename f) = .error e → operation' k = .error e k)
    (follows : ∀ r list, v = .list r → known r → h.object? r = some (.list list) → list.frozen = false → h.writableList v = .ok r →
      k.writableList (.list (f r)) = .ok (f r) → Tallies calm (Still f known) post (operation h) (operation' k)) :
    Tallies calm (Still f known) post (operation h) (operation' k) := by
  have writable := mirrors.writableList within
  cases accepted : h.writableList v with
  | error e =>
      rw [accepted] at writable
      rw [refused e accepted,refused' e writable]
      exact .error mirrors.still
  | ok r =>
      rw [accepted] at writable
      obtain ⟨rfl,_⟩ := writableList_parts accepted
      obtain ⟨list,present,open_⟩ := writableList_open accepted
      exact follows r list rfl (within r rfl) present (by simpa [Object.Fixed] using open_) accepted writable

theorem updateList_same {change change' : ListObject → ListObject} (mirrors : Mirrors f known h k) (within : v.Within known)
    (agree : ∀ list : ListObject, change' (list.rename f) = (change list).rename f)
    (items : ∀ list : ListObject, (∀ item ∈ list.items, item.Within known) → ∀ item ∈ (change list).items, item.Within known) :
    Tallies calm (Still f known) (Same f known) (updateList v change h) (updateList (v.rename f) change' k) := by
  refine writableList_tallies mirrors within (fun e refused => by simp only [updateList,refused])
    (fun e refused => by simp only [updateList,refused]) fun r list same here present open_ _ _ => ?_
  subst same
  have image : k.object? (f r) = some (.list (list.rename f)) := by
    rw [mirrors.object here,present]
    rfl
  obtain ⟨h',done,wrote⟩ := updateList_wrote change present open_
  obtain ⟨k',done',wrote'⟩ := updateList_wrote change' image open_
  rw [agree] at wrote'
  rw [done,Value.rename_list,done']
  refine .ok ⟨rfl,(mirrors.wrote here wrote wrote' fun v refers => ?_).still⟩
  cases refers with
  | item member =>
      refine items list (fun item listed => ?_) v member
      exact mirrors.closed.inside _ r _ _ within rfl present (.item listed)

theorem listPush_same (mirrors : Mirrors f known h k) (within : v.Within known) (added : item.Within known) :
    Tallies calm (Still f known) (Same f known) (listPush v item h) (listPush (v.rename f) (item.rename f) k) := by
  refine updateList_same mirrors within (fun list => list.push_rename item) fun list inner other member => ?_
  rcases Array.mem_push.mp member with old | rfl
  · exact inner other old
  · exact added

theorem listClear_same (mirrors : Mirrors f known h k) (within : v.Within known) :
    Tallies calm (Still f known) (Same f known) (listClear v h) (listClear (v.rename f) k) := by
  refine updateList_same mirrors within (fun list => by simp [ListObject.rename]) fun list inner other member => ?_
  simp at member

theorem listInsert_same (mirrors : Mirrors f known h k) (within : v.Within known) (added : item.Within known) (index : Int32) :
    Tallies calm (Still f known) (Same f known) (listInsert v index item h) (listInsert (v.rename f) index (item.rename f) k) := by
  simp only [listInsert,mirrors.listCount within,mirrors.listHandle within]
  generalize (if index.toInt < 0 then index.toInt + h.listCount v + 1 else index.toInt) = i
  split
  · cases h.listHandle v with
    | error e => exact .error mirrors.still
    | ok r => exact .error mirrors.still
  · refine updateList_same mirrors within (fun list => list.insertAt_rename i.toNat item) fun list inner other member => ?_
    simp only [ListObject.insertAt,Array.insertIdxIfInBounds] at member
    split at member
    · rcases Array.mem_insertIdx.mp member with rfl | old
      · exact added
      · exact inner other old
    · exact inner other member

theorem listSet_same (mirrors : Mirrors f known h k) (within : v.Within known) (added : item.Within known) (index : Int32) :
    Tallies calm (Still f known) (Same f known) (listSet v index item h) (listSet (v.rename f) index (item.rename f) k) := by
  refine writableList_tallies mirrors within (fun e refused => by simp only [listSet,refused])
    (fun e refused => by simp only [listSet,refused]) fun r list same here present open_ accepted accepted' => ?_
  have counts := mirrors.listCount within
  subst same
  simp only [Value.rename_list] at counts
  simp only [listSet,Value.rename_list,accepted,accepted',counts]
  cases resolve? index (h.listCount (.list r)) with
  | none => exact .error mirrors.still
  | some i =>
      refine .ok ⟨rfl,(mirrors.modifyList here present ?_ fun other member => ?_).still⟩
      · simp only [ListObject.rename,Array.map_setIfInBounds]
      · rcases Array.mem_or_eq_of_mem_setIfInBounds member with old | rfl
        · exact mirrors.closed.inside _ r _ _ within rfl present (.item old)
        · exact added

theorem listRemove_same (mirrors : Mirrors f known h k) (within : v.Within known) (index : Int32) :
    Tallies calm (Still f known) (Same f known) (listRemove v index h) (listRemove (v.rename f) index k) := by
  refine writableList_tallies mirrors within (fun e refused => by simp only [listRemove,refused])
    (fun e refused => by simp only [listRemove,refused]) fun r list same here present open_ accepted accepted' => ?_
  have counts := mirrors.listCount within
  subst same
  simp only [Value.rename_list] at counts
  simp only [listRemove,Value.rename_list,accepted,accepted',counts]
  cases resolve? index (h.listCount (.list r)) with
  | none => exact .ok (mirrors.same false)
  | some i =>
      refine .ok ⟨rfl,(mirrors.modifyList here present (list.removeAt_rename i) fun other member => ?_).still⟩
      exact mirrors.closed.inside _ r _ _ within rfl present (.item (mem_of_mem_removeAt member))

theorem listPop_alike (mirrors : Mirrors f known h k) (within : v.Within known) :
    Tallies calm (Still f known) (Alike f known) (listPop v h) (listPop (v.rename f) k) := by
  refine writableList_tallies mirrors within (fun e refused => by simp only [listPop,refused])
    (fun e refused => by simp only [listPop,refused]) fun r list same here present open_ accepted accepted' => ?_
  have items := mirrors.items within
  subst same
  simp only [Value.rename_list] at items
  have listed := items?_list present
  have last : ((k.items? (.list (f r))).bind Array.back?).getD .null = (((h.items? (.list r)).bind Array.back?).getD .null).rename f := by
    rw [items,listed]
    simp only [Option.map_some,Option.bind_some,Array.back?_map]
    cases list.items.back? <;> rfl
  simp only [listPop,Value.rename_list,accepted,accepted',last]
  refine .ok ((mirrors.modifyList here present ?_ fun other member => ?_).alike ?_)
  · simp [ListObject.rename]
  · exact mirrors.closed.inside _ r _ _ within rfl present (.item (mem_of_mem_pop member))
  · rw [listed]
    simp only [Option.bind_some]
    cases found : list.items.back? with
    | none => exact Value.within_plain rfl
    | some item => exact mirrors.closed.inside _ r _ _ within rfl present (.item (Array.mem_of_back? found))

theorem listPull_alike (mirrors : Mirrors f known h k) (within : v.Within known) :
    Tallies calm (Still f known) (Alike f known) (listPull v h) (listPull (v.rename f) k) := by
  refine writableList_tallies mirrors within (fun e refused => by simp only [listPull,refused])
    (fun e refused => by simp only [listPull,refused]) fun r list same here present open_ accepted accepted' => ?_
  have items := mirrors.items within
  subst same
  simp only [Value.rename_list] at items
  have listed := items?_list present
  have first : ((k.items? (.list (f r))).bind (·[0]?)).getD .null = (((h.items? (.list r)).bind (·[0]?)).getD Value.null).rename f := by
    rw [items,listed]
    simp only [Option.map_some,Option.bind_some,Array.getElem?_map]
    cases list.items[0]? <;> rfl
  simp only [listPull,Value.rename_list,accepted,accepted',first]
  refine .ok ((mirrors.modifyList here present (list.removeAt_rename 0) fun other member => ?_).alike ?_)
  · exact mirrors.closed.inside _ r _ _ within rfl present (.item (mem_of_mem_removeAt member))
  · rw [listed]
    simp only [Option.bind_some]
    cases found : list.items[0]? with
    | none => exact Value.within_plain rfl
    | some item => exact mirrors.closed.inside _ r _ _ within rfl present (.item (Array.mem_of_getElem? found))

theorem expectItems_tallies (make make' : Array Value → HeapM Value) (mirrors : Mirrors f known h k) (within : v.Within known)
    (follows : ∀ items, h.items? v = some items → Tallies calm (Still f known) (Alike f known) (make items h) (make' (items.map (Value.rename f)) k)) :
    Tallies calm (Still f known) (Alike f known)
      (match h.expectItems v with | .error e => .error e h | .ok items => make items h)
      (match k.expectItems (v.rename f) with | .error e => .error e k | .ok items => make' items k) := by
  rw [mirrors.expectItems within,Heap.expectItems]
  cases found : h.items? v with
  | none => exact .error mirrors.still
  | some items => exact follows items found

theorem listCopy_alike (mirrors : Mirrors f known h k) (within : v.Within known) :
    Tallies (Calm known h k) (Still f known) (Alike f known) (listCopy v h) (listCopy (v.rename f) k) := by
  refine expectItems_tallies listOfItems listOfItems mirrors within fun items found => ?_
  simp only [listOfItems,Array.size_map]
  exact newListOf_alike mirrors (mirrors.closed.items within found) _

theorem listSlice_alike (mirrors : Mirrors f known h k) (within : v.Within known) (start stop : Int32) :
    Tallies (Calm known h k) (Still f known) (Alike f known) (listSlice v start stop h) (listSlice (v.rename f) start stop k) := by
  have slice : ∀ (items : Array Value) (i j : Nat), (items.map (Value.rename f)).extract i j = (items.extract i j).map (Value.rename f) := by
    intro items i j
    simp
  refine expectItems_tallies (fun items => listOfItems (items.extract (clampIndex start items.size) (clampIndex stop items.size)))
    (fun items => listOfItems (items.extract (clampIndex start items.size) (clampIndex stop items.size))) mirrors within
    fun items found => ?_
  simp only [listOfItems,slice,Array.size_map]
  refine newListOf_alike mirrors (fun item member => ?_) _
  rw [Array.mem_extract_iff_getElem] at member
  obtain ⟨i,_,rfl⟩ := member
  exact mirrors.closed.items within found _ (Array.getElem_mem _)

theorem listConcat_alike (mirrors : Mirrors f known h k) (left : a.Within known) (right : b.Within known) :
    Tallies (Calm known h k) (Still f known) (Alike f known) (listConcat a b h) (listConcat (a.rename f) (b.rename f) k) := by
  have others : (k.items? (b.rename f)).getD #[] = ((h.items? b).getD #[]).map (Value.rename f) := by
    rw [mirrors.items right]
    cases h.items? b <;> simp
  refine expectItems_tallies (fun first h => newListOf (first ++ (h.items? b).getD #[])
    (Capacity.grown first.size (first.size + ((h.items? b).getD #[]).size)) h) (fun first k => newListOf
      (first ++ (k.items? (b.rename f)).getD #[]) (Capacity.grown first.size (first.size + ((k.items? (b.rename f)).getD #[]).size)) k)
    mirrors left fun items found => ?_
  simp only [others,← Array.map_append,Array.size_map]
  refine newListOf_alike mirrors (fun item member => ?_) _
  rcases Array.mem_append.mp member with first | second
  · exact mirrors.closed.items left found item first
  · cases listed : h.items? b with
    | none => simp [listed] at second
    | some more =>
        rw [listed] at second
        exact mirrors.closed.items right listed item second

theorem Still.popScope (still : Still f known s t) : Still f known s.popScope t.popScope := by
  obtain ⟨f',known',mirrors,grows⟩ := still
  exact ⟨f',known',mirrors.popScope,grows⟩

theorem Alike.popScope (alike : Alike f known v w s t) : Alike f known v w s.popScope t.popScope := by
  obtain ⟨f',known',mirrors,rest⟩ := alike
  exact ⟨f',known',mirrors.popScope,rest⟩

theorem Tallies.inScope {operation : HeapM α} {operation' : HeapM β} {post post' : α → β → Heap → Heap → Prop}
    (tallies : Tallies (Calm known h.pushScope k.pushScope) (Still f known) post (operation s.pushScope) (operation' t.pushScope))
    (close : ∀ a b s t, post a b s t → post' a b s.popScope t.popScope) :
    Tallies (Calm known h k) (Still f known) post' (inScope operation s) (inScope operation' t) := by
  have inner : ∀ u v : Heap, Calm known h k u.popScope v.popScope → Calm known h.pushScope k.pushScope u v := by
    intro u v calm
    refine calm.imp (fun kept r here => (pushScope_extends h).survives (kept r here)) fun quiet => ?_
    rwa [(popScope_apart u).history,(popScope_apart v).history] at quiet
  simp only [Heap.inScope]
  cases left : operation s.pushScope with
  | ok a u =>
      cases right : operation' t.pushScope with
      | ok b v =>
          rw [left,right] at tallies
          exact fun calm => close a b u v (tallies (inner u v calm))
      | error e v =>
          rw [left,right] at tallies
          exact fun calm => tallies (inner u v calm)
  | error e u =>
      cases right : operation' t.pushScope with
      | ok b v =>
          rw [left,right] at tallies
          exact fun calm => tallies (inner u v calm)
      | error e' v =>
          rw [left,right] at tallies
          exact fun calm => (tallies (inner u v calm)).imp id Still.popScope

theorem updateList_roots {change : ListObject → ListObject} (done : updateList v change s = .ok a u) : SameRoots s u := by
  unfold updateList at done
  split at done
  · cases done
  · rename_i r _
    cases done
    split
    · exact ⟨rfl,rfl,rfl,rfl,rfl,rfl⟩
    · exact .trans (show SameRoots s (s.modifyList r change) from ⟨rfl,rfl,rfl,rfl,rfl,rfl⟩) (recharge_roots _ r)

theorem pushStrings_tallies (pieces : List String) (abreast : Abreast f₀ known₀ h k f known s t) (spared : Spared h s) (fresh : ¬ h.Survives r)
    (held : .list r ∈ s.shadow) (here : known r) (same : f r = q) :
    Tallies (Calm known₀ h k) (Still f₀ known₀) (fun _ _ => Alike f₀ known₀ (.list r) (.list q)) (pushStrings (.list r) pieces s)
      (pushStrings (.list q) pieces t) := by
  induction pieces generalizing f known s t with
  | nil =>
      subst same
      exact .pure ((abreast.mirrors.alike fun p handle => by cases handle; exact here).since abreast.grows)
  | cons piece rest ih =>
      have intact := abreast.mirrors.intact
      have image := abreast.mirrors.image
      have writes : Performs (fun _ => True) (newString piece) := newString_acts piece
      have pushes : ∀ out item, Performs (fun _ => True) (listPush out item) := fun out item => updateList_acts out _
      have more : ∀ out, Performs (fun _ => True) (pushStrings out rest) := fun out => pushStrings_acts out rest
      have whole : ∀ out item, Performs (fun _ => True) (listPush out item >>= fun _ => pushStrings out rest) := fun out item =>
        (pushes out item).bind fun _ => more out
      refine (abreast.tallies (newString_alike abreast.mirrors piece)).halves
        (fun item u done => (whole _ item).later ((writes.forward done).intact intact))
        (fun item v done => (whole _ item).later ((writes.forward done).intact image)) ?_
      rintro item _ u v done done' ⟨f',known',mirrors,grows,rfl,within⟩
      have made := ((newString_spares piece s intact).ok done).1
      have there : known' r := (grows r here).1
      have image' : q = f' r := same.symm.trans (grows r here).2.symm
      subst image'
      have listed : Value.Within known' (.list r) := fun p handle => by cases handle; exact there
      have grown : ∀ p, known₀ p → known' p ∧ f' p = f₀ p := fun p known =>
        ⟨(grows p (abreast.grows p known).1).1,(grows p (abreast.grows p known).1).2.trans (abreast.grows p known).2⟩
      refine ((listPush_same mirrors listed within).mono (fun _ _ still => still.since grown) fun _ _ _ _ => id).halves
        (fun _ u' pushed => (more _).later (((pushes _ item).forward pushed).intact mirrors.intact))
        (fun _ v' pushed => (more _).later (((pushes _ _).forward pushed).intact mirrors.image)) ?_
      rintro _ _ u' v' pushed pushed' ⟨_,f'',known'',mirrors',grows'⟩
      have spared' := ((updateList_spared _ (spared.trans made) fresh).ok pushed).1
      have held' : .list r ∈ u'.shadow := by
        rw [(updateList_roots pushed).shadow]
        exact made.extension.shadow held
      have there' := (grows' r there).1
      have abreast' : Abreast f₀ known₀ h k f'' _ u' v' := .again mirrors'
        (fun p known => ⟨(grows' p (grown p known).1).1,(grows' p (grown p known).1).2.trans (grown p known).2⟩)
        (fun spare p known => spared'.extension.survives (spare p known))
        ⟨Nat.le_trans abreast.later.1 (Nat.le_trans (writes.since intact done) ((pushes _ item).since mirrors.intact pushed)),
          Nat.le_trans abreast.later.2 (Nat.le_trans (writes.since image done') ((pushes _ _).since mirrors.image pushed'))⟩
      exact ih abreast' spared' held' ⟨there',fun _ => Or.inr (.root (.shadow held') rfl (mirrors'.live there'))⟩ (grows' r there).2

-- A container made in both runs, not yet protected.
def Fresh (f : Handle → Handle) (known : Handle → Prop) (h : Heap) (make : Handle → Value) (v w : Value) (s t : Heap) : Prop :=
  ∃ r q, v = make r ∧ w = make q ∧ Mirrors (Function.update f r q) (fun p => known p ∨ p = r) s t ∧
    ∀ p, known p → p ≠ r ∧ s.object? p = h.object? p

theorem newList_fresh (mirrors : Mirrors f known h k) (capacity : Nat) :
    Tallies (Calm known h k) (Still f known) (Fresh f known h .list) (newList capacity h) (newList capacity k) := by
  have empty : (Object.list (.ofItems #[] capacity)).rename f = .list (.ofItems #[] capacity) := by
    simp [Object.rename,ListObject.rename,ListObject.ofItems]
  have made := allocate_tallies (.list (.ofItems #[] capacity)) mirrors (fun v refers => ?_) (sane_list _) (sane_list _)
  · rw [empty] at made
    exact .map (made.mono (fun _ _ => id) fun r q s t both => ⟨r,q,rfl,rfl,both⟩)
  · cases refers with
    | item member => simp [ListObject.ofItems] at member

theorem newMap_fresh (mirrors : Mirrors f known h k) (capacity : Nat) :
    Tallies (Calm known h k) (Still f known) (Fresh f known h .map) (newMap capacity h) (newMap capacity k) := by
  have sane := sane_map (Table.withCapacity_valid capacity)
  have made := allocate_tallies (.map (.withCapacity capacity)) mirrors (fun v refers => blank_refers refers) sane (by rwa [blank_rename])
  rw [blank_rename] at made
  exact .map (made.mono (fun _ _ => id) fun r q s t both => ⟨r,q,rfl,rfl,both⟩)

theorem Fresh.abreast {make : Handle → Value} (fresh : Fresh f known h make v w s t) (handle : ∀ r, (make r).handle? = some r)
    (renames : ∀ g r, (make r).rename g = make (g r)) (spared : Spared h s) (roots : SameRoots h s)
    (later : h.history.size ≤ s.history.size ∧ k.history.size ≤ t.history.size) :
    ∃ r q f' known', v = make r ∧ w = make q ∧ known' r ∧ f' r = q ∧
      Abreast f known h.pushScope k.pushScope f' known' (s.pushScope.protect v) (t.pushScope.protect w) ∧
      Spared h.pushScope (s.pushScope.protect v) := by
  obtain ⟨r,q,rfl,rfl,mirrors,new⟩ := fresh
  have opened := spared.pushScope roots.balanced
  have held := opened.trans (protect_spared opened.intact (make r))
  have within : (make r).Within fun p => known p ∨ p = r := by
    intro p here
    rw [handle] at here
    cases here
    exact Or.inr rfl
  have protected_ := mirrors.pushScope.protect within
  rw [renames,Function.update_self] at protected_
  have grows : ∀ p, known p → (known p ∨ p = r) ∧ Function.update f r q p = f p := fun p here =>
    ⟨Or.inl here,Function.update_of_ne (new p here).1 _ _⟩
  refine ⟨r,q,_,_,rfl,rfl,Or.inr rfl,Function.update_self _ _ _,⟨protected_,grows,?_,later⟩,held⟩
  intro spare p here
  rcases here with here | rfl
  · exact held.extension.survives (spare p here)
  · exact Or.inr (.root (.shadow List.mem_cons_self) (handle p) (protected_.live (Or.inr rfl)))

theorem stringSplit_alike (mirrors : Mirrors f known h k) (within : v.Within known) (right : w.Within known) :
    Tallies (Calm known h k) (Still f known) (Alike f known) (stringSplit v w h) (stringSplit (v.rename f) (w.rename f) k) := by
  refine textOf_tallies mirrors within mirrors.still fun text => textOf_tallies mirrors right mirrors.still fun pattern => ?_
  have makes : Performs (fun _ => True) (newList (Text.split text pattern).length) := newListOf_acts _ _
  have fills : ∀ out : Value, Performs (fun _ => True) (do
      inScope do
        modify (·.protect out)
        pushStrings out (Text.split text pattern)
      pure out) := fun out => (Does.inScope ((protecting_acts out).bind fun _ => pushStrings_acts out _)).bind fun _ => .pure out
  refine (newList_fresh mirrors _).halves (fun out s done => (fills out).later ((makes.forward done).intact mirrors.intact))
    (fun out t done => (fills out).later ((makes.forward done).intact mirrors.image)) ?_
  intro _ _ s t done done' fresh
  obtain ⟨spared,r',rfl,_,unseen,roots⟩ := (newListOf_spared _ _ mirrors.intact).ok done
  obtain ⟨r,q,f',known',same,rfl,here,image,abreast,held⟩ := fresh.abreast (fun _ => rfl) (fun _ _ => rfl) spared roots
    ⟨makes.since mirrors.intact done,makes.since mirrors.image done'⟩
  cases same
  have inner := pushStrings_tallies (Text.split text pattern) abreast held (pushScope_fresh unseen) List.mem_cons_self here image
  have whole : Tallies (Calm known h k) (Still f known) (fun _ _ => Alike f known (.list r') (.list q))
      (inScope (do modify (·.protect (.list r')); pushStrings (.list r') (Text.split text pattern)) s)
      (inScope (do modify (·.protect (.list q)); pushStrings (.list q) (Text.split text pattern)) t) :=
    Tallies.inScope inner fun _ _ _ _ => Alike.popScope
  exact whole.halves (fun _ _ _ => Nat.le_refl _) (fun _ _ _ => Nat.le_refl _) fun _ _ u v _ _ alike => .pure alike

end RegisterMachine.Heap
