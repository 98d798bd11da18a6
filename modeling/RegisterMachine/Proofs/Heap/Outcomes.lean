import RegisterMachine.Proofs.Heap.Safety

namespace RegisterMachine

theorem get_ok {ε σ : Type} (s : σ) : (get : EStateM ε σ σ) s = .ok s s := rfl

theorem modify_ok {ε σ : Type} (change : σ → σ) (s : σ) : (modify change : EStateM ε σ PUnit) s = .ok ⟨⟩ (change s) := rfl

theorem bind_ok {ε σ α β : Type} {first : EStateM ε σ α} {rest : α → EStateM ε σ β} {s t : σ} {b : β}
    (done : (first >>= rest) s = .ok b t) : ∃ a s', first s = .ok a s' ∧ rest a s' = .ok b t := by
  simp only [Bind.bind,EStateM.bind] at done
  cases start : first s with
  | ok a s' =>
      rw [start] at done
      exact ⟨a,s',rfl,done⟩
  | error e s' =>
      rw [start] at done
      cases done

theorem bind_error {ε σ α β : Type} {first : EStateM ε σ α} {rest : α → EStateM ε σ β} {s t : σ} {e : ε}
    (failed : (first >>= rest) s = .error e t) : first s = .error e t ∨ ∃ a s', first s = .ok a s' ∧ rest a s' = .error e t := by
  simp only [Bind.bind,EStateM.bind] at failed
  cases start : first s with
  | ok a s' =>
      rw [start] at failed
      exact Or.inr ⟨a,s',rfl,failed⟩
  | error e' s' =>
      rw [start] at failed
      cases failed
      exact Or.inl rfl

def result? {ε σ α : Type} : EStateM.Result ε σ α → Option (α × σ)
  | .ok a s => some (a,s)
  | .error _ _ => none

def failure? {ε σ α : Type} : EStateM.Result ε σ α → Option ε
  | .ok _ _ => none
  | .error e _ => some e

theorem result?_some {ε σ α : Type} {outcome : EStateM.Result ε σ α} {a : α} {s : σ} (found : result? outcome = some (a,s)) :
    outcome = .ok a s := by
  cases outcome with
  | ok a s =>
      cases found
      rfl
  | error e s => cases found

theorem failure?_some {ε σ α : Type} {outcome : EStateM.Result ε σ α} {e : ε} (found : failure? outcome = some e) :
    ∃ s, outcome = .error e s := by
  cases outcome with
  | ok a s => cases found
  | error e' s =>
      cases found
      exact ⟨s,rfl⟩

-- Every outcome satisfies `always`, a result also `post`, and no failure is a stale reference.
def Meets (operation : EStateM Error σ α) (s : σ) (always : σ → Prop) (post : α → σ → Prop) : Prop :=
  match operation s with
  | .ok a s' => always s' ∧ post a s'
  | .error e s' => e ≠ .staleReference ∧ always s'

namespace Meets

theorem pure {a : α} {always : σ → Prop} {post : α → σ → Prop} (kept : always s) (holds : post a s) :
    Meets (Pure.pure a) s always post := ⟨kept,holds⟩

theorem throw {e : Error} {always : σ → Prop} {post : α → σ → Prop} (kept : always s) (other : e ≠ .staleReference) :
    Meets (MonadExcept.throw e) s always post := ⟨other,kept⟩

theorem bind {first : EStateM Error σ α} {rest : α → EStateM Error σ β} {always : σ → Prop}
    {middle : α → σ → Prop} {post : β → σ → Prop} (meets : Meets first s always middle)
    (follows : ∀ a s', always s' → middle a s' → Meets (rest a) s' always post) :
    Meets (first >>= rest) s always post := by
  unfold Meets at meets
  cases result : first s with
  | ok a s' =>
      rw [result] at meets
      have later := follows a s' meets.1 meets.2
      simp only [Meets,Bind.bind,EStateM.bind,result] at later ⊢
      exact later
  | error e s' =>
      rw [result] at meets
      simpa only [Meets,Bind.bind,EStateM.bind,result] using meets

theorem map {operation : EStateM Error σ α} {f : α → β} {always : σ → Prop} {post : β → σ → Prop}
    (meets : Meets operation s always fun a s' => post (f a) s') : Meets (f <$> operation) s always post := by
  unfold Meets at meets
  cases result : operation s with
  | ok a s' =>
      rw [result] at meets
      simpa only [Meets,Functor.map,EStateM.map,result] using meets
  | error e s' =>
      rw [result] at meets
      simpa only [Meets,Functor.map,EStateM.map,result] using meets

theorem mono {operation : EStateM Error σ α} {always always' : σ → Prop} {post post' : α → σ → Prop}
    (meets : Meets operation s always post) (wider : ∀ s', always s' → always' s')
    (weaker : ∀ a s', always s' → post a s' → post' a s') : Meets operation s always' post' := by
  unfold Meets at meets ⊢
  split at meets
  · exact ⟨wider _ meets.1,weaker _ _ meets.1 meets.2⟩
  · exact ⟨meets.1,wider _ meets.2⟩

theorem imp {operation : EStateM Error σ α} {always : σ → Prop} {post post' : α → σ → Prop}
    (meets : Meets operation s always post) (weaker : ∀ a s', always s' → post a s' → post' a s') :
    Meets operation s always post' :=
  meets.mono (fun _ holds => holds) weaker

theorem done {operation : EStateM Error σ α} {always : σ → Prop} {post : α → σ → Prop} (meets : Meets operation s always post) :
    Meets operation s always fun _ _ => True := meets.imp fun _ _ _ _ => trivial

-- A later operation seen from where an earlier one began.
theorem since {operation : EStateM Error σ α} {always always' : σ → Prop} {post : α → σ → Prop}
    (meets : Meets operation s always post) (wider : ∀ s', always s' → always' s') :
    Meets operation s always' fun a s' => always s' ∧ post a s' :=
  meets.mono wider fun _ _ later holds => ⟨later,holds⟩

theorem get_bind {rest : σ → EStateM Error σ β} {always : σ → Prop} {post : β → σ → Prop}
    (follows : Meets (rest s) s always post) : Meets (MonadState.get >>= rest) s always post := follows

theorem modify_bind {change : σ → σ} {rest : PUnit → EStateM Error σ β} {always : σ → Prop} {post : β → σ → Prop}
    (follows : Meets (rest ⟨⟩) (change s) always post) : Meets (modify change >>= rest) s always post :=
  follows

theorem throw_bind {e : Error} {rest : α → EStateM Error σ β} {always : σ → Prop} {post : β → σ → Prop} (kept : always s)
    (other : e ≠ .staleReference) : Meets (MonadExcept.throw e >>= rest) s always post := ⟨other,kept⟩

end Meets

namespace Heap

-- A heap after an operation that only allocates: safe, with the survivors and all roots as before.
structure Grown (h h' : Heap) : Prop where
  safe : h'.Safe
  extension : Extends h h'
  balanced : Balanced h h'

theorem Grown.refl {h : Heap} (safe : h.Safe) : Grown h h := ⟨safe,.refl h,.refl h⟩

theorem Grown.trans (first : Grown h h') (second : Grown h' h'') : Grown h h'' :=
  ⟨second.safe,first.extension.trans second.extension,first.balanced.trans second.balanced⟩

-- The roots other than registers are as before, and what never goes away is still there.
structure Steady (h h' : Heap) : Prop where
  roots : h'.roots = h.roots
  freeRoots : h'.freeRoots = h.freeRoots
  callbacks : h'.callbacks = h.callbacks
  shadow : h'.shadow = h.shadow
  scopes : h'.scopes = h.scopes
  immortal : ∀ r, h.Immortal r → h'.Immortal r

theorem Steady.refl (h : Heap) : Steady h h := ⟨rfl,rfl,rfl,rfl,rfl,fun _ immortal => immortal⟩

theorem Steady.trans (first : Steady h h') (second : Steady h' h'') : Steady h h'' :=
  ⟨second.roots.trans first.roots,second.freeRoots.trans first.freeRoots,second.callbacks.trans first.callbacks,
    second.shadow.trans first.shadow,second.scopes.trans first.scopes,
    fun r immortal => second.immortal r (first.immortal r immortal)⟩

theorem Grown.steady (grown : Grown h h') : Steady h h' :=
  ⟨grown.extension.roots,grown.extension.freeRoots,grown.extension.callbacks,grown.balanced.shadow,grown.balanced.scopes,
    grown.extension.immortal⟩

-- A heap after an operation that allocates nothing: whatever was sound still is.
structure Edited (h h' : Heap) : Prop where
  safe : h'.Safe
  sound : ∀ v, h.Sound v → h'.Sound v
  steady : Steady h h'

theorem Edited.refl {h : Heap} (safe : h.Safe) : Edited h h := ⟨safe,fun _ sound => sound,.refl h⟩

theorem Edited.trans (first : Edited h h') (second : Edited h' h'') : Edited h h'' :=
  ⟨second.safe,fun v sound => second.sound v (first.sound v sound),first.steady.trans second.steady⟩

-- A heap after any operation: what no collection could free is still sound.
structure Continues (h h' : Heap) : Prop where
  safe : h'.Safe
  sound : ∀ v, h.Kept v → h'.Sound v
  steady : Steady h h'

theorem Grown.continues (grown : Grown h h') : Continues h h' :=
  ⟨grown.safe,fun _ kept => (grown.extension.kept kept).1,grown.steady⟩

theorem Edited.continues (edited : Edited h h') : Continues h h' :=
  ⟨edited.safe,fun v kept => edited.sound v kept.1,edited.steady⟩

theorem Grown.edited (grown : Grown h h') (edited : Edited h' h'') : Continues h h'' :=
  ⟨edited.safe,fun v kept => edited.sound v (grown.extension.kept kept).1,grown.steady.trans edited.steady⟩

-- Values that never go away: those without a handle, and interned strings.
def Permanent (h : Heap) (v : Value) : Prop :=
  v.handle? = none ∨ ∃ r, v = .str r ∧ h.Immortal r

theorem Permanent.kept {h : Heap} (permanent : h.Permanent v) (intact : h.Intact) : h.Kept v := by
  rcases permanent with plain | ⟨r,rfl,immortal⟩
  · exact kept_plain h plain
  · refine ⟨?_,?_⟩
    · intro q handle
      cases handle
      obtain ⟨slot,present,generation,set⟩ := immortal
      obtain ⟨text,content⟩ := intact.eternal _ slot present set
      exact ⟨_,object?_slot.mpr ⟨slot,present,generation,content⟩,.str⟩
    · intro q handle
      cases handle
      exact Or.inl immortal

theorem Permanent.later {h h' : Heap} (permanent : h.Permanent v) (still : ∀ r, h.Immortal r → h'.Immortal r) :
    h'.Permanent v := by
  rcases permanent with plain | ⟨r,same,immortal⟩
  · exact Or.inl plain
  · exact Or.inr ⟨r,same,still r immortal⟩

theorem allocate_meets {h : Heap} {object : Object} (safe : h.Safe) (sane : object.Sane)
    (refs : ∀ v, object.Refers v → h.Kept v) :
    Meets (allocate object) h (Grown h) fun r s => s.object? r = some object ∧ ¬ h.Survives r := by
  obtain ⟨s,swept,⟨_,failed⟩ | ⟨room,made⟩⟩ := allocate_parts object h
  · obtain ⟨kept,extension,balanced⟩ := swept.safe safe
    rw [Meets,failed]
    exact ⟨Error.noConfusion,kept,extension,balanced⟩
  · obtain ⟨kept,extension,balanced⟩ := swept.safe safe
    have installed := allocated_installed kept.toIntact object
    have roots := s.allocated_roots object
    have intact : (s.allocated object).2.Intact := (Step.install sane room).intact kept.toIntact
    rw [Meets,made]
    refine ⟨⟨installed.safe kept intact roots ?_,?_,balanced.trans roots.balanced⟩,installed.object,?_⟩
    · exact fun v refers => (extension.kept (refs v refers)).1
    · exact extension.trans (installed.extends kept.toIntact roots)
    · exact extension.fresh (installed.fresh kept.toIntact)

theorem interning_meets {h : Heap} (text : String) (safe : h.Safe) :
    Meets (interning text) h (Grown h) fun v s => s.Permanent v := by
  have intact := intern_intact text safe.toIntact
  unfold Meets interning
  rcases intern_cases text safe.toIntact with ⟨t,_,same⟩ | ⟨r,found,same⟩ | ⟨r,h',same,installed,roots,_⟩
  · rw [same]
    exact ⟨.refl safe,Or.inl rfl⟩
  · obtain ⟨slot,present,generation,immortal,_⟩ := safe.interned text r found
    rw [same]
    exact ⟨.refl safe,Or.inr ⟨r,rfl,slot,present,generation,immortal⟩⟩
  · rw [same] at intact ⊢
    refine ⟨⟨installed.safe safe intact roots ?_,installed.extends safe.toIntact roots,roots.balanced⟩,?_⟩
    · intro v refers
      cases refers
    · exact Or.inr ⟨r,rfl,_,by rw [installed.slots,if_pos rfl],rfl,rfl⟩

end Heap

end RegisterMachine
