import RegisterMachine.Proofs.Heap.Actions
import RegisterMachine.Proofs.Heap.Scopes

namespace RegisterMachine.Heap

-- No scope starts above a later one, and none above what is protected now.
def Grounded (h : Heap) : Prop := (h.shadow.length :: h.scopes).Pairwise (· ≥ ·)

-- A live object that a persistent root holds.
def Anchored (h : Heap) (r : Handle) : Prop := h.isLive r = true ∧ ∃ v, some v ∈ h.roots ∧ v.handle? = some r

structure Tended (level : Prop) (h h' : Heap) : Prop where
  intact : h.Intact → h'.Intact
  nested : h.Grounded → Nested h h'
  shadow : level → h.Grounded → h'.shadow = h.shadow
  roots : h'.roots = h.roots
  freeRoots : h'.freeRoots = h.freeRoots
  callbacks : h'.callbacks = h.callbacks
  anchored : h.Intact → ∀ r, h.Anchored r → h'.Anchored r

theorem Grounded.opened {h : Heap} (grounded : h.Grounded) : h.scopes.headD 0 ≤ h.shadow.length := by
  unfold Grounded at grounded
  cases scopes : h.scopes with
  | nil => exact Nat.zero_le _
  | cons start rest =>
      rw [scopes] at grounded
      exact (List.pairwise_cons.mp grounded).1 start List.mem_cons_self

theorem Nested.grounded (nested : Nested h h') (grounded : h.Grounded) : h'.Grounded := by
  obtain ⟨above,ordered⟩ := List.pairwise_cons.mp grounded
  unfold Grounded
  rw [nested.scopes]
  apply List.pairwise_cons.mpr ⟨_,ordered⟩
  intro start member
  exact (above start member).trans nested.shadow.length_le

theorem Tended.grounded (tended : Tended level h h') (grounded : h.Grounded) : h'.Grounded :=
  (tended.nested grounded).grounded grounded

theorem Tended.balanced (tended : Tended True h h') (grounded : h.Grounded) : Balanced h h' :=
  ⟨(tended.nested grounded).scopes,tended.shadow trivial grounded⟩

theorem Tended.refl (h : Heap) : Tended level h h :=
  ⟨id,fun _ => .refl h,fun _ _ => rfl,rfl,rfl,rfl,fun _ _ anchored => anchored⟩

theorem Tended.trans (first : Tended level h h') (second : Tended level h' h'') : Tended level h h'' where
  intact := second.intact ∘ first.intact
  nested := fun grounded => (first.nested grounded).trans (second.nested (first.grounded grounded))
  shadow := fun still grounded => (second.shadow still (first.grounded grounded)).trans (first.shadow still grounded)
  roots := second.roots.trans first.roots
  freeRoots := second.freeRoots.trans first.freeRoots
  callbacks := second.callbacks.trans first.callbacks
  anchored := fun intact r anchored => second.anchored (first.intact intact) r (first.anchored intact r anchored)

-- Changes that leave the roots and the protected values as they are, and free nothing.
structure Abides (h h' : Heap) : Prop where
  balanced : Balanced h h'
  roots : h'.roots = h.roots
  freeRoots : h'.freeRoots = h.freeRoots
  callbacks : h'.callbacks = h.callbacks
  live : ∀ r, h.isLive r = true → h'.isLive r = true

theorem Abides.refl (h : Heap) : Abides h h := ⟨.refl h,rfl,rfl,rfl,fun _ live => live⟩

theorem Abides.trans (first : Abides h h') (second : Abides h' h'') : Abides h h'' :=
  ⟨first.balanced.trans second.balanced,second.roots.trans first.roots,second.freeRoots.trans first.freeRoots,
    second.callbacks.trans first.callbacks,fun r live => second.live r (first.live r live)⟩

theorem Abides.tended (abides : Abides h h') (intact : h.Intact → h'.Intact) : Tended level h h' where
  intact := intact
  nested := fun _ => abides.balanced.nested
  shadow := fun _ _ => abides.balanced.shadow
  roots := abides.roots
  freeRoots := abides.freeRoots
  callbacks := abides.callbacks
  anchored := fun _ r anchored => ⟨abides.live r anchored.1,abides.roots ▸ anchored.2⟩

theorem SameRoots.abides (same : SameRoots h h') (objects : ∀ r, h.isLive r = true → h'.isLive r = true) : Abides h h' :=
  ⟨same.balanced,same.roots,same.freeRoots,same.callbacks,objects⟩

theorem modifyObject_abides (h : Heap) (r : Handle) (change : Object → Object) : Abides h (h.modifyObject r change) := by
  refine ⟨⟨rfl,rfl⟩,rfl,rfl,rfl,fun q live => ?_⟩
  obtain ⟨object,present⟩ := Option.isSome_iff_exists.mp live
  obtain ⟨slot,there,generation,content⟩ := object?_slot.mp present
  by_cases here : r.index = q.index
  · have later : (h.modifyObject r change).object? q = some (change object) := by
      apply object?_slot.mpr
      exact ⟨{ slot with object := slot.object.map change },by simp [modifyObject,changeContent,Array.getElem?_modify,there,here],generation,by rw [content]; rfl⟩
    rw [isLive,later]
    rfl
  · have later : (h.modifyObject r change).object? q = some object := by
      apply object?_slot.mpr
      exact ⟨slot,by simp [modifyObject,Array.getElem?_modify,there,here],generation,content⟩
    rw [isLive,later]
    rfl

theorem registers_abides (h : Heap) (registers : Array Register) : Abides h { h with registers } :=
  ⟨⟨rfl,rfl⟩,rfl,rfl,rfl,fun _ live => live⟩

theorem recharge_abides (h : Heap) (r : Handle) : Abides h (h.recharge r) := by
  apply (recharge_roots h r).abides
  intro q live
  rwa [isLive,recharge_object]

theorem freeze_abides (h : Heap) (v : Value) : Abides h (h.freeze v) := by
  refine ⟨⟨rfl,rfl⟩,rfl,rfl,rfl,fun q live => ?_⟩
  rw [isLive,freeze_object,Option.isSome_map]
  exact live

def Tends (level : Prop) (operation : HeapM α) : Prop := ∀ h, Tended level h (after operation h)

namespace Tends

theorem pure (a : α) : Tends level (Pure.pure a : HeapM α) := fun h => .refl h

theorem throw (e : Error) : Tends level (MonadExcept.throw e : HeapM α) := fun h => .refl h

theorem get_bind {rest : Heap → HeapM β} (follows : ∀ h, Tends level (rest h)) : Tends level (MonadState.get >>= rest) :=
  fun h => follows h h

theorem bind {first : HeapM α} {rest : α → HeapM β} (tends : Tends level first) (follows : ∀ a, Tends level (rest a)) :
    Tends level (first >>= rest) := by
  intro h
  have start := tends h
  rcases after_bind first rest h with stopped | ⟨a,_,next⟩
  · rw [stopped]
    exact start
  · rw [next]
    exact start.trans (follows a _)

theorem map {operation : HeapM α} (f : α → β) (tends : Tends level operation) : Tends level (f <$> operation) := by
  intro h
  rw [after_map]
  exact tends h

theorem edit {operation : HeapM α} (performs : Performs (fun _ => True) operation) (abides : ∀ h, Abides h (after operation h)) :
    Tends level operation :=
  fun h => (abides h).tended (performs h (.all h)).intact

end Tends

theorem protect_tended (h : Heap) (v : Value) : Tended False h (h.protect v) where
  intact := (Step.apart (protect_apart h v)).intact
  nested := fun _ => ⟨rfl,List.suffix_cons v h.shadow⟩
  shadow := fun impossible => impossible.elim
  roots := rfl
  freeRoots := rfl
  callbacks := rfl
  anchored := fun _ _ anchored => anchored

theorem protecting_tends (v : Value) : Tends False (modify (·.protect v)) := fun h => protect_tended h v

theorem pushScope_grounded {h : Heap} (grounded : h.Grounded) : h.pushScope.Grounded := by
  apply List.pairwise_cons.mpr ⟨_,grounded⟩
  intro start member
  cases member with
  | head => exact Nat.le_refl _
  | tail _ member => exact (List.pairwise_cons.mp grounded).1 start member

theorem popScope_roots (h : Heap) : h.popScope.roots = h.roots ∧ h.popScope.freeRoots = h.freeRoots ∧ h.popScope.callbacks = h.callbacks := by
  unfold popScope
  split <;> exact ⟨rfl,rfl,rfl⟩

theorem Tended.close (tended : Tended False h.pushScope s) : Tended level h s.popScope := by
  have closed := fun grounded : h.Grounded => popScope_nested (tended.nested (pushScope_grounded grounded))
  obtain ⟨roots,freeRoots,callbacks⟩ := s.popScope_roots
  refine ⟨fun intact => ?_,fun grounded => ?_,fun _ grounded => ?_,roots.trans tended.roots,freeRoots.trans tended.freeRoots,
    callbacks.trans tended.callbacks,fun intact r anchored => ?_⟩
  · exact (Step.apart (popScope_apart s)).intact (tended.intact ((Step.apart (pushScope_apart h)).intact intact))
  · rw [closed grounded]
    exact ⟨rfl,List.suffix_refl _⟩
  · rw [closed grounded]
  · obtain ⟨live,held⟩ := tended.anchored ((Step.apart (pushScope_apart h)).intact intact) r anchored
    rw [Anchored,roots,isLive,object?_slots (popScope_apart s).slots]
    exact ⟨live,held⟩

theorem Tends.inScope {operation : HeapM α} (tends : Tends False operation) : Tends level (inScope operation) := by
  intro h
  rw [after_inScope]
  exact (tends h.pushScope).close

theorem unprotect_roots (h : Heap) :
    h.unprotect.2.roots = h.roots ∧ h.unprotect.2.freeRoots = h.freeRoots ∧ h.unprotect.2.callbacks = h.callbacks := by
  unfold unprotect
  split
  · split <;> exact ⟨rfl,rfl,rfl⟩
  · exact ⟨rfl,rfl,rfl⟩

theorem Tended.unprotect (tended : Tended True (h.protect v) s) : Tended level h s.unprotect.2 := by
  have released : h.Grounded → s.unprotect.2 = { s with shadow := h.shadow } := by
    intro grounded
    have protect := (protect_tended h v).grounded grounded
    exact unprotect_balanced grounded.opened (tended.nested protect).scopes (tended.shadow trivial protect)
  have apart := unprotect_apart s
  have roots := s.unprotect_roots
  refine ⟨fun intact => ?_,fun grounded => ?_,fun _ grounded => ?_,roots.1.trans tended.roots,roots.2.1.trans tended.freeRoots,
    roots.2.2.trans tended.callbacks,fun intact r anchored => ?_⟩
  · exact (Step.apart apart).intact (tended.intact ((protect_tended h v).intact intact))
  · rw [released grounded]
    exact ⟨(tended.nested ((protect_tended h v).grounded grounded)).scopes,List.suffix_refl _⟩
  · rw [released grounded]
  · obtain ⟨live,held⟩ := tended.anchored ((protect_tended h v).intact intact) r anchored
    rw [Anchored,roots.1,isLive,object?_slots apart.slots]
    exact ⟨live,held⟩

theorem Swept.tended (swept : Swept h h') : Tended level h h' where
  intact := swept.steps.intact
  nested := fun _ => (Swept.roots swept).balanced.nested
  shadow := fun _ _ => (Swept.roots swept).shadow
  roots := (Swept.roots swept).roots
  freeRoots := (Swept.roots swept).freeRoots
  callbacks := (Swept.roots swept).callbacks
  anchored := by
    intro intact r anchored
    obtain ⟨live,v,member,handle⟩ := anchored
    obtain ⟨object,present⟩ := Option.isSome_iff_exists.mp live
    have kept := Swept.rooted swept intact (.persistent member) handle present
    refine ⟨?_,v,(Swept.roots swept).roots ▸ member,handle⟩
    rw [isLive,kept]
    rfl

theorem Installed.tended {object : Object} (installed : h.Intact → Installed h object charge immortal r h') (roots : SameRoots h h')
    (intact : h.Intact → h'.Intact) : Tended level h h' where
  intact := intact
  nested := fun _ => roots.balanced.nested
  shadow := fun _ _ => roots.shadow
  roots := roots.roots
  freeRoots := roots.freeRoots
  callbacks := roots.callbacks
  anchored := by
    intro whole q anchored
    obtain ⟨other,present⟩ := Option.isSome_iff_exists.mp anchored.1
    refine ⟨?_,roots.roots ▸ anchored.2⟩
    rw [isLive,(installed whole).kept_object present]
    rfl

theorem allocate_tends {object : Object} (sane : object.Sane) : Tends level (allocate object) := by
  intro h
  obtain ⟨s,swept,⟨_,failed⟩ | ⟨room,done⟩⟩ := allocate_parts object h
  · simp only [after,failed]
    exact Swept.tended swept
  · simp only [after,done]
    refine (Swept.tended swept).trans (Installed.tended (fun intact => allocated_installed intact object) (allocated_roots s object) ?_)
    exact (Step.install sane room).intact

theorem intern_roots (h : Heap) (text : String) : SameRoots h (h.intern text).2 := by
  unfold intern
  split
  · exact .refl h
  · split
    · exact .refl h
    · obtain ⟨shadow,scopes,roots,freeRoots,callbacks,registers⟩ := install_roots h (.str text) 0 true
      exact ⟨shadow,scopes,roots,freeRoots,callbacks,registers⟩

theorem intern_tended (h : Heap) (text : String) : Tended level h (h.intern text).2 where
  intact := intern_intact text
  nested := fun _ => (intern_roots h text).balanced.nested
  shadow := fun _ _ => (intern_roots h text).shadow
  roots := (intern_roots h text).roots
  freeRoots := (intern_roots h text).freeRoots
  callbacks := (intern_roots h text).callbacks
  anchored := by
    intro intact q anchored
    refine ⟨?_,(intern_roots h text).roots ▸ anchored.2⟩
    rcases intern_changes text intact with same | ⟨_,_,installed,_⟩
    · rw [same]
      exact anchored.1
    · obtain ⟨other,present⟩ := Option.isSome_iff_exists.mp anchored.1
      rw [isLive,installed.kept_object present]
      rfl

theorem interning_tends (text : String) : Tends level (interning text) := fun h => intern_tended h text

end RegisterMachine.Heap
