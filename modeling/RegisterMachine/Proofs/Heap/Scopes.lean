import RegisterMachine.Proofs.Heap.Outcomes

namespace RegisterMachine.Heap

-- More may be protected than at the start, and objects made since may have changed.
structure Opened (h h' : Heap) : Prop where
  safe : h'.Safe
  extension : Extends h h'
  nested : Nested h h'

theorem Opened.refl {h : Heap} (safe : h.Safe) : Opened h h := ⟨safe,.refl h,.refl h⟩

theorem Opened.trans (first : Opened h h') (second : Opened h' h'') : Opened h h'' :=
  ⟨second.safe,first.extension.trans second.extension,first.nested.trans second.nested⟩

theorem Grown.opened (grown : Grown h h') : Opened h h' := ⟨grown.safe,grown.extension,grown.balanced.nested⟩

theorem protect_root {h : Heap} (root : (h.protect v).IsRoot w) : w = v ∨ h.IsRoot w := by
  cases root with
  | shadow member =>
      rcases List.mem_cons.mp member with same | before
      · exact Or.inl same
      · exact Or.inr (.shadow before)
  | persistent member => exact Or.inr (.persistent member)
  | register member => exact Or.inr (.register member)
  | name member => exact Or.inr (.name member)
  | callback member marked => exact Or.inr (.callback member marked)

theorem protect_safe {h : Heap} (safe : h.Safe) (sound : h.Sound v) : (h.protect v).Safe := by
  refine safe.reroot (protect_apart h v) ?_ (safe.opened.trans (Nat.le_succ _))
  intro w root
  rcases protect_root root with rfl | before
  · exact sound
  · exact safe.rooted w before

theorem protect_extends (h : Heap) (v : Value) : Extends h (h.protect v) :=
  ⟨rfl,rfl,rfl,rfl,fun _ member => List.mem_cons_of_mem v member,fun _ _ => rfl,fun _ immortal => immortal⟩

theorem protect_opened {h : Heap} (safe : h.Safe) (sound : h.Sound v) : Opened h (h.protect v) where
  safe := protect_safe safe sound
  extension := protect_extends h v
  nested := ⟨rfl,List.suffix_cons v h.shadow⟩

theorem pushScope_safe {h : Heap} (safe : h.Safe) : h.pushScope.Safe := by
  refine safe.reroot (pushScope_apart h) ?_ (Nat.le_refl _)
  intro v root
  exact safe.rooted v (root.widen (fun _ member => member) (fun _ member => member) (fun _ member => member) rfl)

theorem pushScope_extends (h : Heap) : Extends h h.pushScope :=
  ⟨rfl,rfl,rfl,rfl,fun _ member => member,fun _ _ => rfl,fun _ immortal => immortal⟩

theorem extends_pushScope (h : Heap) : Extends h.pushScope h :=
  ⟨rfl,rfl,rfl,rfl,fun _ member => member,fun _ _ => rfl,fun _ immortal => immortal⟩

theorem popScope_nested {h s : Heap} (nested : Nested h.pushScope s) :
    s.popScope = { s with scopes := h.scopes,shadow := h.shadow } := by
  have scopes : s.scopes = h.shadow.length :: h.scopes := nested.scopes
  obtain ⟨since,shadow⟩ := nested.shadow
  have before : s.shadow.drop (s.shadow.length - h.shadow.length) = h.shadow := by
    rw [← shadow]
    simp [pushScope]
  simp only [popScope,scopes,before]

theorem popScope_safe {h s : Heap} (safe : h.Safe) (nested : Nested h.pushScope s) (inner : s.Safe) :
    s.popScope.Safe := by
  refine inner.reroot (popScope_apart s) ?_ ?_
  · rw [popScope_nested nested]
    intro v root
    exact inner.rooted v (root.widen nested.shadow.subset (fun _ member => member) (fun _ member => member) rfl)
  · rw [popScope_nested nested]
    exact safe.opened

theorem Opened.close {h s : Heap} (safe : h.Safe) (opened : Opened h.pushScope s) : Grown h s.popScope := by
  have extension := (pushScope_extends h).trans opened.extension
  have closed := popScope_nested opened.nested
  refine ⟨popScope_safe safe opened.nested opened.safe,?_,?_⟩
  · rw [closed]
    exact ⟨extension.registers,extension.roots,extension.freeRoots,extension.callbacks,fun _ member => member,
      extension.objects,extension.immortal⟩
  · rw [closed]
    exact ⟨rfl,rfl⟩

theorem Sound.popScope {h : Heap} (sound : h.Sound v) : h.popScope.Sound v :=
  sound.move (object?_slots (popScope_apart h).slots)

theorem Grown.pushScope {h s : Heap} (grown : Grown h s) : Opened h.pushScope s.pushScope where
  safe := pushScope_safe grown.safe
  extension := ((extends_pushScope h).trans grown.extension).trans (pushScope_extends s)
  nested := by
    constructor
    · simp [Heap.pushScope,grown.balanced.scopes,grown.balanced.shadow]
    · simp [Heap.pushScope,grown.balanced.shadow]

theorem pushScope_fresh {h : Heap} (fresh : ¬ h.Survives r) : ¬ h.pushScope.Survives r :=
  (extends_pushScope h).fresh fresh

-- Inside a scope where also older objects may have changed.
structure Within (h h' : Heap) : Prop where
  safe : h'.Safe
  sound : ∀ v, h.Kept v → h'.Sound v
  roots : h'.roots = h.roots
  freeRoots : h'.freeRoots = h.freeRoots
  callbacks : h'.callbacks = h.callbacks
  nested : Nested h h'
  immortal : ∀ r, h.Immortal r → h'.Immortal r

theorem Opened.within (opened : Opened h h') : Within h h' :=
  ⟨opened.safe,fun _ kept => (opened.extension.kept kept).1,opened.extension.roots,opened.extension.freeRoots,
    opened.extension.callbacks,
    opened.nested,opened.extension.immortal⟩

theorem Within.edited (inner : Within h h') (edited : Edited h' h'') : Within h h'' where
  safe := edited.safe
  sound := fun v kept => edited.sound v (inner.sound v kept)
  roots := edited.steady.roots.trans inner.roots
  freeRoots := edited.steady.freeRoots.trans inner.freeRoots
  callbacks := edited.steady.callbacks.trans inner.callbacks
  nested := ⟨edited.steady.scopes.trans inner.nested.scopes,edited.steady.shadow ▸ inner.nested.shadow⟩
  immortal := fun r immortal => edited.steady.immortal r (inner.immortal r immortal)

theorem Within.close {h s : Heap} (safe : h.Safe) (inner : Within h.pushScope s) : Continues h s.popScope := by
  have closed := popScope_nested inner.nested
  refine ⟨popScope_safe safe inner.nested inner.safe,?_,?_⟩
  · intro v kept
    exact (inner.sound v ((pushScope_extends h).kept kept)).popScope
  · rw [closed]
    exact ⟨inner.roots,inner.freeRoots,inner.callbacks,rfl,rfl,inner.immortal⟩

theorem unprotect_balanced {h s : Heap} (opened : h.scopes.headD 0 ≤ h.shadow.length) (scopes : s.scopes = h.scopes)
    (shadow : s.shadow = v :: h.shadow) :
    s.unprotect.2 = { s with shadow := h.shadow } := by
  have inside : s.shadow.length > s.scopes.headD 0 := by
    rw [scopes,shadow]
    exact Nat.lt_succ_of_le opened
  simp only [unprotect,shadow] at inside ⊢
  rw [if_pos inside]

theorem unprotect_safe {h s : Heap} (safe : h.Safe) (inner : s.Safe) (scopes : s.scopes = h.scopes)
    (shadow : s.shadow = v :: h.shadow) : s.unprotect.2.Safe := by
  refine inner.reroot (unprotect_apart s) ?_ ?_
  · rw [unprotect_balanced safe.opened scopes shadow]
    intro w root
    refine inner.rooted w (root.widen ?_ (fun _ member => member) (fun _ member => member) rfl)
    intro u member
    rw [shadow]
    exact List.mem_cons_of_mem v member
  · rw [unprotect_balanced safe.opened scopes shadow]
    simpa only [scopes] using safe.opened

theorem Sound.unprotect {h : Heap} (sound : h.Sound v) : h.unprotect.2.Sound v :=
  sound.move (object?_slots (unprotect_apart h).slots)

theorem Grown.unprotect {h s : Heap} (safe : h.Safe) (grown : Grown (h.protect v) s) : Grown h s.unprotect.2 := by
  have scopes : s.scopes = h.scopes := grown.balanced.scopes
  have shadow : s.shadow = v :: h.shadow := grown.balanced.shadow
  have total := (protect_extends h v).trans grown.extension
  refine ⟨unprotect_safe safe grown.safe scopes shadow,?_,?_⟩
  · rw [unprotect_balanced safe.opened scopes shadow]
    exact ⟨total.registers,total.roots,total.freeRoots,total.callbacks,fun _ member => member,total.objects,total.immortal⟩
  · rw [unprotect_balanced safe.opened scopes shadow]
    exact ⟨scopes,rfl⟩

theorem Edited.unprotect {h s : Heap} (safe : h.Safe) (edited : Edited (h.protect v) s) : Edited h s.unprotect.2 := by
  have scopes : s.scopes = h.scopes := edited.steady.scopes
  have shadow : s.shadow = v :: h.shadow := edited.steady.shadow
  refine ⟨unprotect_safe safe edited.safe scopes shadow,?_,?_⟩
  · intro w sound
    exact (edited.sound w (sound.move fun _ => rfl)).unprotect
  · rw [unprotect_balanced safe.opened scopes shadow]
    exact ⟨edited.steady.roots,edited.steady.freeRoots,edited.steady.callbacks,rfl,scopes,edited.steady.immortal⟩

theorem inScope_meets {operation : HeapM α} {always : Heap → Prop} {post : α → Heap → Prop}
    (meets : Meets operation h.pushScope (fun s => always s.popScope) fun a s => post a s.popScope) :
    Meets (inScope operation) h always post := by
  unfold Meets at meets ⊢
  unfold inScope
  cases result : operation h.pushScope with
  | ok a s => simpa only [result] using meets
  | error e s => simpa only [result] using meets

end RegisterMachine.Heap
