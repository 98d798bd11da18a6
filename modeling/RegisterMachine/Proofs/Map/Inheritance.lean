import RegisterMachine.Heap.Maps

namespace RegisterMachine.Heap

variable {h : Heap} {v key : Value}

-- The map that a map inherits from directly.
def parent? (h : Heap) (v : Value) : Option Value := (h.lookup? v isaKey).filter Value.isMap

-- The maps of a chain of inheritance, with the map itself at place 0.
def ancestor? (h : Heap) (v : Value) : Nat → Option Value
  | 0 => some v
  | i + 1 => (h.ancestor? v i).bind h.parent?

-- The first map of a chain that binds a key, its place and the value there.
structure FirstBinds (h : Heap) (v key : Value) (i : Nat) (u x : Value) : Prop where
  there : h.ancestor? v i = some u
  binds : h.lookup? u key = some x
  earlier : ∀ j < i, ∀ w, h.ancestor? v j = some w → h.lookup? w key = none

theorem ancestor?_succ (h : Heap) (v : Value) (i : Nat) : h.ancestor? v (i + 1) = (h.parent? v).bind (h.ancestor? · i) := by
  induction i with
  | zero => cases found : h.parent? v <;> simp [ancestor?,found]
  | succ i ih =>
      calc h.ancestor? v (i + 2) = (h.ancestor? v (i + 1)).bind h.parent? := rfl
        _ = ((h.parent? v).bind (h.ancestor? · i)).bind h.parent? := by rw [ih]
        _ = (h.parent? v).bind (h.ancestor? · (i + 1)) := Option.bind_assoc ..

theorem ancestor?_parent (parent : h.parent? v = some u) (i : Nat) : h.ancestor? v (i + 1) = h.ancestor? u i := by
  rw [ancestor?_succ,parent,Option.bind_some]

theorem FirstBinds.here (found : h.lookup? v key = some x) : h.FirstBinds v key 0 v x := ⟨rfl,found,fun _ below => absurd below (Nat.not_lt_zero _)⟩

theorem FirstBinds.above (parent : h.parent? v = some u) (absent : h.lookup? v key = none) (first : h.FirstBinds u key i w x) :
    h.FirstBinds v key (i + 1) w x := by
  refine ⟨(ancestor?_parent parent i).trans first.there,first.binds,?_⟩
  rintro (_ | j) before w there
  · cases there
    exact absent
  · rw [ancestor?_parent parent] at there
    exact first.earlier j (Nat.lt_of_succ_lt_succ before) w there

theorem FirstBinds.unique (first : h.FirstBinds v key i u x) (first' : h.FirstBinds v key j w y) : i = j ∧ u = w ∧ x = y := by
  have bounded : ∀ {i j u w x y}, h.FirstBinds v key i u x → h.FirstBinds v key j w y → i ≤ j := by
    intro i j u w x y first first'
    refine Nat.le_of_not_lt fun before => ?_
    cases (first.earlier j before w first'.there).symm.trans first'.binds
  obtain rfl := Nat.le_antisymm (bounded first first') (bounded first' first)
  obtain rfl := Option.some.inj (first.there.symm.trans first'.there)
  exact ⟨rfl,rfl,Option.some.inj (first.binds.symm.trans first'.binds)⟩

end RegisterMachine.Heap
