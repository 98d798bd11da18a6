import RegisterMachine.Proofs.Heap.Operations
import RegisterMachine.Proofs.Heap.Invariant

namespace RegisterMachine.Heap

-- One object exchanged for another, and nothing else but charges changed.
structure Touched (h h' : Heap) (r : Handle) (object : Object) : Prop where
  here : h'.object? r = some object
  others : ∀ q, q ≠ r → h'.object? q = h.object? q
  immortal : ∀ q, h'.Immortal q ↔ h.Immortal q
  roots : SameRoots h h'

theorem object?_slots {h h' : Heap} (same : h'.slots = h.slots) (r : Handle) : h'.object? r = h.object? r := by
  rw [object?,object?,same]

theorem immortal_slots {h h' : Heap} (same : h'.slots = h.slots) (r : Handle) : h'.Immortal r ↔ h.Immortal r := by
  rw [Immortal,Immortal,same]

theorem modifyObject_touched {h : Heap} {object : Object} (change : Object → Object)
    (present : h.object? r = some object) : Touched h (h.modifyObject r change) r (change object) := by
  obtain ⟨slot,found,generation,content⟩ := object?_slot.mp present
  have slots : ∀ i, (h.modifyObject r change).slots[i]? =
      if r.index = i then some { slot with object := some (change object) } else h.slots[i]? := by
    intro i
    simp only [modifyObject,Array.getElem?_modify]
    split
    · rename_i same
      rw [← same,found]
      simp [changeContent,content]
    · rfl
  refine ⟨?_,?_,?_,⟨rfl,rfl,rfl,rfl,rfl,rfl⟩⟩
  · rw [object?,slots,if_pos rfl]
    simp [generation]
  · intro q other
    rw [object?,object?,slots]
    by_cases same : r.index = q.index
    · -- A handle of another generation leads nowhere, before and after.
      have stale : slot.generation ≠ q.generation := by
        intro equal
        obtain ⟨i,g⟩ := q
        obtain ⟨j,g'⟩ := r
        exact other (by rw [Handle.mk.injEq]; exact ⟨same.symm,equal.symm.trans generation⟩)
      rw [if_pos same,← same,found]
      simp [stale]
    · rw [if_neg same]
  · intro q
    simp only [Immortal,slots]
    by_cases same : r.index = q.index
    · rw [if_pos same,← same,found]
      simp
    · rw [if_neg same]

theorem recharge_object (h : Heap) (r q : Handle) : (h.recharge r).object? q = h.object? q := by
  rw [object?,object?]
  cases present : h.slots[q.index]? with
  | none =>
      have outside : (h.recharge r).slots[q.index]? = none := by
        rw [Array.getElem?_eq_none_iff] at present ⊢
        rwa [size_recharge]
      rw [outside]
  | some slot =>
      obtain ⟨charge,charged⟩ := recharge_slot h r present
      rw [charged]

theorem freeze_object (h : Heap) (v : Value) (r : Handle) :
    (h.freeze v).object? r = (h.object? r).map fun object =>
      if (h.insideOf v).getD r.index false then freezeObject object else object := by
  simp only [object?,freeze,Array.getElem?_mapIdx]
  cases h.slots[r.index]? with
  | none => rfl
  | some slot =>
      cases (h.insideOf v).getD r.index false with
      | true => by_cases same : slot.generation = r.generation <;> simp [same]
      | false => by_cases same : slot.generation = r.generation <;> simp [same]

theorem recharge_immortal (h : Heap) (r q : Handle) : (h.recharge r).Immortal q ↔ h.Immortal q := by
  rw [Immortal,Immortal]
  cases present : h.slots[q.index]? with
  | none =>
      have outside : (h.recharge r).slots[q.index]? = none := by
        rw [Array.getElem?_eq_none_iff] at present ⊢
        rwa [size_recharge]
      rw [outside]
  | some slot =>
      obtain ⟨charge,charged⟩ := recharge_slot h r present
      rw [charged]
      simp

theorem recharge_roots (h : Heap) (r : Handle) : SameRoots h (h.recharge r) := by
  unfold recharge
  repeat' split
  all_goals exact ⟨rfl,rfl,rfl,rfl,rfl,rfl⟩

theorem Touched.recharge (touched : Touched h h' r object) (q : Handle) : Touched h (h'.recharge q) r object where
  here := by rw [recharge_object]; exact touched.here
  others := by intro p other; rw [recharge_object]; exact touched.others p other
  immortal := by intro p; rw [recharge_immortal]; exact touched.immortal p
  roots := touched.roots.trans (recharge_roots h' q)

theorem Touched.trans (first : Touched h h' r object) (second : Touched h' h'' r other) : Touched h h'' r other where
  here := second.here
  others := fun q different => (second.others q different).trans (first.others q different)
  immortal := fun q => (second.immortal q).trans (first.immortal q)
  roots := first.roots.trans second.roots

theorem modifyTable_touched {h : Heap} {table : Table} (change : Table → Table)
    (present : h.object? r = some (.map table)) : Touched h (h.modifyTable r change) r (.map (change table)) :=
  modifyObject_touched _ present

theorem modifyList_touched {h : Heap} {list : ListObject} (change : ListObject → ListObject)
    (present : h.object? r = some (.list list)) : Touched h (h.modifyList r change) r (.list (change list)) :=
  modifyObject_touched _ present

-- The table after a key was bound: a new value for an entry of the same key, or a new entry.
def stored (h : Heap) (table : Table) (key value : Value) : Table :=
  match table.find? (h.hash key) fun k => h.sameKey k key with
  | some i => table.setValue i value
  | none => table.insertNew { key, value, hash := h.hash key }

theorem store_touched {h : Heap} {table : Table} (key value : Value) (present : h.object? r = some (.map table)) :
    Touched h (h.store r key value) r (.map (h.stored table key value)) := by
  have cell : h.findCell? (.map r) (h.hash key) key = table.find? (h.hash key) fun k => h.sameKey k key := by
    simp only [findCell?,table?,present]
  unfold store stored
  simp only [cell]
  cases table.find? (h.hash key) fun k => h.sameKey k key with
  | some i => exact modifyTable_touched (·.setValue i value) present
  | none =>
      have inserted := modifyTable_touched (·.insertNew { key, value, hash := h.hash key }) present
      simp only
      split
      · exact inserted.recharge r
      · exact inserted

end RegisterMachine.Heap
