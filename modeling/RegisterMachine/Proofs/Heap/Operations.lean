import RegisterMachine.Proofs.Heap.Steps

namespace RegisterMachine.Heap

theorem table?_object {h : Heap} {v : Value} {table : Table} :
    h.table? v = some table ↔ ∃ r, v = .map r ∧ h.object? r = some (.map table) := by
  constructor
  · intro found
    unfold table? at found
    split at found
    · split at found
      · cases found
        exact ⟨_,rfl,by assumption⟩
      · cases found
    · cases found
  · rintro ⟨r,rfl,found⟩
    simp only [table?,found]

theorem mapHandle_parts {h : Heap} (accepted : h.mapHandle v = .ok r) : v = .map r ∧ h.isLive r = true := by
  unfold mapHandle at accepted
  split at accepted
  · split at accepted
    · cases accepted
      exact ⟨rfl,by assumption⟩
    · cases accepted
  · cases accepted

theorem writableMap_parts {h : Heap} (accepted : h.writableMap v = .ok r) :
    v = .map r ∧ ∃ table, h.object? r = some (.map table) ∧ table.frozen = false := by
  unfold writableMap at accepted
  split at accepted
  · cases accepted
  · rename_i handle found
    obtain ⟨rfl,_⟩ := mapHandle_parts found
    split at accepted
    · rename_i table content
      obtain ⟨_,same,object⟩ := table?_object.mp content
      cases same
      split at accepted
      · cases accepted
      · rename_i open_
        cases accepted
        exact ⟨rfl,table,object,by simpa using open_⟩
    · cases accepted

theorem store_steps (h : Heap) (r : Handle) (key value : Value) : Steps h (h.store r key value) := by
  unfold store
  simp only
  split
  · exact modifyTable_steps fun _ _ _ _ valid => Table.setValue_valid _ value valid
  · have inserted : Steps h (h.modifyTable r (·.insertNew { key, value, hash := h.hash key })) :=
      modifyTable_steps fun _ _ _ _ valid => Table.insertNew_valid _ valid
    split
    · exact inserted.trans (recharge_steps _ r)
    · exact inserted

theorem findCell?_entry {h : Heap} {table : Table} {hash : UInt32} (object : h.object? r = some (.map table))
    (found : h.findCell? (.map r) hash key = some i) :
    ∃ entry, Table.cellAt table.cells i = some entry ∧ entry.hash = hash ∧ h.sameKey entry.key key = true := by
  simp only [findCell?,table?,object] at found
  obtain ⟨entry,present,test⟩ := Table.search_found found
  rw [Bool.and_eq_true,beq_iff_eq] at test
  exact ⟨entry,present,test⟩

theorem mem_modify {registers : Array Register} {change : Register → Register} {register : Register}
    (member : register ∈ registers.modify i change) :
    register ∈ registers ∨ ∃ old ∈ registers, register = change old := by
  obtain ⟨j,found⟩ := Array.mem_iff_getElem?.mp member
  rw [Array.getElem?_modify] at found
  split at found
  · obtain ⟨old,present,rfl⟩ := Option.map_eq_some_iff.mp found
    exact Or.inr ⟨old,Array.mem_of_getElem? present,rfl⟩
  · exact Or.inl (Array.mem_of_getElem? found)

theorem aliasesFor_bindings (h : Heap) (first count : Nat) : (h.aliasesFor first count).bindings.toList =
    ((List.range' first (min (first + count) h.registers.size - first)).filter fun i => !(h.registerName i).isNull).map
      fun i => (h.registerName i,i) := by
  have folded : ∀ (registers : List Nat) (aliases : Aliases),
      (registers.foldl (fun aliases register => if (h.registerName register).isNull then aliases
        else aliases.push (h.registerName register) register) aliases).bindings.toList =
      aliases.bindings.toList ++ (registers.filter fun i => !(h.registerName i).isNull).map fun i => (h.registerName i,i) := by
    intro registers
    induction registers with
    | nil => simp
    | cons i rest ih =>
        intro aliases
        rw [List.foldl_cons,ih]
        cases free : (h.registerName i).isNull with
        | true => simp [free]
        | false => simp [free,Aliases.push]
  simp only [aliasesFor,folded,List.nil_append]

theorem aliasesFor_names (h : Heap) (first count : Nat) :
    ∀ binding ∈ (h.aliasesFor first count).bindings, binding.1 = h.registerName binding.2 := by
  intro binding member
  rw [← Array.mem_toList_iff,aliasesFor_bindings] at member
  obtain ⟨i,_,rfl⟩ := List.mem_map.mp member
  rfl

theorem lookup_mem {copies : Copies} (found : copies.lookup r = some copy) : (r,copy) ∈ copies := by
  induction copies with
  | nil => cases found
  | cons pair rest ih =>
      rw [List.lookup_cons] at found
      split at found
      · rename_i same
        cases found
        rw [beq_iff_eq.mp same]
        exact List.mem_cons_self
      · exact List.mem_cons_of_mem _ (ih found)

theorem copyDeep_zero (v : Value) (copies : Copies) : copyDeep 0 v copies = pure (v,copies) := by
  cases v <;> rfl

theorem copyDeep_plain (levels : Nat) (copies : Copies) (plain : v.handle? = none) :
    copyDeep levels v copies = pure (v,copies) := by
  cases levels <;> cases v <;> first | rfl | cases plain

theorem copyDeep_choice (levels : Nat) (copies : Copies) (leaf : v = .str r ∨ v = .funcRef r) :
    copyDeep (levels + 1) v copies = (match copies.lookup r with
      | some copy => pure (copy,copies)
      | none => pure (v,copies)) := by
  rcases leaf with rfl | rfl <;> rfl

theorem copyDeep_leaf (levels : Nat) (copies : Copies) (leaf : v = .str r ∨ v = .funcRef r) :
    copyDeep (levels + 1) v copies = pure ((copies.lookup r).getD v,copies) := by
  rw [copyDeep_choice levels copies leaf]
  cases copies.lookup r <;> rfl

theorem copyDeep_list (levels : Nat) (r : Handle) (copies : Copies) :
    copyDeep (levels + 1) (.list r) copies = (match copies.lookup r with
      | some copy => pure (copy,copies)
      | none => do
        let items := ((← get).items? (.list r)).getD #[]
        let out ← newList items.size
        modify (·.protect out)
        let copies ← copyItems (copyDeep levels) out items.toList ((r,out) :: copies)
        pure (out,copies)) := rfl

theorem copyDeep_map (levels : Nat) (r : Handle) (copies : Copies) :
    copyDeep (levels + 1) (.map r) copies = (match copies.lookup r with
      | some copy => pure (copy,copies)
      | none => do
        let entries := (← get).mapEntries (.map r)
        let out ← newMap (entries.length * 2)
        modify (·.protect out)
        let copies ← copyEntries (copyDeep levels) out entries ((r,out) :: copies)
        pure (out,copies)) := rfl

end RegisterMachine.Heap
