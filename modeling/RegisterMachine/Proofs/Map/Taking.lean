import RegisterMachine.Proofs.Map.Undisturbed
import RegisterMachine.Proofs.Heap.Iteration

namespace RegisterMachine.Heap

variable {h h' : Heap} {table table' : Table}

-- How a register that a name is bound to is listed while it holds a variable.
def listing? (h : Heap) (binding : Value × Nat) : Option (Value × Value) := (h.assigned? binding.2).map fun value => (binding.1,value)

-- The entries that go when a key is removed.
def taken (h : Heap) (table : Table) (key : Value) : List (Value × Value) :=
  match h.aliasing? table key with
  | some binding => (table.bound.filter fun other => other.2 == binding.2).filterMap h.listing?
  | none =>
    match table.find? (h.hash key) fun k => h.sameKey k key with
    | some i => (Table.cellAt table.cells i).toList.map fun entry => (entry.key,entry.value)
    | none => []

-- A map that is not frozen, in a heap that can protect a value for the time of an operation.
structure Emptiable (h : Heap) (r : Handle) (table : Table) : Prop where
  object : h.object? r = some (.map table)
  valid : table.Valid
  writable : table.frozen = false
  opened : h.scopes.headD 0 ≤ h.shadow.length

-- A map without the entries that are gone.
structure Without (h : Heap) (r : Handle) (table : Table) (gone : List (Value × Value)) (h' : Heap) (table' : Table) : Prop
    extends Emptiable h' r table' where
  listed : (h.mapEntries (.map r)).Perm (gone ++ h'.mapEntries (.map r))
  bound : table'.bound = table.bound
  assigned : ∀ i value, h'.assigned? i = some value → h.assigned? i = some value
  entries : ∃ cells, table.entries.Perm (cells ++ table'.entries)
  others : ∀ q, q ≠ r → h'.object? q = h.object? q
  values : ∀ i, h'.registerValue i = h.registerValue i

theorem mem_listing {bound : List (Value × Nat)} : (name,value) ∈ bound.filterMap h.listing? ↔ ∃ i, (name,i) ∈ bound ∧ h.assigned? i = some value :=
  mem_assigned_bound

theorem mem_register {bound : List (Value × Nat)} : (name,value) ∈ (bound.filter fun other => other.2 == i).filterMap h.listing? ↔
    (name,i) ∈ bound ∧ h.assigned? i = some value := by
  refine mem_listing.trans ?_
  simp only [List.mem_filter,beq_iff_eq]
  constructor
  · rintro ⟨j,⟨member,rfl⟩,assigned⟩
    exact ⟨member,assigned⟩
  · rintro ⟨member,assigned⟩
    exact ⟨i,⟨member,rfl⟩,assigned⟩

theorem assigned?_unassign (h : Heap) (i j : Nat) : (h.unassign i).assigned? j = if j = i then none else h.assigned? j := by
  split
  · rename_i same
    subst same
    simp only [unassign,setRegisterName,assigned?,Array.getElem?_modify,if_pos]
    cases h.registers[j]? <;> rfl
  · rename_i other
    exact assigned_elsewhere h _ other

theorem registerValue_unassign (h : Heap) (i j : Nat) : (h.unassign i).registerValue j = h.registerValue j := by
  simp only [unassign,setRegisterName,registerValue,Array.getD_eq_getD_getElem?,Array.getElem?_modify]
  split
  · cases h.registers[j]? <;> rfl
  · rfl

theorem listing?_unassign (h : Heap) (i : Nat) (binding : Value × Nat) :
    (h.unassign i).listing? binding = if binding.2 == i then none else h.listing? binding := by
  simp only [listing?,assigned?_unassign,beq_iff_eq]
  split <;> rfl

theorem listed_unassign (h : Heap) (i : Nat) (bound : List (Value × Nat)) :
    (bound.filterMap h.listing?).Perm ((bound.filter fun other => other.2 == i).filterMap h.listing? ++ bound.filterMap (h.unassign i).listing?) := by
  have kept : bound.filterMap (h.unassign i).listing? = (bound.filter fun other => !(other.2 == i)).filterMap h.listing? := by
    rw [List.filterMap_filter]
    refine List.filterMap_congr fun binding _ => ?_
    rw [listing?_unassign]
    cases binding.2 == i <;> rfl
  rw [kept,← List.filterMap_append]
  exact (List.filter_append_perm _ bound).symm.filterMap _

namespace Emptiable

theorem writes (emptiable : Emptiable h r table) : h.writableMap (.map r) = .ok r := by
  simp only [writableMap,mapHandle,isLive,table?,emptiable.object,Option.isSome_some,if_true,emptiable.writable,Bool.false_eq_true,if_false]

theorem aliasOf (emptiable : Emptiable h r table) (key : Value) : h.aliasOf? (.map r) key = (h.aliasing? table key).map Prod.snd := by
  simp only [aliasOf?,table?,emptiable.object,aliasRegister_bound]

theorem findCell (emptiable : Emptiable h r table) (hash : UInt32) (key : Value) :
    h.findCell? (.map r) hash key = table.find? hash fun k => h.sameKey k key := by
  simp only [findCell?,table?,emptiable.object]

theorem listed (emptiable : Emptiable h r table) : h.mapEntries (.map r) = table.bound.filterMap h.listing? ++ tableEntries table :=
  mapEntries_bound emptiable.object

theorem mem_listed (emptiable : Emptiable h r table) : (key,value) ∈ h.mapEntries (.map r) ↔
    (∃ i, (key,i) ∈ table.bound ∧ h.assigned? i = some value) ∨ ∃ entry ∈ table.entries, entry.key = key ∧ entry.value = value := by
  rw [emptiable.listed,List.mem_append,mem_listing]
  simp only [tableEntries,List.mem_map,Prod.mk.injEq]

theorem counts (emptiable : Emptiable h r table) : h.mapCount (.map r) = (h.mapEntries (.map r)).length := by
  have counted : table.count = (tableEntries table).length := emptiable.valid.counted.trans (List.length_map _).symm
  simp only [mapCount,mapEntries,table?,emptiable.object,List.length_append,counted,Nat.add_comm]

theorem without_nothing (emptiable : Emptiable h r table) : Without h r table [] h table where
  toEmptiable := emptiable
  listed := .refl _
  bound := rfl
  assigned := fun _ _ assigned => assigned
  entries := ⟨[],.refl _⟩
  others := fun _ _ => rfl
  values := fun _ => rfl

theorem without_variable (emptiable : Emptiable h r table) (i : Nat) :
    Without h r table ((table.bound.filter fun other => other.2 == i).filterMap h.listing?) (h.unassign i) table := by
  have left : Emptiable (h.unassign i) r table := ⟨emptiable.object,emptiable.valid,emptiable.writable,emptiable.opened⟩
  refine ⟨left,?_,rfl,fun j value assigned => ?_,⟨[],.refl _⟩,fun _ _ => rfl,registerValue_unassign h i⟩
  · rw [emptiable.listed,left.listed,← List.append_assoc]
    exact (listed_unassign h i table.bound).append_right _
  · rw [assigned?_unassign] at assigned
    split at assigned
    · cases assigned
    · exact assigned

theorem without_cell (emptiable : Emptiable h r table) (found : Table.cellAt table.cells i = some entry) :
    Without h r table [(entry.key,entry.value)] (h.modifyTable r (·.removeAt i)) (table.removeAt i) := by
  have touched := modifyTable_touched (·.removeAt i) emptiable.object
  obtain ⟨_,_,_,contents⟩ := Table.removeAt_mends emptiable.valid found
  have left : Emptiable (h.modifyTable r (·.removeAt i)) r (table.removeAt i) :=
    ⟨touched.here,Table.removeAt_valid emptiable.valid found,emptiable.writable,emptiable.opened⟩
  refine ⟨left,?_,rfl,fun _ _ assigned => assigned,⟨[entry],contents⟩,touched.others,fun _ => rfl⟩
  rw [emptiable.listed,left.listed]
  exact ((contents.map fun cell => (cell.key,cell.value)).append_left _).trans List.perm_middle

theorem removes (emptiable : Emptiable h r table) (key : Value) :
    ∃ table', Without h r table (h.taken table key) (after (mapRemove (.map r) key) h) table' := by
  simp only [after,mapRemove,emptiable.writes,emptiable.aliasOf,emptiable.findCell]
  unfold taken
  cases named : h.aliasing? table key with
  | some binding => exact ⟨table,emptiable.without_variable binding.2⟩
  | none =>
      simp only [Option.map_none]
      cases search : table.find? (h.hash key) fun k => h.sameKey k key with
      | none => exact ⟨table,emptiable.without_nothing⟩
      | some i =>
          obtain ⟨entry,present,_⟩ := Table.search_found search
          simp only [present]
          exact ⟨table.removeAt i,emptiable.without_cell present⟩

theorem released (opened : h.scopes.headD 0 ≤ h.shadow.length) (shadow : h'.shadow = v :: h.shadow) (scopes : h'.scopes = h.scopes) :
    h'.unprotect.2 = { h' with shadow := h.shadow } := by
  simp only [unprotect,shadow,scopes,List.length_cons]
  rw [if_pos (by omega)]

-- The first key leaves as any key does that is removed, and is the answer.
theorem takes (emptiable : Emptiable h r table) (first : h.mapEntries (.map r) = (key,value) :: rest) :
    takeFirstKey (.map r) h = .ok key (after (mapRemove (.map r) key) h) := by
  have protected_ : Emptiable (h.protect key) r table :=
    ⟨emptiable.object,emptiable.valid,emptiable.writable,Nat.le_succ_of_le emptiable.opened⟩
  have still : Undisturbed (fun _ => True) h (h.protect key) :=
    ⟨fun _ => rfl,fun _ => rfl,fun _ _ => rfl,fun _ _ _ _ _ _ => rfl,fun _ _ _ _ => trivial⟩
  have searched : table.find? ((h.protect key).hash key) (fun k => (h.protect key).sameKey k key) =
      table.find? (h.hash key) fun k => h.sameKey k key := by
    rw [still.hash trivial]
    have keys : (h.protect key).sameKey = h.sameKey := by
      funext a b
      exact still.sameKey trivial trivial
    rw [keys]
  simp only [takeFirstKey,nthEntry?_entries,first,List.getElem?_cons_zero,after,mapRemove,emptiable.writes,emptiable.aliasOf,emptiable.findCell,
    protected_.writes,protected_.aliasOf,protected_.findCell,searched,still.aliasing]
  have release : ∀ s : Heap, s.shadow = key :: h.shadow → s.scopes = h.scopes → s.unprotect.2 = { s with shadow := h.shadow } :=
    fun s => released emptiable.opened
  cases h.aliasing? table key with
  | some binding => exact congrArg (EStateM.Result.ok key) (release _ rfl rfl)
  | none =>
      simp only [Option.map_none]
      cases table.find? (h.hash key) fun k => h.sameKey k key with
      | none => exact congrArg (EStateM.Result.ok key) (release _ rfl rfl)
      | some i => exact congrArg (EStateM.Result.ok key) (release _ rfl rfl)

end Emptiable

end RegisterMachine.Heap
