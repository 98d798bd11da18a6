import RegisterMachine.Proofs.Heap.Safety

namespace RegisterMachine

-- A value that is no string object outside a set.
def Value.Named (named : Handle → Prop) (v : Value) : Prop := ∀ r, v = .str r → named r

theorem Value.Named.mono (held : Value.Named named v) (wider : ∀ r, named r → more r) : Value.Named more v :=
  fun r same => wider r (held r same)

theorem Value.named_other {v : Value} (other : v.isString = false) : v.Named named := by
  rintro r rfl
  cases other

theorem Value.named_all (v : Value) : Value.Named (fun _ => True) v := fun _ _ => trivial

namespace Table

-- The keys of the entries are among the named ones.
def Keys (named : Handle → Prop) (cells : Array (Option Entry)) : Prop := ∀ entry, some entry ∈ cells → entry.key.Named named

section

variable {named : Handle → Prop} {cells : Array (Option Entry)} {entry : Entry}

theorem Keys.put (keys : Keys named cells) (i : Nat) (new : entry.key.Named named) : Keys named (cells.setIfInBounds i (some entry)) := by
  intro other member
  rcases Array.mem_or_eq_of_mem_setIfInBounds member with before | same
  · exact keys other before
  · cases same
    exact new

theorem Keys.vacate (keys : Keys named cells) (i : Nat) : Keys named (cells.setIfInBounds i none) := by
  intro other member
  rcases Array.mem_or_eq_of_mem_setIfInBounds member with before | same
  · exact keys other before
  · cases same

theorem Keys.blank (n : Nat) : Keys named (Array.replicate n none) := by
  intro entry member
  cases (Array.mem_replicate.mp member).2

theorem Keys.placeAll (keys : Keys named cells) (entries : List Entry) (new : ∀ entry ∈ entries, entry.key.Named named) :
    Keys named (entries.foldl place cells) := by
  induction entries generalizing cells with
  | nil => exact keys
  | cons entry rest ih =>
      exact ih (keys.put _ (new entry List.mem_cons_self)) fun other member => new other (List.mem_cons_of_mem _ member)

theorem Keys.insertNew {t : Table} (keys : Keys named t.cells) (new : entry.key.Named named) : Keys named (t.insertNew entry).cells := by
  simp only [Table.insertNew]
  split
  · exact Keys.put (Keys.placeAll (.blank _) _ fun other member => keys other (mem_entries.mp member)) _ new
  · exact keys.put _ new

theorem Keys.restore (keys : Keys named cells) (steps i : Nat) : Keys named (restore steps cells i) := by
  induction steps generalizing cells i with
  | zero => exact keys
  | succ steps ih =>
      unfold Table.restore
      split
      · exact keys
      · rename_i entry present
        have inside := cellAt_lt present
        rw [cellAt_eq inside] at present
        exact ih ((keys.vacate i).put _ (keys entry (present ▸ Array.getElem_mem inside))) _

theorem Keys.setValue {t : Table} (keys : Keys named t.cells) (i : Nat) (value : Value) : Keys named (t.setValue i value).cells := by
  intro entry member
  obtain ⟨j,inside,here⟩ := Array.mem_iff_getElem.mp member
  simp only [Table.setValue,Array.getElem_modify] at here
  split at here
  · obtain ⟨old,present,rfl⟩ := Option.map_eq_some_iff.mp here
    exact keys old (present ▸ Array.getElem_mem _)
  · exact keys entry (here ▸ Array.getElem_mem _)

end

-- The keys, and the names of the aliases.
structure Named (named : Handle → Prop) (t : Table) : Prop where
  keys : Keys named t.cells
  aliases : ∀ aliases, t.aliases = some aliases → ∀ binding ∈ aliases.bindings, binding.1.Named named

theorem Named.mono {t : Table} (held : t.Named named) (wider : ∀ r, named r → more r) : t.Named more :=
  ⟨fun entry member => (held.keys entry member).mono wider,fun aliases some binding member => (held.aliases aliases some binding member).mono wider⟩

theorem Named.withCapacity (capacity : Nat) : (withCapacity capacity).Named named :=
  ⟨.blank _,fun _ none => by cases none⟩

end Table

namespace Heap

structure Names (named : Handle → Prop) (h : Heap) : Prop where
  tables : ∀ r table, h.object? r = some (.map table) → table.Named named
  registers : ∀ register ∈ h.registers, register.name.Named named

theorem Names.all (h : Heap) : h.Names fun _ => True where
  tables := fun _ _ _ => ⟨fun _ _ => Value.named_all _,fun _ _ _ _ => Value.named_all _⟩
  registers := fun _ _ => Value.named_all _

theorem Names.mono {h : Heap} (names : h.Names named) (wider : ∀ r, named r → more r) : h.Names more :=
  ⟨fun r table present => (names.tables r table present).mono wider,fun register member => (names.registers register member).mono wider⟩

theorem assigned_named {h : Heap} {table : Table} {aliases : Aliases} (held : table.Named named) (some : table.aliases = some aliases) :
    ∀ entry ∈ h.assignedAliases aliases, entry.1.Named named := by
  intro entry assigned
  obtain ⟨binding,bound,same⟩ := List.mem_filterMap.mp assigned
  obtain ⟨value,_,rfl⟩ := Option.map_eq_some_iff.mp same
  exact held.aliases aliases some binding (Array.mem_toList_iff.mp bound)

theorem Names.entries {h : Heap} (names : h.Names named) : ∀ entry ∈ h.mapEntries v, entry.1.Named named := by
  intro entry member
  unfold mapEntries at member
  split at member
  · rename_i table found
    obtain ⟨r,rfl,present⟩ := table?_object.mp found
    have held := names.tables r table present
    rcases List.mem_append.mp member with assigned | listed
    · unfold aliasEntries at assigned
      split at assigned
      · rename_i aliases some
        exact assigned_named held some entry assigned
      · cases assigned
    · obtain ⟨entry,stored,rfl⟩ := List.mem_map.mp listed
      exact held.keys entry (Table.mem_entries.mp stored)
  · cases member

theorem Names.registerName {h : Heap} (names : h.Names named) (i : Nat) : (h.registerName i).Named named := by
  rw [Heap.registerName,Array.getD_eq_getD_getElem?]
  cases present : h.registers[i]? with
  | none => exact Value.named_other rfl
  | some register => exact names.registers register (Array.mem_of_getElem? present)

theorem Names.carry {h h' : Heap} (names : h.Names named) (registers : h'.registers = h.registers)
    (tables : ∀ r table, h'.object? r = some (.map table) → table.Named named ∨ ∃ before, h.object? r = some (.map before) ∧
      table.cells = before.cells ∧ table.aliases = before.aliases) : h'.Names named := by
  refine ⟨fun r table present => ?_,registers ▸ names.registers⟩
  rcases tables r table present with held | ⟨before,there,cells,aliases⟩
  · exact held
  · have held := names.tables r before there
    exact ⟨cells ▸ held.keys,aliases ▸ held.aliases⟩

theorem collect_before {h : Heap} (later : h.collect.2.object? r = some object) : h.object? r = some object := by
  by_cases enabled : h.disabled = 0
  · rw [collect_enabled enabled,object?_slotAt,sweep_slotAt] at later
    obtain ⟨generation,content⟩ := later
    split at content
    · cases content
    · rename_i stays
      rw [if_neg stays] at generation
      exact object?_slotAt.mpr ⟨generation,content⟩
  · rwa [collect_disabled enabled] at later

theorem install_before {h : Heap} {object other : Object} (later : (h.install object charge immortal).2.object? r = some other) :
    other = object ∨ h.object? r = some other := by
  obtain ⟨slot,present,generation,content⟩ := object?_slot.mp later
  unfold install at present
  split at present
  · rw [Array.getElem?_setIfInBounds] at present
    split at present
    · split at present
      · cases present
        cases content
        exact Or.inl rfl
      · cases present
    · exact Or.inr (object?_slot.mpr ⟨slot,present,generation,content⟩)
  · rw [Array.getElem?_push] at present
    split at present
    · cases present
      cases content
      exact Or.inl rfl
    · exact Or.inr (object?_slot.mpr ⟨slot,present,generation,content⟩)

theorem intern_before {h : Heap} {other : Object} (later : (h.intern text).2.object? r = some other) :
    other = .str text ∨ h.object? r = some other := by
  unfold intern at later
  split at later
  · exact Or.inr later
  · split at later
    · exact Or.inr later
    · exact install_before later

theorem intern_registers (h : Heap) (text : String) : (h.intern text).2.registers = h.registers := by
  unfold intern
  split
  · rfl
  · split
    · rfl
    · exact (install_roots h (.str text) 0 true).registers

end Heap

end RegisterMachine
