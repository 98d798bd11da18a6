import RegisterMachine.Proofs.Heap.Evolution
import RegisterMachine.Proofs.Map.Keys

namespace RegisterMachine

theorem Table.search_agrees {cells : Array (Option Entry)} {p q : Value → Bool} (agree : ∀ i entry, cellAt cells i = some entry → p entry.key = q entry.key)
    (hash : UInt32) (steps i : Nat) : search cells hash p steps i = search cells hash q steps i := by
  induction steps generalizing i with
  | zero => rfl
  | succ steps ih =>
      simp only [search]
      cases there : cellAt cells i with
      | none => rfl
      | some entry => simp only [agree i entry there,ih]

namespace Heap

variable {h h' : Heap}

theorem sameKey_container {a b : Value} (container : a.isList = true ∨ a.isMap = true) (hb : h.keyOf b = some k) : h.sameKey a b = false := by
  cases a with
  | list | map =>
      cases b with
      | list | map => cases hb
      | null | int | double | short | str | funcRef => rfl
  | null | int | double | short | str | funcRef => rcases container with wrong | wrong <;> cases wrong

theorem Preserved.keyOf {entry : Entry} (preserved : Preserved h h' r table) (member : entry ∈ table.entries) (keyed : h.keyOf entry.key = some k) :
    h'.keyOf entry.key = some k := by
  cases key : entry.key with
  | str q =>
      rw [key] at keyed
      simp only [Heap.keyOf,text?,Option.map_eq_some_iff] at keyed
      obtain ⟨text,found,rfl⟩ := keyed
      split at found
      · rename_i held
        cases found
        simp only [Heap.keyOf,text?,preserved.texts entry member q _ key held,Option.map_some]
      · cases found
  | null | int | double | short | list | map | funcRef =>
      rw [key] at keyed
      exact keyed

theorem keyOf_or_container {v : Value} (sound : h.Sound v) : (∃ k, h.keyOf v = some k) ∨ v.isList = true ∨ v.isMap = true := by
  cases v with
  | list => exact Or.inr (Or.inl rfl)
  | map => exact Or.inr (Or.inr rfl)
  | str q =>
      obtain ⟨object,present,fits⟩ := sound q rfl
      cases fits
      exact Or.inl ⟨.text _,by simp only [keyOf,text?,present,Option.map_some]; rfl⟩
  | null | int | double | short | funcRef => exact Or.inl ⟨_,rfl⟩

theorem Sound.text {v : Value} (sound : h.Sound v) (string : v.isString = true) : (h.text? v).isSome = true := by
  cases v with
  | short => rfl
  | str q =>
      obtain ⟨object,present,fits⟩ := sound q rfl
      cases fits
      rw [text?_str.mpr present]
      rfl
  | null | int | double | list | map | funcRef => cases string

theorem Preserved.sameKey {entry : Entry} {key key' : Value} (preserved : Preserved h h' r table) (member : entry ∈ table.entries)
    (sound : h.Sound entry.key) (before : h.keyOf key = some k) (after : h'.keyOf key' = some k) :
    h'.sameKey entry.key key' = h.sameKey entry.key key := by
  rcases keyOf_or_container sound with ⟨l,known⟩ | container
  · rw [Bool.eq_iff_iff,sameKey_keyOf (preserved.keyOf member known) after,sameKey_keyOf known before]
  · rw [sameKey_container container after,sameKey_container container before]

theorem Preserved.entries (preserved : Preserved h h' r table) (present : h.object? r = some (.map table)) (plain : table.aliases = none) :
    h'.mapEntries (.map r) = h.mapEntries (.map r) := by
  obtain ⟨frozen,here⟩ := preserved.object
  simp only [mapEntries,table?,present,here,aliasEntries,plain,tableEntries,Table.entries]

theorem Preserved.lookup {key key' : Value} (preserved : Preserved h h' r table) (present : h.object? r = some (.map table))
    (plain : table.aliases = none) (sound : ∀ entry ∈ table.entries, h.Sound entry.key) (before : h.keyOf key = some k)
    (after : h'.keyOf key' = some k) : h'.lookup? (.map r) key' = h.lookup? (.map r) key := by
  obtain ⟨frozen,here⟩ := preserved.object
  have agree : ∀ i entry, Table.cellAt table.cells i = some entry →
      (entry.key == key' || h'.equal entry.key key') = (entry.key == key || h.equal entry.key key) := by
    intro i entry there
    have member : entry ∈ table.entries := Table.mem_contents.mpr ⟨i,there⟩
    exact preserved.sameKey member (sound entry member) before after
  have found : Table.find? { table with frozen } (h'.hash key') (fun w => w == key' || h'.equal w key') =
      table.find? (h.hash key) (fun w => w == key || h.equal w key) := by
    rw [keyOf_hash after before]
    exact Table.search_agrees agree _ _ _
  rw [plain] at found here
  simp only [lookup?,table?,present,here,Option.bind_some,lookupWith,plain,Option.bind_none,found]

end Heap

end RegisterMachine
