import RegisterMachine.Proofs.Map.Keys

namespace RegisterMachine

def Value.isContainer (v : Value) : Bool := v.isList || v.isMap

namespace Heap

theorem keyOf_plain {h : Heap} {v : Value} (keyed : h.keyOf v = some k) : v.isContainer = false := by
  cases v with
  | list | map => cases keyed
  | null | int | double | short | str | funcRef => rfl

theorem keyOf_none {h : Heap} {v : Value} (scalar : v.isContainer = false) (gone : h.keyOf v = none) : ∃ q, v = .str q ∧ h.text? v = none := by
  cases v with
  | str q => exact ⟨q,rfl,Option.map_eq_none_iff.mp gone⟩
  | list | map => cases scalar
  | null | int | double | short | funcRef => cases gone

theorem keyOf_string (h : Heap) {v : Value} (string : v.isString = true) : h.keyOf v = (h.text? v).map Key.text := by
  cases v with
  | short | str => rfl
  | null | int | double | list | map | funcRef => cases string

theorem sameKey_scalar {h : Heap} {a b : Value} (ha : a.isContainer = false) (hb : b.isContainer = false) :
    h.sameKey a b = true ↔ h.keyOf a = h.keyOf b := by
  have strings : a.isString = true → b.isString = true → (h.sameKey a b = true ↔ h.keyOf a = h.keyOf b) := by
    intro left right
    rw [sameKey_strings h left right,keyOf_string h left,keyOf_string h right,
      (Option.map_injective fun _ _ same => Key.text.inj same).eq_iff]
  cases left : h.keyOf a with
  | some k =>
      cases right : h.keyOf b with
      | some l => rw [sameKey_keyOf left right,Option.some.injEq]
      | none =>
          obtain ⟨q,rfl,_⟩ := keyOf_none hb right
          refine ⟨fun same => ?_,nofun⟩
          have text : a.isString = true := (sameKey_kinds left same).2.2.1
          rwa [strings text rfl,left,right] at same
  | none =>
      obtain ⟨q,rfl,_⟩ := keyOf_none ha left
      rw [← left]
      cases b with
      | short | str => exact strings rfl rfl
      | list | map => cases hb
      | null | int | double | funcRef =>
          rw [left]
          exact ⟨nofun,nofun⟩

theorem hash_scalar {h h' : Heap} {a b : Value} (ha : a.isContainer = false) (hb : b.isContainer = false) (same : h.keyOf a = h'.keyOf b) :
    h.hash a = h'.hash b := by
  cases left : h.keyOf a with
  | some k => exact keyOf_hash left (same.symm.trans left)
  | none =>
      obtain ⟨p,rfl,first⟩ := keyOf_none ha left
      obtain ⟨q,rfl,second⟩ := keyOf_none hb (same.symm.trans left)
      simp only [hash,hashWithin,stringHash,first,second]

-- Entries under different keys, each under the hash of its key.
structure Rows (h : Heap) (entries : List Entry) : Prop where
  scalar : ∀ entry ∈ entries, entry.key.isContainer = false
  hashed : ∀ entry ∈ entries, entry.hash = h.hash entry.key
  once : (entries.map fun entry => h.keyOf entry.key).Nodup

theorem Rows.nil (h : Heap) : Rows h [] where
  scalar := fun _ member => absurd member List.not_mem_nil
  hashed := fun _ member => absurd member List.not_mem_nil
  once := List.nodup_nil

theorem Rows.perm (rows : Rows h entries) (same : entries.Perm others) : Rows h others where
  scalar := fun entry member => rows.scalar entry (same.mem_iff.mpr member)
  hashed := fun entry member => rows.hashed entry (same.mem_iff.mpr member)
  once := (same.map _).nodup_iff.mp rows.once

theorem Rows.cons {h : Heap} {entry : Entry} (rows : Rows h entries) (scalar : entry.key.isContainer = false)
    (hash : entry.hash = h.hash entry.key) (absent : ∀ other ∈ entries, h.keyOf other.key ≠ h.keyOf entry.key) : Rows h (entry :: entries) where
  scalar := List.forall_mem_cons.mpr ⟨scalar,rows.scalar⟩
  hashed := List.forall_mem_cons.mpr ⟨hash,rows.hashed⟩
  once := by
    refine List.nodup_cons.mpr ⟨fun member => ?_,rows.once⟩
    obtain ⟨other,listed,same⟩ := List.mem_map.mp member
    exact absent other listed same

theorem Rows.carry (rows : Rows h entries) (keys : ∀ entry ∈ entries, h'.keyOf entry.key = h.keyOf entry.key) : Rows h' entries where
  scalar := rows.scalar
  hashed := by
    intro entry member
    have scalar := rows.scalar entry member
    exact (rows.hashed entry member).trans (hash_scalar scalar scalar (keys entry member).symm)
  once := by
    rw [List.map_congr_left keys]
    exact rows.once

theorem Rows.find {h : Heap} {table : Table} (rows : Rows h (Table.contents table.cells)) (valid : table.Valid) (scalar : v.isContainer = false) :
    match table.find? (h.hash v) fun w => h.sameKey w v with
    | some i => ∃ entry, Table.cellAt table.cells i = some entry ∧ h.keyOf entry.key = h.keyOf v
    | none => ∀ entry ∈ Table.contents table.cells, h.keyOf entry.key ≠ h.keyOf v := by
  split
  · rename_i i found
    obtain ⟨entry,present,test⟩ := Table.search_found found
    have member := Table.mem_contents.mpr ⟨i,present⟩
    rw [Bool.and_eq_true,sameKey_scalar (rows.scalar entry member) scalar] at test
    exact ⟨entry,present,test.2⟩
  · rename_i absent
    intro entry member same
    have fails := Table.find_none valid absent entry member
    have keyed := rows.scalar entry member
    rw [rows.hashed entry member,hash_scalar keyed scalar same,(sameKey_scalar keyed scalar).mpr same] at fails
    simp at fails

theorem Rows.lookup {h : Heap} {table : Table} (rows : Rows h (Table.contents table.cells)) (valid : table.Valid) (scalar : key.isContainer = false)
    (unaliased : table.aliases.bind (h.aliasRegister? · key) = none) :
    h.lookupWith h.equal table key = some value ↔ ∃ entry ∈ Table.contents table.cells, h.keyOf entry.key = h.keyOf key ∧ entry.value = value := by
  have found := rows.find valid scalar
  have test : (fun w => w == key || h.equal w key) = fun w => h.sameKey w key := rfl
  simp only [lookupWith,unaliased,test]
  by_cases empty : table.count = 0
  · have none_listed : Table.contents table.cells = [] := List.eq_nil_of_length_eq_zero (valid.counted.symm.trans empty)
    simp [empty,none_listed]
  · rw [if_neg empty]
    cases search : table.find? (h.hash key) fun w => h.sameKey w key with
    | none =>
        rw [search] at found
        constructor
        · intro impossible
          cases impossible
        · rintro ⟨entry,member,same,_⟩
          exact absurd same (found entry member)
    | some i =>
        rw [search] at found
        obtain ⟨entry,present,same⟩ := found
        have member := Table.mem_contents.mpr ⟨i,present⟩
        rw [Option.bind_some,present,Option.map_some,Option.some.injEq]
        constructor
        · exact fun value => ⟨entry,member,same,value⟩
        · rintro ⟨other,listed,also,value⟩
          rw [List.inj_on_of_nodup_map rows.once member listed (same.trans also.symm)]
          exact value

end Heap

end RegisterMachine
