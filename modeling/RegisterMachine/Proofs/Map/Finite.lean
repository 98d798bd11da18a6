import RegisterMachine.Machine.Intrinsics
import RegisterMachine.Proofs.Heap.Reachable
import RegisterMachine.Proofs.Map.Rows
import Mathlib.Data.Set.Card

namespace RegisterMachine.Heap

-- Entries that bind the keys of a finite map, each once, under the hashes of their keys.
structure Lists (h : Heap) (entries : List Entry) (m : Key → Option Value) : Prop where
  keyed : ∀ entry ∈ entries, (h.keyOf entry.key).isSome = true ∧ entry.hash = h.hash entry.key
  once : (entries.map fun entry => h.keyOf entry.key).Nodup
  binds : ∀ k value, m k = some value ↔ ∃ entry ∈ entries, h.keyOf entry.key = some k ∧ entry.value = value

theorem Lists.nil (h : Heap) : Lists h [] fun _ => none where
  keyed := fun _ member => absurd member List.not_mem_nil
  once := List.nodup_nil
  binds := by simp

theorem Lists.perm (lists : Lists h entries m) (same : entries.Perm others) : Lists h others m where
  keyed := fun entry member => lists.keyed entry (same.mem_iff.mpr member)
  once := (same.map _).nodup_iff.mp lists.once
  binds := by
    intro k value
    rw [lists.binds]
    simp only [same.mem_iff]

theorem Lists.cons {h : Heap} {entry : Entry} (lists : Lists h entries m) (key : h.keyOf entry.key = some k)
    (hash : entry.hash = h.hash entry.key) (absent : m k = none) :
    Lists h (entry :: entries) (Function.update m k (some entry.value)) where
  keyed := by
    intro other member
    rcases List.mem_cons.mp member with rfl | later
    · exact ⟨by rw [key]; rfl,hash⟩
    · exact lists.keyed other later
  once := by
    rw [List.map_cons,List.nodup_cons]
    refine ⟨?_,lists.once⟩
    intro member
    obtain ⟨other,listed,same⟩ := List.mem_map.mp member
    have bound := (lists.binds k other.value).mpr ⟨other,listed,same.trans key,rfl⟩
    rw [absent] at bound
    cases bound
  binds := by
    intro l value
    by_cases here : l = k
    · subst l
      rw [Function.update_self]
      constructor
      · intro same
        exact ⟨entry,List.mem_cons_self,key,Option.some.inj same⟩
      · rintro ⟨other,member,other_key,rfl⟩
        rcases List.mem_cons.mp member with rfl | later
        · rfl
        · have bound := (lists.binds k other.value).mpr ⟨other,later,other_key,rfl⟩
          rw [absent] at bound
          cases bound
    · rw [Function.update_of_ne here,lists.binds]
      constructor
      · rintro ⟨other,member,both⟩
        exact ⟨other,List.mem_cons_of_mem _ member,both⟩
      · rintro ⟨other,member,other_key,rfl⟩
        rcases List.mem_cons.mp member with rfl | later
        · rw [key] at other_key
          exact absurd (Option.some.inj other_key).symm here
        · exact ⟨other,later,other_key,rfl⟩

theorem Lists.tail {h : Heap} {entry : Entry} (lists : Lists h (entry :: entries) m) (key : h.keyOf entry.key = some k) :
    Lists h entries (Function.update m k none) where
  keyed := fun other member => lists.keyed other (List.mem_cons_of_mem _ member)
  once := (List.nodup_cons.mp lists.once).2
  binds := by
    have fresh : ∀ other ∈ entries, h.keyOf other.key ≠ some k := by
      intro other member same
      have once := lists.once
      rw [List.map_cons,List.nodup_cons] at once
      exact once.1 (List.mem_map.mpr ⟨other,member,same.trans key.symm⟩)
    intro l value
    by_cases here : l = k
    · subst l
      rw [Function.update_self]
      constructor
      · intro impossible
        cases impossible
      · rintro ⟨other,member,other_key,_⟩
        exact absurd other_key (fresh other member)
    · rw [Function.update_of_ne here,lists.binds]
      constructor
      · rintro ⟨other,member,other_key,rfl⟩
        rcases List.mem_cons.mp member with rfl | later
        · rw [key] at other_key
          exact absurd (Option.some.inj other_key).symm here
        · exact ⟨other,later,other_key,rfl⟩
      · rintro ⟨other,member,both⟩
        exact ⟨other,List.mem_cons_of_mem _ member,both⟩

theorem Lists.carry (lists : Lists h entries m) (keys : ∀ entry ∈ entries, h'.keyOf entry.key = h.keyOf entry.key) : Lists h' entries m where
  keyed := by
    intro entry member
    obtain ⟨keyed,hash⟩ := lists.keyed entry member
    obtain ⟨k,known⟩ := Option.isSome_iff_exists.mp keyed
    exact ⟨by rw [keys entry member]; exact keyed,hash.trans (keyOf_hash known ((keys entry member).trans known))⟩
  once := by
    have same : entries.map (fun entry => h'.keyOf entry.key) = entries.map fun entry => h.keyOf entry.key := List.map_congr_left keys
    rw [same]
    exact lists.once
  binds := by
    intro k value
    rw [lists.binds]
    constructor
    · rintro ⟨entry,member,known,same⟩
      exact ⟨entry,member,(keys entry member).trans known,same⟩
    · rintro ⟨entry,member,known,same⟩
      exact ⟨entry,member,(keys entry member).symm.trans known,same⟩

theorem Lists.move (lists : Lists h entries m) (keys : ∀ v, h'.keyOf v = h.keyOf v) : Lists h' entries m :=
  lists.carry fun entry _ => keys entry.key

theorem Lists.bound {h : Heap} {entry : Entry} (lists : Lists h entries m) (member : entry ∈ entries)
    (key : h.keyOf entry.key = some k) : m k = some entry.value :=
  (lists.binds k entry.value).mpr ⟨entry,member,key,rfl⟩

-- Pairs that bind the keys of a finite map, each once, wherever they are kept.
structure Bindings (h : Heap) (pairs : List (Value × Value)) (m : Key → Option Value) : Prop where
  keyed : ∀ pair ∈ pairs, (h.keyOf pair.1).isSome = true
  once : (pairs.map fun pair => h.keyOf pair.1).Nodup
  listed : ∀ k value, m k = some value ↔ ∃ key, h.keyOf key = some k ∧ (key,value) ∈ pairs

theorem Lists.bindings (lists : Lists h entries m) : Bindings h (entries.map fun entry => (entry.key,entry.value)) m where
  keyed := by
    intro pair member
    obtain ⟨entry,listed,rfl⟩ := List.mem_map.mp member
    exact (lists.keyed entry listed).1
  once := by
    rw [List.map_map]
    exact lists.once
  listed := by
    intro k value
    rw [lists.binds]
    constructor
    · rintro ⟨entry,member,known,rfl⟩
      exact ⟨entry.key,known,List.mem_map.mpr ⟨entry,member,rfl⟩⟩
    · rintro ⟨key,known,member⟩
      obtain ⟨entry,listed,same⟩ := List.mem_map.mp member
      cases same
      exact ⟨entry,listed,known,rfl⟩

theorem Bindings.unique {pairs : List (Value × Value)} {m m' : Key → Option Value} (left : Bindings h pairs m) (right : Bindings h pairs m') :
    m = m' := by
  funext k
  apply Option.ext
  intro value
  rw [left.listed,right.listed]

theorem Bindings.bound {pairs : List (Value × Value)} {pair : Value × Value} (bindings : Bindings h pairs m) (listed : pair ∈ pairs) :
    ∃ k, h.keyOf pair.1 = some k ∧ m k = some pair.2 := by
  obtain ⟨k,known⟩ := Option.isSome_iff_exists.mp (bindings.keyed pair listed)
  exact ⟨k,known,(bindings.listed k pair.2).mpr ⟨pair.1,known,listed⟩⟩

theorem Bindings.keys {pairs : List (Value × Value)} (bindings : Bindings h pairs m) :
    {k | (m k).isSome = true} = (((pairs.map fun pair => h.keyOf pair.1).filterMap id).toFinset : Set Key) := by
  ext k
  simp only [Set.mem_ofPred_eq,List.coe_toFinset,Option.isSome_iff_exists,bindings.listed]
  constructor
  · rintro ⟨value,key,known,member⟩
    exact List.mem_filterMap.mpr ⟨some k,List.mem_map.mpr ⟨_,member,known⟩,rfl⟩
  · intro member
    obtain ⟨key,listed,some⟩ := List.mem_filterMap.mp member
    obtain ⟨pair,present,rfl⟩ := List.mem_map.mp listed
    exact ⟨pair.2,pair.1,some,present⟩

theorem Bindings.finite {pairs : List (Value × Value)} (bindings : Bindings h pairs m) : {k | (m k).isSome = true}.Finite := by
  rw [bindings.keys]
  exact Finset.finite_toSet _

theorem Bindings.count {pairs : List (Value × Value)} (bindings : Bindings h pairs m) : pairs.length = {k | (m k).isSome = true}.ncard := by
  let keys := (pairs.map fun pair => h.keyOf pair.1).filterMap id
  have once : keys.Nodup := by
    refine List.Nodup.filterMap ?_ bindings.once
    intro a b k ha hb
    exact (Option.mem_def.mp ha).trans (Option.mem_def.mp hb).symm
  have all : keys.length = pairs.length := by
    have every : keys.length = (pairs.map fun pair => h.keyOf pair.1).length := by
      apply List.filterMap_length_eq_length.mpr
      intro key member
      obtain ⟨pair,listed,rfl⟩ := List.mem_map.mp member
      exact bindings.keyed pair listed
    rw [every,List.length_map]
  rw [bindings.keys,Set.ncard_coe_finset,List.toFinset_card_of_nodup once,all]

-- A map object that may be changed and whose table, aliases apart, binds the keys of a finite map.
structure Tabled (h : Heap) (r : Handle) (table : Table) (m : Key → Option Value) : Prop where
  object : h.object? r = some (.map table)
  valid : table.Valid
  writable : table.frozen = false
  lists : Lists h (Table.contents table.cells) m

-- The same of an object that may be frozen.
structure Holding (h : Heap) (r : Handle) (table : Table) (m : Key → Option Value) : Prop where
  object : h.object? r = some (.map table)
  valid : table.Valid
  lists : Lists h (Table.contents table.cells) m

theorem Tabled.holding (tabled : Tabled h r table m) : Holding h r table m := ⟨tabled.object,tabled.valid,tabled.lists⟩

theorem Holding.tabled (holding : Holding h r table m) (writable : table.frozen = false) : Tabled h r table m :=
  ⟨holding.object,holding.valid,writable,holding.lists⟩

-- A map object whose table binds the keys of a finite map.
structure Models (h : Heap) (r : Handle) (table : Table) (m : Key → Option Value) : Prop extends Tabled h r table m where
  plain : table.aliases = none

theorem Lists.rows (lists : Lists h entries m) : Rows h entries where
  scalar := by
    intro entry member
    obtain ⟨k,known⟩ := Option.isSome_iff_exists.mp (lists.keyed entry member).1
    exact keyOf_plain known
  hashed := fun entry member => (lists.keyed entry member).2
  once := lists.once

theorem Lists.find {h : Heap} {table : Table} (lists : Lists h (Table.contents table.cells) m) (valid : table.Valid)
    (key : h.keyOf v = some k) :
    match table.find? (h.hash v) fun w => h.sameKey w v with
    | some i => ∃ entry, Table.cellAt table.cells i = some entry ∧ h.keyOf entry.key = some k
    | none => m k = none := by
  have found := lists.rows.find valid (keyOf_plain key)
  rw [key] at found
  split
  · rename_i i search
    rw [search] at found
    exact found
  · rename_i search
    rw [search] at found
    rw [Option.eq_none_iff_forall_ne_some]
    intro value bound
    obtain ⟨entry,member,known,_⟩ := (lists.binds k value).mp bound
    exact found entry member known

theorem Lists.lookup {h : Heap} {table : Table} (lists : Lists h (Table.contents table.cells) m) (valid : table.Valid)
    (key : h.keyOf v = some k) (unaliased : table.aliases.bind (h.aliasRegister? · v) = none) :
    h.lookupWith h.equal table v = m k := by
  refine Option.ext fun value => ?_
  rw [lists.rows.lookup valid (keyOf_plain key) unaliased,lists.binds,key]

theorem keyOf_touched {h h' : Heap} {table table' : Table} (object : h.object? r = some (.map table))
    (touched : Touched h h' r (.map table')) (v : Value) : h'.keyOf v = h.keyOf v := by
  apply keyOf_texts
  intro w
  cases w with
  | str q =>
      by_cases same : q = r
      · subst q
        simp only [text?,object,touched.here]
      · simp only [text?,touched.others q same]
  | null | int | double | short | list | map | funcRef => rfl

theorem Tabled.lookup (tabled : Tabled h r table m) (key : h.keyOf v = some k) (unaliased : h.aliasOf? (.map r) v = none) :
    h.lookup? (.map r) v = m k := by
  simp only [aliasOf?,table?,tabled.object] at unaliased
  simp only [lookup?,table?,tabled.object,Option.bind_some]
  exact tabled.lists.lookup tabled.valid key unaliased

theorem Tabled.writes (tabled : Tabled h r table m) : h.writableMap (.map r) = .ok r := by
  have live : h.isLive r = true := by rw [isLive,tabled.object]; rfl
  simp [writableMap,mapHandle,live,table?,tabled.object,tabled.writable]

theorem Tabled.mapSet (tabled : Tabled h r table m) {key : Value} (value : Value) (unaliased : h.aliasOf? (.map r) key = none) :
    mapSet (.map r) key value h = .ok () (h.store r key value) := by
  simp [Heap.mapSet,tabled.writes,unaliased]

theorem Holding.stored (holding : Holding h r table m) (key : h.keyOf v = some k) (value : Value) :
    ∃ grown : Bool, (grown = true ↔ m k = none ∧ (table.count + 1) * 4 > table.cells.size * 3) ∧
      (h.stored table v value).cells.size = (if grown then 2 * table.cells.size else table.cells.size) ∧
      (h.stored table v value).resizes = (if grown then table.resizes + 1 else table.resizes) ∧
      (h.stored table v value).aliases = table.aliases ∧ (h.stored table v value).frozen = table.frozen ∧
      Holding (h.store r v value) r (h.stored table v value) (Function.update m k (some value)) := by
  have touched := store_touched v value holding.object
  have keys := keyOf_touched holding.object touched
  have found := holding.lists.find holding.valid key
  have known := holding.lists.move keys
  unfold Heap.stored at touched ⊢
  cases search : table.find? (h.hash v) fun w => h.sameKey w v with
  | some i =>
      rw [search] at found touched
      obtain ⟨entry,present,same⟩ := found
      have bound := holding.lists.bound (Table.mem_contents.mpr ⟨i,present⟩) same
      obtain ⟨rest,before,after⟩ := Table.setValue_contents value present
      have same' : (h.store r v value).keyOf entry.key = some k := by rw [keys]; exact same
      refine ⟨false,?_,?_,rfl,rfl,rfl,touched.here,Table.setValue_valid i value holding.valid,?_⟩
      · simp [bound]
      · simp
      · have removed := (known.perm before).tail same'
        have replaced : Lists (h.store r v value) ({ entry with value } :: rest) _ := removed.cons same'
          ((known.keyed entry (Table.mem_contents.mpr ⟨i,present⟩)).2) (Function.update_self ..)
        rw [Function.update_idem] at replaced
        exact replaced.perm after.symm
  | none =>
      rw [search] at found touched
      obtain ⟨size,resizes,frozen,aliases⟩ := Table.insertNew_parts { key := v,value,hash := h.hash v } holding.valid
      have key' : (h.store r v value).keyOf v = some k := by rw [keys]; exact key
      refine ⟨table.needsGrowth,?_,size,resizes,aliases,frozen,touched.here,Table.insertNew_valid _ holding.valid,?_⟩
      · simp [found,Table.needsGrowth]
      · have added : Lists (h.store r v value) ({ key := v,value,hash := h.hash v } :: Table.contents table.cells) _ :=
          known.cons key' (keyOf_hash key key') found
        exact added.perm (Table.insertNew_contents _ holding.valid).symm

theorem Tabled.stored (tabled : Tabled h r table m) (key : h.keyOf v = some k) (value : Value) :
    ∃ grown : Bool, (grown = true ↔ m k = none ∧ (table.count + 1) * 4 > table.cells.size * 3) ∧
      (h.stored table v value).cells.size = (if grown then 2 * table.cells.size else table.cells.size) ∧
      (h.stored table v value).resizes = (if grown then table.resizes + 1 else table.resizes) ∧
      (h.stored table v value).aliases = table.aliases ∧
      Tabled (h.store r v value) r (h.stored table v value) (Function.update m k (some value)) := by
  obtain ⟨grown,when_,size,resizes,aliases,frozen,after⟩ := tabled.holding.stored key value
  exact ⟨grown,when_,size,resizes,aliases,after.tabled (frozen.trans tabled.writable)⟩

theorem Tabled.removed (tabled : Tabled h r table m) (key : h.keyOf v = some k) (unaliased : h.aliasOf? (.map r) v = none) :
    ∃ h' table', mapRemove (.map r) v h = .ok (m k).isSome h' ∧ Tabled h' r table' (Function.update m k none) ∧
      table'.cells.size = table.cells.size ∧ table'.resizes = table.resizes ∧ table'.aliases = table.aliases ∧
      Touched h h' r (.map table') := by
  have found := tabled.lists.find tabled.valid key
  have cell : h.findCell? (.map r) (h.hash v) v = table.find? (h.hash v) fun w => h.sameKey w v := by
    simp only [findCell?,table?,tabled.object]
  simp only [mapRemove,tabled.writes,unaliased,cell]
  cases search : table.find? (h.hash v) fun w => h.sameKey w v with
  | none =>
      rw [search] at found
      refine ⟨h,table,by rw [found]; rfl,?_,rfl,rfl,rfl,tabled.object,fun _ _ => rfl,fun _ => Iff.rfl,.refl h⟩
      rw [← found,Function.update_eq_self]
      exact tabled
  | some i =>
      rw [search] at found
      obtain ⟨entry,present,same⟩ := found
      have member := Table.mem_contents.mpr ⟨i,present⟩
      have touched := modifyTable_touched (·.removeAt i) tabled.object
      have keys := keyOf_touched tabled.object touched
      obtain ⟨_,_,size,listed⟩ := Table.removeAt_mends tabled.valid present
      refine ⟨_,_,by rw [tabled.lists.bound member same]; rfl,?_,size,rfl,rfl,touched⟩
      refine ⟨touched.here,Table.removeAt_valid tabled.valid present,tabled.writable,?_⟩
      exact ((tabled.lists.move keys).perm listed).tail (by rw [keys]; exact same)

theorem Tabled.cleared (tabled : Tabled h r table m) : Tabled (h.modifyTable r Table.clear) r table.clear fun _ => none where
  object := (modifyTable_touched Table.clear tabled.object).here
  valid := Table.clear_valid tabled.valid
  writable := tabled.writable
  lists := by simpa [Table.clear] using Lists.nil (h.modifyTable r Table.clear)

theorem Models.unaliased (models : Models h r table m) (v : Value) : h.aliasOf? (.map r) v = none := by
  simp [aliasOf?,table?,models.object,models.plain]

theorem Models.mapSet (models : Models h r table m) (key value : Value) :
    mapSet (.map r) key value h = .ok () (h.store r key value) :=
  models.toTabled.mapSet value (models.unaliased key)

theorem Models.stored (models : Models h r table m) (key : h.keyOf v = some k) (value : Value) :
    ∃ grown : Bool, (grown = true ↔ m k = none ∧ (table.count + 1) * 4 > table.cells.size * 3) ∧
      (h.stored table v value).cells.size = (if grown then 2 * table.cells.size else table.cells.size) ∧
      (h.stored table v value).resizes = (if grown then table.resizes + 1 else table.resizes) ∧
      Models (h.store r v value) r (h.stored table v value) (Function.update m k (some value)) := by
  obtain ⟨grown,when_,size,resizes,aliases,after⟩ := models.toTabled.stored key value
  exact ⟨grown,when_,size,resizes,after,aliases.trans models.plain⟩

theorem Models.removed (models : Models h r table m) (key : h.keyOf v = some k) :
    ∃ h' table', mapRemove (.map r) v h = .ok (m k).isSome h' ∧ Models h' r table' (Function.update m k none) ∧
      table'.cells.size = table.cells.size ∧ table'.resizes = table.resizes ∧ ∀ w, h'.keyOf w = h.keyOf w := by
  obtain ⟨h',table',result,after,size,resizes,aliases,touched⟩ := models.toTabled.removed key (models.unaliased v)
  exact ⟨h',table',result,⟨after,aliases.trans models.plain⟩,size,resizes,keyOf_touched models.object touched⟩

theorem Models.cleared (models : Models h r table m) :
    ∃ h' table', mapClear (.map r) h = .ok () h' ∧ Models h' r table' (fun _ => none) ∧
      table'.cells.size = table.cells.size ∧ table'.resizes = table.resizes ∧ ∀ w, h'.keyOf w = h.keyOf w := by
  have registers : h.aliasRegisters (.map r) = [] := by
    simp [aliasRegisters,table?,models.object,models.plain]
  refine ⟨h.modifyTable r Table.clear,table.clear,by simp only [mapClear,models.writes,registers,List.foldl_nil],
    ⟨models.toTabled.cleared,models.plain⟩,?_,rfl,keyOf_touched models.object (modifyTable_touched Table.clear models.object)⟩
  simp [Table.clear]

-- What a host reads of a map that is a finite map.
structure Answers (h : Heap) (v : Value) (m : Key → Option Value) : Prop where
  lookup? : ∀ key k, h.keyOf key = some k → h.lookup? v key = m k
  has : ∀ key k, h.keyOf key = some k → h.hasIndex v key = (m k).isSome
  count : h.mapCount v = {k | (m k).isSome = true}.ncard
  entries : Bindings h (h.mapEntries v) m

theorem Bindings.answers {h : Heap} (bindings : Bindings h (h.mapEntries (.map r)) m)
    (lookup? : ∀ key k, h.keyOf key = some k → h.lookup? (.map r) key = m k) (count : h.mapCount (.map r) = (h.mapEntries (.map r)).length) :
    Answers h (.map r) m where
  lookup? := lookup?
  has := by
    intro key k known
    simp only [hasIndex,lookup? key k known]
  count := count.trans bindings.count
  entries := bindings

theorem Models.sizes (models : Models h r table m) :
    h.mapCount (.map r) = table.count ∧ h.mapCapacity (.map r) = table.cells.size ∧ h.mapResizes (.map r) = table.resizes := by
  simp [mapCount,mapCapacity,mapResizes,table?,models.object,aliasEntries,models.plain]

theorem mapEntries_plain {h : Heap} {table : Table} (object : h.object? r = some (.map table)) (plain : table.aliases = none) :
    h.mapEntries (.map r) = (Table.contents table.cells).map fun entry => (entry.key,entry.value) := by
  simp [mapEntries,table?,object,aliasEntries,plain,tableEntries,Table.entries,Table.contents]

theorem Lists.answers {h : Heap} {table : Table} (lists : Lists h (Table.contents table.cells) m)
    (object : h.object? r = some (.map table)) (valid : table.Valid) (plain : table.aliases = none) : Answers h (.map r) m := by
  have entries := mapEntries_plain object plain
  have count : h.mapCount (.map r) = table.count := by
    simp [mapCount,table?,object,aliasEntries,plain]
  refine Bindings.answers ?_ (fun key k known => ?_) ?_
  · rw [entries]
    exact lists.bindings
  · simp only [lookup?,table?,object,Option.bind_some]
    exact lists.lookup valid known (by rw [plain,Option.bind_none])
  · rw [entries,count,valid.counted,List.length_map]

theorem Models.answers (models : Models h r table m) : Answers h (.map r) m :=
  models.lists.answers models.object models.valid models.plain

-- Updates of a map by a host, and what they do to the finite map.
inductive Update where
  | set (key value : Value)
  | remove (key : Value)
  | clear

namespace Update

def key? : Update → Option Value
  | set key _ => some key
  | remove key => some key
  | clear => none

def perform (v : Value) : Update → HeapM Unit
  | set key value => mapSet v key value
  | remove key => do
    let _ ← mapRemove v key
    pure ()
  | clear => mapClear v

def performAll (v : Value) : List Update → HeapM Unit
  | [] => pure ()
  | update :: rest => do
    update.perform v
    performAll v rest

def applied (h : Heap) (m : Key → Option Value) : Update → Key → Option Value
  | set key value => match h.keyOf key with
    | some k => Function.update m k (some value)
    | none => m
  | remove key => match h.keyOf key with
    | some k => Function.update m k none
    | none => m
  | clear => fun _ => none

end Update

theorem Models.perform (models : Models h r table m) (update : Update)
    (keyed : ∀ key, update.key? = some key → (h.keyOf key).isSome = true) :
    ∃ h' table', update.perform (.map r) h = .ok () h' ∧ Models h' r table' (update.applied h m) ∧
      ∀ w, h'.keyOf w = h.keyOf w := by
  cases update with
  | set key value =>
      obtain ⟨k,known⟩ := Option.isSome_iff_exists.mp (keyed key rfl)
      obtain ⟨_,_,_,_,after⟩ := models.stored known value
      refine ⟨_,h.stored table key value,models.mapSet key value,?_,
        keyOf_touched models.object (store_touched key value models.object)⟩
      simp only [Update.applied,known]
      exact after
  | remove key =>
      obtain ⟨k,known⟩ := Option.isSome_iff_exists.mp (keyed key rfl)
      obtain ⟨h',table',result,after,_,_,keys⟩ := models.removed known
      refine ⟨h',table',?_,?_,keys⟩
      · simp only [Update.perform,bind,EStateM.bind,result]
        rfl
      · simp only [Update.applied,known]
        exact after
  | clear =>
      obtain ⟨h',table',result,after,_,_,keys⟩ := models.cleared
      exact ⟨h',table',result,after,keys⟩

theorem applied_keys (keys : ∀ w, h'.keyOf w = h.keyOf w) : Update.applied h' = Update.applied h := by
  funext m update
  cases update with
  | set key value => simp only [Update.applied,keys]
  | remove key => simp only [Update.applied,keys]
  | clear => rfl

theorem Models.performAll (models : Models h r table m) (updates : List Update)
    (keyed : ∀ update ∈ updates, ∀ key, update.key? = some key → (h.keyOf key).isSome = true) :
    ∃ h' table', Update.performAll (.map r) updates h = .ok () h' ∧
      Models h' r table' (updates.foldl (Update.applied h) m) := by
  induction updates generalizing h table m with
  | nil => exact ⟨h,table,rfl,models⟩
  | cons update rest ih =>
      obtain ⟨h',table',result,after,keys⟩ := models.perform update (keyed update List.mem_cons_self)
      obtain ⟨h'',table'',later,final⟩ := ih after fun other member key which => by
        rw [keys]
        exact keyed other (List.mem_cons_of_mem _ member) key which
      refine ⟨h'',table'',?_,?_⟩
      · simp only [Update.performAll,bind,EStateM.bind,result]
        exact later
      · rw [applied_keys keys] at final
        exact final

theorem newMap_models {h₀ h : Heap} (intact : h₀.Intact) (made : newMap n h₀ = .ok v h) :
    ∃ r, v = .map r ∧ Models h r (.withCapacity n) fun _ => none := by
  obtain ⟨r,result,rfl⟩ := map_ok made
  obtain ⟨s,_,_,installed⟩ := allocate_ok intact result
  refine ⟨r,rfl,⟨installed.object,Table.withCapacity_valid n,rfl,?_⟩,rfl⟩
  simpa [Table.withCapacity] using Lists.nil h

end RegisterMachine.Heap
