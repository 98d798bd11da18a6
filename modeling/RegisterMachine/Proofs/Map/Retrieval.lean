import RegisterMachine.Proofs.Map.Taking

namespace RegisterMachine.Heap

variable {h h' : Heap} {table table' : Table}

-- No two of the listed keys are the same, and removing one takes its entry and no other.
structure Retrievable (h : Heap) (r : Handle) (table : Table) : Prop where
  different : (h.mapEntries (.map r)).Pairwise fun a b => h.sameKey a.1 b.1 = false ∧ h.sameKey b.1 a.1 = false
  found : ∀ entry ∈ h.mapEntries (.map r), h.taken table entry.1 = [entry]

-- The map itself is not inside the value, nor is any map over registers.
def Aloof (h : Heap) (r : Handle) (v : Value) : Prop := ∀ w, Inside h v w → ∀ table, h.table? w = some table → w ≠ .map r ∧ table.aliases = none

-- Where the entries of a retrievable map lie: a register that holds a variable is the first of its name and was
-- not bound to another name before, no name is in the table, and the keys of the table are under their present
-- hashes.
structure Arranged (h : Heap) (table : Table) : Prop where
  first : table.bound.Pairwise fun a b => (h.assigned? b.2).isSome = true → h.sameName a.1 b.1 = false ∧ a.2 ≠ b.2
  apart : ∀ binding ∈ table.bound, ∀ entry ∈ table.entries, h.sameName binding.1 entry.key = false
  hashed : ∀ entry ∈ table.entries, entry.hash = h.hash entry.key
  different : table.entries.Pairwise fun a b => h.sameKey a.key b.key = false ∧ h.sameKey b.key a.key = false

theorem sameName_self (h : Heap) (v : Value) : h.sameName v v = true := by simp [sameName]

theorem sameKey_self (h : Heap) (v : Value) : h.sameKey v v = true := by simp [sameKey]

theorem entry_unique {cells : List Entry} (different : cells.Pairwise fun a b => h.sameKey a.key b.key = false ∧ h.sameKey b.key a.key = false)
    (left : a ∈ cells) (right : b ∈ cells) (same : h.sameKey a.key b.key = true) : a = b := by
  by_contra other
  have symmetric : Std.Symm fun a b : Entry => h.sameKey a.key b.key = false ∧ h.sameKey b.key a.key = false := ⟨fun _ _ both => both.symm⟩
  rw [(different.forall left right other).1] at same
  cases same

namespace Arranged

variable (arranged : Arranged h table)
include arranged

theorem aliasing (member : (name,i) ∈ table.bound) (assigned : h.assigned? i = some value) : h.aliasing? table name = some (name,i) := by
  obtain ⟨front,back,split⟩ := List.append_of_mem member
  have first := arranged.first
  rw [split,List.pairwise_append] at first
  have before : front.find? (fun binding => h.sameName binding.1 name) = none := by
    refine List.find?_eq_none.mpr fun other earlier same => ?_
    rw [(first.2.2 other earlier (name,i) List.mem_cons_self (by rw [assigned]; rfl)).1] at same
    cases same
  rw [aliasing?,split,List.find?_append,before,Option.none_or]
  exact List.find?_cons_of_pos (h.sameName_self name)

theorem taken_variable (member : (name,i) ∈ table.bound) (assigned : h.assigned? i = some value) : h.taken table name = [(name,value)] := by
  obtain ⟨front,back,split⟩ := List.append_of_mem member
  have first := arranged.first
  rw [split,List.pairwise_append,List.pairwise_cons] at first
  -- No other name is bound to the register.
  have before : front.filter (fun other => other.2 == i) = [] := by
    refine List.filter_eq_nil_iff.mpr fun other earlier same => ?_
    exact (first.2.2 other earlier (name,i) List.mem_cons_self (by rw [assigned]; rfl)).2 (eq_of_beq same)
  have behind : back.filter (fun other => other.2 == i) = [] := by
    refine List.filter_eq_nil_iff.mpr fun other later same => ?_
    exact (first.2.1.1 other later (by rw [eq_of_beq same,assigned]; rfl)).2 (eq_of_beq same).symm
  simp only [taken,arranged.aliasing member assigned]
  rw [split,List.filter_append,before,List.filter_cons,behind]
  simp only [List.nil_append,beq_self_eq_true,if_true,List.filterMap_cons,listing?,assigned,Option.map_some,List.filterMap_nil]

theorem unaliased (member : entry ∈ table.entries) : h.aliasing? table entry.key = none := by
  refine List.find?_eq_none.mpr fun binding bound same => ?_
  rw [arranged.apart binding bound entry member] at same
  cases same

theorem search (valid : table.Valid) (member : entry ∈ table.entries) :
    ∃ i, Table.cellAt table.cells i = some entry ∧ table.find? (h.hash entry.key) (fun k => h.sameKey k entry.key) = some i := by
  cases found : table.find? (h.hash entry.key) fun k => h.sameKey k entry.key with
  | none =>
      have missed := Table.find_none valid found entry member
      rw [arranged.hashed entry member,h.sameKey_self,beq_self_eq_true] at missed
      cases missed
  | some i =>
      obtain ⟨other,present,test⟩ := Table.search_found found
      rw [Bool.and_eq_true] at test
      have same := entry_unique arranged.different (Table.mem_contents.mpr ⟨i,present⟩) member test.2
      exact ⟨i,same ▸ present,rfl⟩

theorem taken_cell (valid : table.Valid) (member : entry ∈ table.entries) : h.taken table entry.key = [(entry.key,entry.value)] := by
  obtain ⟨i,present,found⟩ := arranged.search valid member
  simp only [taken,arranged.unaliased member,found,present]
  rfl

theorem taken (emptiable : Emptiable h r table) (listed : pair ∈ h.mapEntries (.map r)) : h.taken table pair.1 = [pair] := by
  rcases emptiable.mem_listed.mp listed with ⟨i,member,held⟩ | ⟨entry,member,key,value⟩
  · exact arranged.taken_variable member held
  · have taken_ := arranged.taken_cell emptiable.valid member
    rwa [key,value] at taken_

theorem lookup (emptiable : Emptiable h r table) (listed : pair ∈ h.mapEntries (.map r)) : h.lookup? (.map r) pair.1 = some pair.2 := by
  rcases emptiable.mem_listed.mp listed with ⟨i,member,held⟩ | ⟨entry,member,key,value⟩
  · exact (lookup_aliasing emptiable.object (arranged.aliasing member held)).trans held
  · rw [← key,← value]
    obtain ⟨i,present,found⟩ := arranged.search emptiable.valid member
    have counted : table.count ≠ 0 := by
      rw [emptiable.valid.counted]
      exact Nat.ne_of_gt (List.length_pos_of_mem member)
    have searched : table.find? (h.hash entry.key) (fun w => w == entry.key || h.equal w entry.key) = some i := found
    simp only [lookup?,table?,emptiable.object,Option.bind_some,lookupWith,aliasRegister_bound,arranged.unaliased member,Option.map_none,
      if_neg counted,searched,present,Option.map_some]

end Arranged

theorem Arranged.once (arranged : Arranged h table) (emptiable : Emptiable h r table) : ((h.mapEntries (.map r)).map Prod.fst).Nodup := by
  rw [emptiable.listed,List.map_append,List.nodup_append]
  refine ⟨?_,?_,?_⟩
  · refine List.pairwise_map.mpr (List.pairwise_filterMap.mpr (arranged.first.imp fun {a b} apart x left y right same => ?_))
    obtain ⟨_,_,rfl⟩ := Option.map_eq_some_iff.mp left
    obtain ⟨_,held,rfl⟩ := Option.map_eq_some_iff.mp right
    obtain ⟨different,_⟩ := apart (by rw [held]; rfl)
    rw [show a.1 = b.1 from same,h.sameName_self] at different
    cases different
  · refine List.pairwise_map.mpr (List.pairwise_map.mpr (arranged.different.imp fun {a b} apart same => ?_))
    obtain ⟨different,_⟩ := apart
    rw [show a.key = b.key from same,h.sameKey_self] at different
    cases different
  · rintro key left other right rfl
    obtain ⟨⟨name,value⟩,listed,rfl⟩ := List.mem_map.mp left
    obtain ⟨pair,tabled,same⟩ := List.mem_map.mp right
    obtain ⟨entry,member,rfl⟩ := List.mem_map.mp tabled
    obtain ⟨i,bound,_⟩ := mem_listing.mp listed
    have different := arranged.apart _ bound entry member
    rw [show entry.key = name from same,h.sameName_self] at different
    cases different

namespace Retrievable

variable (retrievable : Retrievable h r table) (emptiable : Emptiable h r table)
include retrievable emptiable

theorem listings : table.bound.Pairwise fun a b => ∀ x, h.assigned? a.2 = some x → ∀ y, h.assigned? b.2 = some y → h.sameKey a.1 b.1 = false := by
  have different := retrievable.different
  rw [emptiable.listed,List.pairwise_append,List.pairwise_filterMap] at different
  refine different.1.imp fun {a b} apart x left y right => ?_
  exact (apart (a.1,x) (by rw [listing?,left]; rfl) (b.1,y) (by rw [listing?,right]; rfl)).1

theorem variable_first (member : (name,i) ∈ table.bound) (assigned : h.assigned? i = some value) :
    ∃ j, h.aliasing? table name = some (name,j) ∧ h.assigned? j = some value ∧ ∀ word, (word,j) ∈ table.bound → word = name := by
  have found := retrievable.found (name,value) (emptiable.mem_listed.mpr (Or.inl ⟨i,member,assigned⟩))
  unfold taken at found
  cases search : h.aliasing? table name with
  | none => exact absurd (h.sameName_self name) (List.find?_eq_none.mp search _ member)
  | some binding =>
      obtain ⟨word,j⟩ := binding
      simp only [search] at found
      have member := found ▸ List.mem_cons_self
      obtain ⟨_,held⟩ := mem_register.mp member
      have only : ∀ other, (other,j) ∈ table.bound → other = name := by
        intro other bound
        have also_ := mem_register.mpr ⟨bound,held⟩
        rw [found,List.mem_singleton] at also_
        exact (Prod.mk.inj also_).1
      have first := only word (List.mem_of_find?_eq_some search)
      exact ⟨j,by rw [first],held,only⟩

theorem first : table.bound.Pairwise fun a b => (h.assigned? b.2).isSome = true → h.sameName a.1 b.1 = false ∧ a.2 ≠ b.2 := by
  have listings := retrievable.listings emptiable
  rw [List.pairwise_iff_getElem] at listings ⊢
  intro i k outside inside before assigned
  obtain ⟨value,held⟩ := Option.isSome_iff_exists.mp assigned
  have member : (table.bound[k].1,table.bound[k].2) ∈ table.bound := List.getElem_mem inside
  obtain ⟨j,search,held',only⟩ := retrievable.variable_first emptiable member held
  obtain ⟨_,n,bounded,here,earlier⟩ := List.find?_eq_some_iff_getElem.mp search
  -- A register before the later one would be listed under the same name.
  have late : k ≤ n := by
    by_contra early
    have apart := listings n k bounded inside (by omega) value (by rw [here,held']) value held
    rw [congrArg Prod.fst here,h.sameKey_self] at apart
    cases apart
  have reached : n ≤ k := by
    by_contra early
    have missed := earlier k (by omega)
    rw [h.sameName_self] at missed
    cases missed
  obtain rfl : n = k := by omega
  have missed := earlier i before
  rw [Bool.not_eq_true'] at missed
  refine ⟨missed,fun same => ?_⟩
  have bound : (table.bound[i].1,j) ∈ table.bound := by
    have register : j = table.bound[i].2 := by rw [same,here]
    rw [register]
    exact List.getElem_mem outside
  rw [only _ bound,h.sameName_self] at missed
  cases missed

theorem unaliased (member : entry ∈ table.entries) : h.aliasing? table entry.key = none := by
  have found := retrievable.found (entry.key,entry.value) (emptiable.mem_listed.mpr (Or.inr ⟨entry,member,rfl,rfl⟩))
  unfold taken at found
  cases search : h.aliasing? table entry.key with
  | none => rfl
  | some binding =>
      -- The key would be listed for a register too.
      simp only [search] at found
      obtain ⟨bound,held⟩ := mem_register.mp (found ▸ List.mem_cons_self)
      have different := retrievable.different
      rw [emptiable.listed,List.pairwise_append] at different
      have apart := (different.2.2 _ (mem_listing.mpr ⟨_,bound,held⟩) _ (List.mem_map.mpr ⟨entry,member,rfl⟩)).1
      rw [h.sameKey_self] at apart
      cases apart

theorem cells : table.entries.Pairwise fun a b => h.sameKey a.key b.key = false ∧ h.sameKey b.key a.key = false := by
  have different := retrievable.different
  rw [emptiable.listed,List.pairwise_append] at different
  exact List.pairwise_map.mp different.2.1

theorem hashed (member : entry ∈ table.entries) : entry.hash = h.hash entry.key := by
  have found := retrievable.found (entry.key,entry.value) (emptiable.mem_listed.mpr (Or.inr ⟨entry,member,rfl,rfl⟩))
  simp only [taken,retrievable.unaliased emptiable member] at found
  cases search : table.find? (h.hash entry.key) fun k => h.sameKey k entry.key with
  | none =>
      rw [search] at found
      cases found
  | some i =>
      obtain ⟨other,present,test⟩ := Table.search_found search
      rw [Bool.and_eq_true,beq_iff_eq] at test
      rw [← test.1,entry_unique (retrievable.cells emptiable) (Table.mem_contents.mpr ⟨i,present⟩) member test.2]

theorem arranged : Arranged h table where
  first := retrievable.first emptiable
  apart := fun _ bound _ member => by
    have missed := List.find?_eq_none.mp (retrievable.unaliased emptiable member) _ bound
    rwa [Bool.not_eq_true] at missed
  hashed := fun _ member => retrievable.hashed emptiable member
  different := retrievable.cells emptiable

end Retrievable

theorem Undisturbed.parts {among : Value → Prop} (still : Undisturbed among h h') (inside : among v) : h'.parts v = h.parts v := by
  cases v with
  | list => simp only [Heap.parts,still.items]
  | map => simp only [Heap.parts,still.mapEntries inside]
  | null | int | double | short | str | funcRef => rfl

theorem Undisturbed.inside {among : Value → Prop} (still : Undisturbed among h h') (here : among v) (inside : Inside h' v w) :
    Inside h v w ∧ among w := by
  induction inside with
  | self => exact ⟨.self,here⟩
  | part _ member ih =>
      rw [still.parts ih.2] at member
      exact ⟨.part ih.1 member,still.closed _ _ ih.2 member⟩

namespace Without

variable {gone more : List (Value × Value)} (without : Without h r table gone h' table')
include without

theorem trans (later : Without h' r table' more h'' table'') : Without h r table (gone ++ more) h'' table'' where
  toEmptiable := later.toEmptiable
  listed := by
    rw [List.append_assoc]
    exact without.listed.trans (later.listed.append_left gone)
  bound := later.bound.trans without.bound
  assigned := fun i value assigned => without.assigned i value (later.assigned i value assigned)
  entries := by
    obtain ⟨cells,first⟩ := without.entries
    obtain ⟨others,second⟩ := later.entries
    exact ⟨cells ++ others,by rw [List.append_assoc]; exact first.trans (second.append_left cells)⟩
  others := fun q other => (later.others q other).trans (without.others q other)
  values := fun i => (later.values i).trans (without.values i)

theorem kept (member : entry ∈ table'.entries) : entry ∈ table.entries := by
  obtain ⟨cells,perm⟩ := without.entries
  exact perm.mem_iff.mpr (List.mem_append_right _ member)

theorem tables (other : v ≠ .map r) : h'.table? v = h.table? v := by
  cases v with
  | map q =>
      have different : q ≠ r := fun same => other (same ▸ rfl)
      simp only [table?,without.others q different]
  | null | int | double | short | str | list | funcRef => rfl

variable (object : h.object? r = some (.map table))
include object

theorem texts (v : Value) : h'.text? v = h.text? v := by
  cases v with
  | str q =>
      by_cases same : q = r
      · subst same
        simp only [text?,without.object,object]
      · simp only [text?,without.others q same]
  | null | int | double | short | list | map | funcRef => rfl

theorem items (v : Value) : h'.items? v = h.items? v := by
  cases v with
  | list q =>
      by_cases same : q = r
      · subst same
        simp only [items?,list?,without.object,object]
      · simp only [items?,list?,without.others q same]
  | null | int | double | short | str | map | funcRef => rfl

theorem undisturbed (keys : Value → Prop) (aloof : ∀ v, keys v → Aloof h r v) : Undisturbed (fun w => ∃ v, keys v ∧ Inside h v w) h h' := by
  have others : ∀ w, (∃ v, keys v ∧ Inside h v w) → w ≠ .map r := by
    rintro w ⟨v,key,inside⟩ rfl
    exact (aloof v key _ inside table (by rw [table?,object])).1 rfl
  refine ⟨without.texts object,without.items object,fun w among => without.tables (others w among),?_,?_⟩
  · rintro w other ⟨v,key,inside⟩ found binding member
    have plain := (aloof v key w inside other found).2
    rw [Table.bound,plain] at member
    cases member
  · rintro u w ⟨v,key,inside⟩ member
    exact ⟨v,key,.part inside member⟩

theorem aloof (apart : Aloof h r v) : Aloof h' r v := by
  have still := without.undisturbed object (fun w => w = v) fun w same => same ▸ apart
  intro w inside other found
  obtain ⟨within,_⟩ := still.inside ⟨v,rfl,.self⟩ inside
  have different : w ≠ .map r := by
    rintro rfl
    exact (apart _ within table (by rw [table?,object])).1 rfl
  rw [without.tables different] at found
  exact apart w within other found

theorem keys_undisturbed (aloof : ∀ entry ∈ table.entries, Aloof h r entry.key) :
    ∃ among : Value → Prop, (∀ entry ∈ table.entries, among entry.key) ∧ Undisturbed among h h' := by
  have keys : ∀ w, (∃ entry ∈ table.entries, entry.key = w) → Aloof h r w := by
    rintro w ⟨entry,member,rfl⟩
    exact aloof entry member
  exact ⟨_,fun entry member => ⟨_,⟨entry,member,rfl⟩,.self⟩,without.undisturbed object _ keys⟩

theorem arranged (arranged : Arranged h table) (aloof : ∀ entry ∈ table.entries, Aloof h r entry.key) : Arranged h' table' := by
  obtain ⟨among,here,still⟩ := without.keys_undisturbed object aloof
  refine ⟨?_,?_,?_,?_⟩
  · rw [without.bound]
    refine arranged.first.imp fun {a b} apart assigned => ?_
    obtain ⟨value,held⟩ := Option.isSome_iff_exists.mp assigned
    rw [still.sameName]
    exact apart (by rw [without.assigned _ _ held]; rfl)
  · intro binding bound entry member
    rw [still.sameName]
    exact arranged.apart binding (without.bound ▸ bound) entry (without.kept member)
  · intro entry member
    rw [still.hash (here entry (without.kept member))]
    exact arranged.hashed entry (without.kept member)
  · have symmetric : ∀ {a b : Entry}, h.sameKey a.key b.key = false ∧ h.sameKey b.key a.key = false →
        h.sameKey b.key a.key = false ∧ h.sameKey a.key b.key = false := fun both => both.symm
    obtain ⟨cells,perm⟩ := without.entries
    have different := (List.pairwise_append.mp (perm.pairwise arranged.different symmetric)).2.1
    refine different.imp_of_mem fun {a b} left right apart => ?_
    rwa [still.sameKey (here a (without.kept left)) (here b (without.kept right)),still.sameKey (here b (without.kept right)) (here a (without.kept left))]

theorem aliasing (key : Value) : h'.aliasing? table' key = h.aliasing? table key := by
  have still := without.undisturbed object (fun _ => False) fun _ impossible => impossible.elim
  rw [still.aliasing,aliasing?,aliasing?,without.bound]

theorem forgets (arranged : Arranged h table) (emptiable : Emptiable h r table) (aloof : ∀ entry ∈ table.entries, Aloof h r entry.key)
    (member : (key,value) ∈ gone) : h'.lookup? (.map r) key = none := by
  have once := arranged.once emptiable
  rw [(without.listed.map Prod.fst).nodup_iff,List.map_append,List.nodup_append] at once
  have absent : ∀ x, (key,x) ∉ h'.mapEntries (.map r) := fun x listed =>
    once.2.2 key (List.mem_map.mpr ⟨_,member,rfl⟩) key (List.mem_map.mpr ⟨_,listed,rfl⟩) rfl
  rw [Option.eq_none_iff_forall_ne_some]
  intro x found
  rcases emptiable.mem_listed.mp (without.listed.mem_iff.mpr (List.mem_append_left _ member)) with ⟨i,bound,held⟩ | ⟨entry,tabled,rfl,_⟩
  · have named := (without.aliasing object key).trans (arranged.aliasing bound held)
    rw [lookup_aliasing without.object named] at found
    exact absent x (without.mem_listed.mpr (Or.inl ⟨i,without.bound ▸ bound,found⟩))
  · have unnamed := (without.aliasing object entry.key).trans (arranged.unaliased tabled)
    simp only [lookup?,table?,without.object,Option.bind_some,lookupWith,aliasRegister_bound,unnamed,Option.map_none] at found
    split at found
    · cases found
    · -- What is found would be the entry of the key, which is gone.
      obtain ⟨i,search,_⟩ := Option.bind_eq_some_iff.mp found
      obtain ⟨other,present,test⟩ := Table.search_found search
      rw [Bool.and_eq_true] at test
      have there : other ∈ table'.entries := Table.mem_contents.mpr ⟨i,present⟩
      obtain ⟨among,here,still⟩ := without.keys_undisturbed object aloof
      have equal : h.sameKey other.key entry.key = true := by
        rw [← still.sameKey (here other (without.kept there)) (here entry tabled)]
        exact test.2
      obtain rfl := entry_unique arranged.different (without.kept there) tabled equal
      exact absent other.value (without.mem_listed.mpr (Or.inr ⟨other,there,rfl,rfl⟩))

end Without

theorem sameName_text (same : h.sameName a b = true) : h.text? a = h.text? b := by
  rw [sameName,Bool.or_eq_true,beq_iff_eq,Bool.and_eq_true] at same
  rcases same with rfl | ⟨_,same⟩
  · rfl
  · unfold sameText at same
    split at same
    · rw [eq_of_beq same]
    · exact eq_of_beq same

-- A map with no containers for keys that shows each key once is retrievable, unless a register goes by two names.
theorem ShowsOnce.retrievable (shows : ShowsOnce h (.map r)) (worded : Worded h r table) (emptiable : Emptiable h r table)
    (registers : (table.bound.map Prod.snd).Nodup) : Retrievable h r table := by
  have tidy := shows.tidy worded
  obtain ⟨rest,lists⟩ := worded.lists tidy.filed
  have bindings := tidy.bindings worded lists
  have different : (h.mapEntries (.map r)).Pairwise fun a b => h.sameKey a.1 b.1 = false ∧ h.sameKey b.1 a.1 = false := by
    refine (List.pairwise_map.mp bindings.once).imp_of_mem fun {a b} left right apart => ?_
    obtain ⟨k,known⟩ := Option.isSome_iff_exists.mp (bindings.keyed a left)
    obtain ⟨l,known'⟩ := Option.isSome_iff_exists.mp (bindings.keyed b right)
    rw [known,known'] at apart
    rw [Bool.eq_false_iff,Bool.eq_false_iff,Ne,Ne,sameKey_keyOf known known',sameKey_keyOf known' known]
    exact ⟨fun same => apart (congrArg some same),fun same => apart (congrArg some same.symm)⟩
  have arranged : Arranged h table := by
    refine ⟨?_,?_,fun entry member => (lists.keyed entry member).2,?_⟩
    · refine (tidy.first.and (List.pairwise_map.mp registers)).imp fun {a b} both assigned => ⟨?_,both.2⟩
      rw [Bool.eq_false_iff]
      exact fun same => both.1 assigned (sameName_text same)
    · intro binding bound entry member
      rw [Bool.eq_false_iff]
      exact fun same => tidy.apart binding bound entry member (sameName_text same).symm
    · rw [emptiable.listed,List.pairwise_append] at different
      exact List.pairwise_map.mp different.2.1
  exact ⟨different,fun entry listed => arranged.taken emptiable listed⟩

theorem aloof_scalar (list : v.isList = false) (map : v.isMap = false) : Aloof h r v := by
  have only : ∀ w, Inside h v w → w = v := by
    intro w inside
    induction inside with
    | self => rfl
    | part _ member ih =>
        rw [ih] at member
        cases v with
        | list => cases list
        | map => cases map
        | null | int | double | short | str | funcRef => cases member
  intro w inside table found
  obtain ⟨q,rfl,_⟩ := table?_object.mp found
  rw [← only _ inside] at map
  cases map

-- A map whose entries leave one at a time, each with its key.
structure Draining (h : Heap) (r : Handle) (table : Table) : Prop extends Emptiable h r table,Arranged h table where
  aloof : ∀ entry ∈ table.entries, Aloof h r entry.key

theorem Draining.pops (draining : Draining h r table) (listed : pair ∈ h.mapEntries (.map r)) :
    ∃ table', Without h r table [pair] (after (mapRemove (.map r) pair.1) h) table' ∧ Draining (after (mapRemove (.map r) pair.1) h) r table' := by
  obtain ⟨table',without⟩ := draining.removes pair.1
  rw [draining.toArranged.taken draining.toEmptiable listed] at without
  exact ⟨table',without,without.toEmptiable,without.arranged draining.object draining.toArranged draining.aloof,
    fun entry member => without.aloof draining.object (draining.aloof entry (without.kept member))⟩

end RegisterMachine.Heap
