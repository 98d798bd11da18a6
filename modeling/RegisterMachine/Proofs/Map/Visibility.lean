import RegisterMachine.Proofs.Map.Overlay
import RegisterMachine.Proofs.Map.Equality
import Mathlib.Data.List.Find

namespace RegisterMachine

-- The aliases of a table in the order in which they are searched.
def Table.bound (table : Table) : List (Value × Nat) :=
  match table.aliases with
  | some aliases => aliases.bindings.toList
  | none => []

namespace Heap

variable {h : Heap} {table : Table}

-- The entries have different keys, and looking a key up gives its entry.
structure ShowsOnce (h : Heap) (v : Value) : Prop where
  different : (h.mapEntries v).Pairwise fun a b => h.equal a.1 b.1 = false
  answers : ∀ entry ∈ h.mapEntries v, h.lookup? v entry.1 = some entry.2

-- A register that holds a variable is the first of its name, no name is bound in the table, and the
-- keys of the table were there when they were bound.
structure Tidy (h : Heap) (table : Table) : Prop where
  first : table.bound.Pairwise fun a b => (h.assigned? b.2).isSome = true → h.text? a.1 ≠ h.text? b.1
  apart : ∀ binding ∈ table.bound, ∀ entry ∈ table.entries, h.text? entry.key ≠ h.text? binding.1
  filed : ∀ entry ∈ table.entries, entry.hash ≠ 0

-- A map whose names are texts and whose table binds no lists and no maps.
structure Worded (h : Heap) (r : Handle) (table : Table) : Prop where
  object : h.object? r = some (.map table)
  valid : table.Valid
  filing : Filed (fun _ => True) h table.filings
  names : ∀ binding ∈ table.bound, (h.text? binding.1).isSome = true
  keys : ∀ entry ∈ table.entries, (h.keyOf entry.key).isSome = true

theorem mapEntries_bound (object : h.object? r = some (.map table)) :
    h.mapEntries (.map r) = table.bound.filterMap (fun binding => (h.assigned? binding.2).map fun value => (binding.1,value)) ++ tableEntries table := by
  simp only [mapEntries,table?,object,aliasEntries,Table.bound]
  cases table.aliases with
  | none => rfl
  | some aliases => rfl

-- The alias under which a key is looked up.
def aliasing? (h : Heap) (table : Table) (key : Value) : Option (Value × Nat) := table.bound.find? fun binding => h.sameName binding.1 key

theorem aliasRegister_bound (h : Heap) (table : Table) (key : Value) :
    table.aliases.bind (h.aliasRegister? · key) = (h.aliasing? table key).map Prod.snd := by
  unfold aliasing? Table.bound
  cases table.aliases with
  | none => rfl
  | some aliases => rw [Option.bind_some,aliasRegister?,← Array.find?_toList]

theorem lookup_aliasing (object : h.object? r = some (.map table)) (found : h.aliasing? table key = some binding) :
    h.lookup? (.map r) key = h.assigned? binding.2 := by
  simp only [lookup?,table?,object,Option.bind_some,lookupWith,aliasRegister_bound,found,Option.map_some]

theorem Worded.same (worded : Worded h r table) (member : binding ∈ table.bound) (known : h.keyOf key = some k) :
    h.sameName binding.1 key = true ↔ h.keyOf binding.1 = some k := by
  obtain ⟨text,found⟩ := Option.isSome_iff_exists.mp (worded.names binding member)
  have named := keyOf_text.mpr found
  rw [sameName_keyOf named known,named,Option.some.injEq,eq_comm]

theorem Worded.aliasing (worded : Worded h r table) (known : h.keyOf key = some k) :
    h.aliasing? table key = table.bound.find? fun binding => h.keyOf binding.1 == some k := by
  refine List.find?_congr fun binding member => ?_
  rw [Bool.eq_iff_iff,beq_iff_eq]
  exact worded.same member known

theorem Worded.lists (worded : Worded h r table) (filed : ∀ entry ∈ table.entries, entry.hash ≠ 0) :
    ∃ rest, Lists h (Table.contents table.cells) rest := by
  refine worded.filing.lists filed fun entry member => ?_
  obtain ⟨k,known⟩ := Option.isSome_iff_exists.mp (worded.keys entry member)
  exact keyOf_scalar known

-- What a map shows under a key: the register of the first alias of that key, or what the table binds.
def shown (h : Heap) (table : Table) (rest : Key → Option Value) (k : Key) : Option Value :=
  match table.bound.find? fun binding => h.keyOf binding.1 == some k with
  | some binding => h.assigned? binding.2
  | none => rest k

theorem Worded.lookup (worded : Worded h r table) (lists : Lists h (Table.contents table.cells) rest) (known : h.keyOf key = some k) :
    h.lookup? (.map r) key = h.shown table rest k := by
  have aliasing := worded.aliasing known
  unfold shown
  cases search : table.bound.find? fun binding => h.keyOf binding.1 == some k with
  | some binding =>
      rw [search] at aliasing
      exact lookup_aliasing worded.object aliasing
  | none =>
      rw [search] at aliasing
      simp only [lookup?,table?,worded.object,Option.bind_some]
      exact lists.lookup worded.valid known (by rw [aliasRegister_bound,aliasing,Option.map_none])

theorem sameName_unknown {name key : Value} (found : h.text? name = some text) (unknown : h.keyOf key = none) : h.sameName name key = false := by
  have different : (name == key) = false := by
    rw [beq_eq_false_iff_ne]
    rintro rfl
    rw [keyOf_text.mpr found] at unknown
    cases unknown
  cases key with
  | str q =>
      have gone : h.text? (.str q) = none := Option.map_eq_none_iff.mp unknown
      have apart : h.sameText name (.str q) = false := by
        cases name <;> simp [sameText,found,gone]
      rw [sameName,different,apart,Bool.and_false,Bool.or_false]
  | list | map => simp [sameName,different,Value.isString]
  | null | int | double | short | funcRef => cases unknown

theorem keyOf_hash_ne_zero {v : Value} (known : h.keyOf v = some k) : h.hash v ≠ 0 := by
  intro zero
  obtain ⟨q,rfl,gone⟩ := hash_gone zero
  rw [keyOf,gone] at known
  cases known

theorem keyOf_same {a b : Value} (known : h.keyOf a = some k) (same : h.sameKey a b = true) (hashed : h.hash b ≠ 0) :
    (h.keyOf b).isSome = true := by
  obtain ⟨null,number,string,function⟩ := sameKey_kinds known same
  have scalar : b.isList = false ∧ b.isMap = false := by
    cases b with
    | list | map =>
        rcases keyOf_kinds known with ⟨rfl,_⟩ | ⟨is,_⟩ | ⟨is,_⟩ | ⟨q,rfl,_⟩
        · cases null
        · rw [is] at number
          cases number
        · rw [is] at string
          cases string
        · cases function
    | null | int | double | short | str | funcRef => exact ⟨rfl,rfl⟩
  exact keyOf_hashed hashed scalar.1 scalar.2

-- Lists, maps and strings that are gone are no keys of the map.
theorem Lists.unknown (lists : Lists h (Table.contents table.cells) rest) (object : h.object? r = some (.map table))
    (names : ∀ binding ∈ table.bound, (h.text? binding.1).isSome = true) (unknown : h.keyOf key = none) : h.lookup? (.map r) key = none := by
  have unaliased : h.aliasing? table key = none := by
    refine List.find?_eq_none.mpr fun binding member => ?_
    obtain ⟨text,found⟩ := Option.isSome_iff_exists.mp (names binding member)
    rw [sameName_unknown found unknown]
    exact Bool.false_ne_true
  simp only [lookup?,table?,object,Option.bind_some,lookupWith,aliasRegister_bound,unaliased,Option.map_none]
  split
  · rfl
  · cases search : table.find? (h.hash key) fun w => w == key || h.equal w key with
    | none => rfl
    | some i =>
        obtain ⟨entry,present,test⟩ := Table.search_found search
        obtain ⟨keyed,hash⟩ := lists.keyed entry (Table.mem_contents.mpr ⟨i,present⟩)
        obtain ⟨k,known⟩ := Option.isSome_iff_exists.mp keyed
        rw [Bool.and_eq_true,beq_iff_eq,hash] at test
        have taken := keyOf_same known test.2 (test.1 ▸ keyOf_hash_ne_zero known)
        rw [unknown] at taken
        cases taken

theorem mem_assigned_bound {bound : List (Value × Nat)} :
    (name,value) ∈ bound.filterMap (fun binding => (h.assigned? binding.2).map fun value => (binding.1,value)) ↔
      ∃ i, (name,i) ∈ bound ∧ h.assigned? i = some value := by
  simp only [List.mem_filterMap,Option.map_eq_some_iff,Prod.mk.injEq]
  constructor
  · rintro ⟨⟨word,i⟩,member,other,assigned,rfl,rfl⟩
    exact ⟨i,member,assigned⟩
  · rintro ⟨i,member,assigned⟩
    exact ⟨(name,i),member,value,assigned,rfl,rfl⟩

theorem Worded.key (worded : Worded h r table) (member : binding ∈ table.bound) :
    ∃ x, h.text? binding.1 = some x ∧ h.keyOf binding.1 = some (.text x) := by
  obtain ⟨x,found⟩ := Option.isSome_iff_exists.mp (worded.names binding member)
  exact ⟨x,found,keyOf_text.mpr found⟩

theorem Tidy.found (tidy : Tidy h table) (worded : Worded h r table) (member : (name,i) ∈ table.bound) (known : h.keyOf name = some k)
    (assigned : h.assigned? i = some value) : (table.bound.find? fun binding => h.keyOf binding.1 == some k) = some (name,i) := by
  obtain ⟨x,text,named⟩ := worded.key member
  obtain ⟨front,back,split⟩ := List.append_of_mem member
  have first := tidy.first
  rw [split,List.pairwise_append] at first
  have before : (front.find? fun binding => h.keyOf binding.1 == some k) = none := by
    refine List.find?_eq_none.mpr fun other earlier same => ?_
    rw [beq_iff_eq,← known,named,keyOf_text] at same
    exact first.2.2 other earlier (name,i) List.mem_cons_self (by rw [assigned]; rfl) (same.trans text.symm)
  rw [split,List.find?_append,before,Option.none_or]
  exact List.find?_cons_of_pos (by rw [known]; exact beq_self_eq_true _)

theorem Tidy.unnamed (tidy : Tidy h table) (worded : Worded h r table) (member : entry ∈ table.entries) (known : h.keyOf entry.key = some k) :
    (table.bound.find? fun binding => h.keyOf binding.1 == some k) = none := by
  refine List.find?_eq_none.mpr fun binding bound same => ?_
  obtain ⟨x,text,named⟩ := worded.key bound
  rw [beq_iff_eq,named,← known,eq_comm,keyOf_text] at same
  exact tidy.apart binding bound entry member (same.trans text.symm)

theorem Tidy.once (tidy : Tidy h table) (worded : Worded h r table) :
    ((table.bound.filterMap fun binding => (h.assigned? binding.2).map fun value => (binding.1,value)).map fun pair => h.keyOf pair.1).Nodup := by
  rw [List.Nodup,List.pairwise_map,List.pairwise_filterMap]
  refine tidy.first.imp_of_mem ?_
  rintro ⟨name,i⟩ ⟨word,j⟩ left right different pair assigned pair' assigned' same
  obtain ⟨value,_,rfl⟩ := Option.map_eq_some_iff.mp assigned
  obtain ⟨value',held,rfl⟩ := Option.map_eq_some_iff.mp assigned'
  obtain ⟨x,text,named⟩ := worded.key left
  rw [named,eq_comm,keyOf_text] at same
  exact different (by rw [held]; rfl) (text.trans same.symm)

theorem Tidy.bindings (tidy : Tidy h table) (worded : Worded h r table) (lists : Lists h (Table.contents table.cells) rest) :
    Bindings h (h.mapEntries (.map r)) (h.shown table rest) := by
  have listed : Bindings h (tableEntries table) rest := lists.bindings
  rw [mapEntries_bound worded.object]
  refine ⟨?_,?_,?_⟩
  · rintro ⟨name,value⟩ member
    rcases List.mem_append.mp member with assigned | tabled
    · obtain ⟨i,bound,_⟩ := mem_assigned_bound.mp assigned
      obtain ⟨x,_,named⟩ := worded.key bound
      rw [named]
      rfl
    · exact listed.keyed _ tabled
  · rw [List.map_append,List.nodup_append]
    refine ⟨tidy.once worded,listed.once,?_⟩
    rintro key left other right rfl
    obtain ⟨⟨name,value⟩,assigned,rfl⟩ := List.mem_map.mp left
    obtain ⟨pair,tabled,same⟩ := List.mem_map.mp right
    obtain ⟨entry,member,rfl⟩ := List.mem_map.mp tabled
    obtain ⟨i,bound,_⟩ := mem_assigned_bound.mp assigned
    obtain ⟨x,text,named⟩ := worded.key bound
    simp only [named,keyOf_text] at same
    exact tidy.apart _ bound entry member (same.trans text.symm)
  · intro k value
    simp only [List.mem_append]
    constructor
    · intro shows
      unfold shown at shows
      cases search : table.bound.find? fun binding => h.keyOf binding.1 == some k with
      | some binding =>
          rw [search] at shows
          have member := List.mem_of_find?_eq_some search
          have known := List.find?_some search
          exact ⟨binding.1,eq_of_beq known,Or.inl (mem_assigned_bound.mpr ⟨binding.2,member,shows⟩)⟩
      | none =>
          rw [search] at shows
          obtain ⟨key,known,tabled⟩ := (listed.listed k value).mp shows
          exact ⟨key,known,Or.inr tabled⟩
    · rintro ⟨key,known,assigned | tabled⟩
      · obtain ⟨i,bound,held⟩ := mem_assigned_bound.mp assigned
        rw [shown,tidy.found worded bound known held]
        exact held
      · obtain ⟨entry,member,same⟩ := List.mem_map.mp tabled
        cases same
        rw [shown,tidy.unnamed worded member known]
        exact (listed.listed k entry.value).mpr ⟨entry.key,known,tabled⟩

theorem Tidy.showsOnce (tidy : Tidy h table) (worded : Worded h r table) : ShowsOnce h (.map r) := by
  obtain ⟨rest,lists⟩ := worded.lists tidy.filed
  have bindings := tidy.bindings worded lists
  refine ⟨?_,?_⟩
  · refine (List.pairwise_map.mp bindings.once).imp_of_mem fun {a b} left right different => ?_
    obtain ⟨k,known⟩ := Option.isSome_iff_exists.mp (bindings.keyed a left)
    obtain ⟨l,known'⟩ := Option.isSome_iff_exists.mp (bindings.keyed b right)
    rw [Bool.eq_false_iff]
    intro equal
    have same : k = l := (sameKey_keyOf known known').mp (by rw [sameKey,equal,Bool.or_true])
    exact different (by rw [known,known',same])
  · intro entry member
    obtain ⟨k,known,bound⟩ := bindings.bound member
    rw [worded.lookup lists known,bound]

theorem ShowsOnce.texts (shows : ShowsOnce h v) : (h.mapEntries v).Pairwise fun a b => ¬ ∃ x, h.text? a.1 = some x ∧ h.text? b.1 = some x := by
  refine shows.different.imp ?_
  rintro a b different ⟨x,left,right⟩
  rw [(equal_texts left right).mpr rfl] at different
  cases different

theorem ShowsOnce.held (shows : ShowsOnce h (.map r)) (worded : Worded h r table) (listed : (key,value) ∈ h.mapEntries (.map r))
    (text : h.text? key = some x) (member : binding ∈ table.bound) (same : h.text? binding.1 = some x) :
    ∃ other, (table.bound.find? fun binding => h.keyOf binding.1 == some (.text x)) = some other ∧ h.text? other.1 = some x ∧
      h.assigned? other.2 = some value := by
  have aliasing := worded.aliasing (keyOf_text.mpr text)
  cases search : table.bound.find? fun binding => h.keyOf binding.1 == some (.text x) with
  | none =>
      refine absurd ?_ (List.find?_eq_none.mp search binding member)
      rw [keyOf_text.mpr same]
      exact beq_self_eq_true _
  | some other =>
      have known := List.find?_some search
      have read := lookup_aliasing worded.object (aliasing.trans search)
      have answer := shows.answers (key,value) listed
      exact ⟨other,rfl,keyOf_text.mp (eq_of_beq known),read.symm.trans answer⟩

theorem ShowsOnce.first (shows : ShowsOnce h (.map r)) (worded : Worded h r table) :
    table.bound.Pairwise fun a b => (h.assigned? b.2).isSome = true → h.text? a.1 ≠ h.text? b.1 := by
  have texts := shows.texts
  rw [mapEntries_bound worded.object,List.pairwise_append,List.pairwise_filterMap,List.pairwise_iff_getElem] at texts
  rw [List.pairwise_iff_getElem]
  intro i j outside inside before assigned same
  obtain ⟨value,held⟩ := Option.isSome_iff_exists.mp assigned
  have member := List.getElem_mem inside
  obtain ⟨x,text,named⟩ := worded.key member
  have listed : (table.bound[j].1,value) ∈ h.mapEntries (.map r) := by
    rw [mapEntries_bound worded.object]
    exact List.mem_append_left _ (mem_assigned_bound.mpr ⟨table.bound[j].2,member,held⟩)
  -- The lookup comes upon a register before the later one, and both are listed.
  obtain ⟨other,search,word,held'⟩ := shows.held worded listed text member text
  obtain ⟨_,n,bounded,here,earlier⟩ := List.find?_eq_some_iff_getElem.mp search
  have early : n ≤ i := by
    by_contra late
    have missed := earlier i (by omega)
    rw [keyOf_text.mpr (same.trans text)] at missed
    simp at missed
  subst here
  refine texts.1 n j bounded inside (by omega) (table.bound[n].1,value) ?_ (table.bound[j].1,value) ?_ ⟨x,word,text⟩
  · rw [held']
    rfl
  · rw [held]
    rfl

theorem ShowsOnce.apart (shows : ShowsOnce h (.map r)) (worded : Worded h r table) (bound : binding ∈ table.bound) (member : entry ∈ table.entries) :
    h.text? entry.key ≠ h.text? binding.1 := by
  intro same
  obtain ⟨x,text,_⟩ := worded.key bound
  have tabled : (entry.key,entry.value) ∈ tableEntries table := List.mem_map.mpr ⟨entry,member,rfl⟩
  have listed : (entry.key,entry.value) ∈ h.mapEntries (.map r) := by
    rw [mapEntries_bound worded.object]
    exact List.mem_append_right _ tabled
  obtain ⟨other,search,word,held⟩ := shows.held worded listed (same.trans text) bound text
  have texts := shows.texts
  rw [mapEntries_bound worded.object,List.pairwise_append] at texts
  refine texts.2.2 (other.1,entry.value) ?_ _ tabled ⟨x,word,same.trans text⟩
  exact mem_assigned_bound.mpr ⟨other.2,List.mem_of_find?_eq_some search,held⟩

-- A key that was gone when it was bound is not found under its hash, and what is found is another entry of the key.
theorem ShowsOnce.filed (shows : ShowsOnce h (.map r)) (worded : Worded h r table) (member : entry ∈ table.entries) : entry.hash ≠ 0 := by
  intro zero
  obtain ⟨k,known⟩ := Option.isSome_iff_exists.mp (worded.keys entry member)
  obtain ⟨q,string,_⟩ := worded.filing.gone _ (List.mem_map.mpr ⟨entry,member,rfl⟩) zero
  obtain ⟨x,text⟩ : ∃ x, h.text? entry.key = some x := by
    have key : entry.key = .str q := string
    rw [key] at known ⊢
    obtain ⟨x,found,_⟩ := Option.map_eq_some_iff.mp known
    exact ⟨x,found⟩
  have named := keyOf_text.mpr text
  have unaliased : h.aliasing? table entry.key = none := by
    rw [worded.aliasing named]
    refine List.find?_eq_none.mpr fun binding bound same => ?_
    rw [beq_iff_eq,keyOf_text] at same
    exact shows.apart worded bound member (text.trans same.symm)
  have texts := shows.texts
  have answer := shows.answers (entry.key,entry.value)
  rw [mapEntries_bound worded.object] at texts answer
  have found := answer (List.mem_append_right _ (List.mem_map.mpr ⟨entry,member,rfl⟩))
  simp only [lookup?,table?,worded.object,Option.bind_some,lookupWith,aliasRegister_bound,unaliased,Option.map_none] at found
  split at found
  · cases found
  · obtain ⟨i,search,_⟩ := Option.bind_eq_some_iff.mp found
    obtain ⟨other,present,test⟩ := Table.search_found search
    have member' : other ∈ table.entries := Table.mem_contents.mpr ⟨i,present⟩
    obtain ⟨l,known'⟩ := Option.isSome_iff_exists.mp (worded.keys other member')
    rw [Bool.and_eq_true,beq_iff_eq] at test
    have same : l = .text x := (sameKey_keyOf known' named).mp test.2
    have different : other ≠ entry := by
      rintro rfl
      exact keyOf_hash_ne_zero named (test.1.symm.trans zero)
    have apart := List.pairwise_map.mp (List.pairwise_append.mp texts).2.1
    have symmetric : Std.Symm fun a b : Entry => ¬ ∃ x, h.text? a.key = some x ∧ h.text? b.key = some x := by
      refine ⟨fun a b differ both => differ ?_⟩
      obtain ⟨x,left,right⟩ := both
      exact ⟨x,right,left⟩
    exact apart.forall member' member different ⟨x,keyOf_text.mp (same ▸ known'),text⟩

theorem ShowsOnce.tidy (shows : ShowsOnce h (.map r)) (worded : Worded h r table) : Tidy h table where
  first := shows.first worded
  apart := fun _ bound _ member => shows.apart worded bound member
  filed := fun _ member => shows.filed worded member

theorem Tidy.gathers (tidy : Tidy h table) (worded : Worded h r table) :
    ∃ h', gather (.map r) h = .ok () h' ∧ ∀ key, h'.lookup? (.map r) key = h.lookup? (.map r) key := by
  obtain ⟨rest,lists⟩ := worded.lists tidy.filed
  cases aliased : table.aliases with
  | none =>
      have live : h.isLive r = true := by rw [isLive,worded.object]; rfl
      exact ⟨h,by simp only [gather,mapHandle,live,if_true,table?,worded.object,Option.bind_some,aliased],fun _ => rfl⟩
  | some aliases =>
      have bound : table.bound = aliases.bindings.toList := by rw [Table.bound,aliased]
      have holding : Holding h r table rest := ⟨worded.object,worded.valid,lists⟩
      have absent : ∀ pair ∈ h.assignedAliases aliases, ∃ k, h.keyOf pair.1 = some k ∧ rest k = none := by
        rintro ⟨name,value⟩ member
        obtain ⟨i,among,_⟩ := mem_assignedAliases.mp member
        obtain ⟨x,text,named⟩ := worded.key (bound ▸ among)
        refine ⟨_,named,?_⟩
        rw [Option.eq_none_iff_forall_ne_some]
        intro other binds
        obtain ⟨entry,tabled,known,_⟩ := (lists.binds _ other).mp binds
        exact tidy.apart _ (bound ▸ among) entry tabled ((keyOf_text.mp known).trans text.symm)
      have once : ((h.assignedAliases aliases).map fun pair => h.keyOf pair.1).Nodup := by
        have each := tidy.once worded
        rwa [bound] at each
      obtain ⟨h',table',m',result,keys,after,plain,_,listed⟩ := holding.gathered aliased absent once
      -- The pairs are the same, and so is the finite map that they list.
      have same : m' = h.shown table rest :=
        (Lists.bindings after.lists).unique (((tidy.bindings worded lists).move keys).perm listed.symm)
      refine ⟨h',result,fun key => ?_⟩
      cases known : h.keyOf key with
      | some k =>
          rw [worded.lookup lists known,← same]
          exact (after.lists.answers after.object after.valid plain).lookup? key k ((keys key).trans known)
      | none =>
          rw [lists.unknown worded.object worded.names known]
          refine after.lists.unknown after.object (fun binding member => ?_) ((keys key).trans known)
          rw [Table.bound,plain] at member
          cases member

end Heap

end RegisterMachine
