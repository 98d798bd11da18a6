import RegisterMachine.Heap.AliasMaps
import RegisterMachine.Proofs.Map.Finite

namespace RegisterMachine.Heap

variable {h h' : Heap} {names : Nat → Option Key}

theorem Bindings.perm {pairs others : List (Value × Value)} (bindings : Bindings h pairs m) (same : pairs.Perm others) : Bindings h others m where
  keyed := fun pair member => bindings.keyed pair (same.mem_iff.mpr member)
  once := (same.map _).nodup_iff.mp bindings.once
  listed := by
    intro k value
    rw [bindings.listed]
    simp only [same.mem_iff]

theorem Bindings.move {pairs : List (Value × Value)} (bindings : Bindings h pairs m) (keys : ∀ v, h'.keyOf v = h.keyOf v) :
    Bindings h' pairs m where
  keyed := by simpa only [keys] using bindings.keyed
  once := by simpa only [keys] using bindings.once
  listed := by simpa only [keys] using bindings.listed

theorem Tabled.move (tabled : Tabled h r table m) (objects : ∀ q, h'.object? q = h.object? q) : Tabled h' r table m where
  object := by rw [objects]; exact tabled.object
  valid := tabled.valid
  writable := tabled.writable
  lists := tabled.lists.move (keyOf_objects objects)

-- The registers of a map, each under a text of its own; `names` gives the key of a register.
structure Naming (h : Heap) (aliases : Aliases) (names : Nat → Option Key) : Prop where
  bound : ∀ i k, names i = some k ↔ ∃ name, (name,i) ∈ aliases.bindings.toList ∧ h.keyOf name = some k
  texts : ∀ name i, (name,i) ∈ aliases.bindings.toList → ∃ text, h.keyOf name = some (.text text)
  once : (aliases.bindings.toList.map Prod.snd).Nodup
  different : ∀ i j k, names i = some k → names j = some k → i = j
  inside : ∀ i k, names i = some k → i < h.registers.size

theorem Naming.move (naming : Naming h aliases names) (keys : ∀ v, h'.keyOf v = h.keyOf v)
    (size : h'.registers.size = h.registers.size) : Naming h' aliases names where
  bound := by simpa only [keys] using naming.bound
  texts := by simpa only [keys] using naming.texts
  once := naming.once
  different := naming.different
  inside := by simpa only [size] using naming.inside

theorem Naming.key (naming : Naming h aliases names) (member : (name,i) ∈ aliases.bindings.toList) :
    ∃ k, names i = some k ∧ h.keyOf name = some k := by
  obtain ⟨text,known⟩ := naming.texts name i member
  exact ⟨_,(naming.bound i _).mpr ⟨name,member,known⟩,known⟩

theorem sameName_keyOf {a b : Value} (ha : h.keyOf a = some (.text text)) (hb : h.keyOf b = some k) :
    h.sameName a b = true ↔ k = .text text := by
  have foundA := keyOf_text.mp ha
  simp only [sameName,Bool.or_eq_true,beq_iff_eq,Bool.and_eq_true]
  constructor
  · rintro (rfl | ⟨⟨_,string⟩,same⟩)
    · exact Option.some.inj (hb.symm.trans ha)
    · rcases keyOf_kinds hb with ⟨rfl,_⟩ | ⟨number,_⟩ | ⟨_,other,foundB,rfl⟩ | ⟨_,rfl,_⟩
      · cases string
      · rw [Value.string_false number] at string
        cases string
      · rw [(sameText_texts foundA foundB).mp same]
      · cases string
  · rintro rfl
    have foundB := keyOf_text.mp hb
    exact Or.inr ⟨⟨isString_text foundA,isString_text foundB⟩,(sameText_texts foundA foundB).mpr rfl⟩

theorem Naming.found (naming : Naming h aliases names) (name : names i = some k) (key : h.keyOf v = some k) :
    h.aliasRegister? aliases v = some i := by
  rw [aliasRegister?,← Array.find?_toList]
  generalize search : aliases.bindings.toList.find? _ = binding
  cases binding with
  | none =>
      obtain ⟨word,member,known⟩ := (naming.bound i k).mp name
      obtain ⟨text,same⟩ := naming.texts word i member
      have missed := List.find?_eq_none.mp search _ member
      exact absurd ((sameName_keyOf same key).mpr (Option.some.inj (known.symm.trans same))) missed
  | some binding =>
      obtain ⟨word,j⟩ := binding
      have member := List.mem_of_find?_eq_some search
      obtain ⟨text,same⟩ := naming.texts word j member
      have passed := List.find?_some search
      have matched : k = .text text := (sameName_keyOf same key).mp passed
      have other : names j = some k := (naming.bound j k).mpr ⟨word,member,by rw [matched]; exact same⟩
      rw [Option.map_some,naming.different j i k other name]

theorem Naming.missing (naming : Naming h aliases names) (nameless : ∀ i, names i ≠ some k) (key : h.keyOf v = some k) :
    h.aliasRegister? aliases v = none := by
  rw [aliasRegister?,← Array.find?_toList,Option.map_eq_none_iff,List.find?_eq_none]
  rintro ⟨word,j⟩ member matched
  obtain ⟨text,same⟩ := naming.texts word j member
  have equal := (sameName_keyOf same key).mp matched
  exact nameless j ((naming.bound j k).mpr ⟨word,member,by rw [equal]; exact same⟩)

theorem mem_assignedAliases : (name,value) ∈ h.assignedAliases aliases ↔
    ∃ i, (name,i) ∈ aliases.bindings.toList ∧ h.assigned? i = some value := by
  simp only [assignedAliases,List.mem_filterMap,Option.map_eq_some_iff,Prod.mk.injEq]
  constructor
  · rintro ⟨⟨word,i⟩,member,other,assigned,rfl,rfl⟩
    exact ⟨i,member,assigned⟩
  · rintro ⟨i,member,assigned⟩
    exact ⟨(name,i),member,value,assigned,rfl,rfl⟩

theorem Naming.assigned_once (naming : Naming h aliases names) :
    ((h.assignedAliases aliases).map fun pair => h.keyOf pair.1).Nodup := by
  have apart : aliases.bindings.toList.Pairwise fun a b => a.2 ≠ b.2 := List.pairwise_map.mp naming.once
  rw [List.Nodup,List.pairwise_map,assignedAliases,List.pairwise_filterMap]
  refine apart.imp_of_mem ?_
  rintro ⟨word,i⟩ ⟨other,j⟩ left right distinct pair first pair' second same
  obtain ⟨value,_,rfl⟩ := Option.map_eq_some_iff.mp first
  obtain ⟨value',_,rfl⟩ := Option.map_eq_some_iff.mp second
  obtain ⟨k,name,known⟩ := naming.key left
  obtain ⟨l,name',known'⟩ := naming.key right
  have equal : k = l := Option.some.inj (known.symm.trans (same.trans known'))
  subst l
  exact distinct (naming.different i j k name name')

-- A map over registers that shows a finite map: the names in their registers and the rest in the
-- table, where no name is bound.
structure Overlays (h : Heap) (r : Handle) (table : Table) (aliases : Aliases) (names : Nat → Option Key)
    (rest m : Key → Option Value) : Prop extends Tabled h r table rest,Naming h aliases names where
  aliased : table.aliases = some aliases
  apart : ∀ i k, names i = some k → rest k = none
  reads : ∀ i k, names i = some k → m k = h.assigned? i
  others : ∀ k, (∀ i, names i ≠ some k) → m k = rest k

theorem Overlays.aliasOf (overlays : Overlays h r table aliases names rest m) (key : Value) :
    h.aliasOf? (.map r) key = h.aliasRegister? aliases key := by
  simp only [aliasOf?,table?,overlays.object,overlays.aliased,Option.bind_some]

theorem Overlays.lookup (overlays : Overlays h r table aliases names rest m) (key : h.keyOf v = some k) :
    h.lookup? (.map r) v = m k := by
  by_cases named : ∃ i, names i = some k
  · obtain ⟨i,name⟩ := named
    have found := overlays.found name key
    simp only [lookup?,table?,overlays.object,Option.bind_some,lookupWith,overlays.aliased,found]
    exact (overlays.reads i k name).symm
  · have nameless := not_exists.mp named
    have unaliased := (overlays.aliasOf v).trans (overlays.missing nameless key)
    rw [overlays.toTabled.lookup key unaliased,overlays.others k nameless]

theorem Overlays.entries (overlays : Overlays h r table aliases names rest m) :
    h.mapEntries (.map r) = h.assignedAliases aliases ++ tableEntries table := by
  simp only [mapEntries,table?,overlays.object,aliasEntries,overlays.aliased]

theorem Overlays.bindings (overlays : Overlays h r table aliases names rest m) : Bindings h (h.mapEntries (.map r)) m := by
  have listed : Bindings h (tableEntries table) rest := overlays.lists.bindings
  rw [overlays.entries]
  refine ⟨?_,?_,?_⟩
  · rintro ⟨name,value⟩ member
    rcases List.mem_append.mp member with assigned | tabled
    · obtain ⟨i,bound,_⟩ := mem_assignedAliases.mp assigned
      obtain ⟨k,_,known⟩ := overlays.key bound
      rw [known]
      rfl
    · exact listed.keyed _ tabled
  · rw [List.map_append,List.nodup_append]
    refine ⟨overlays.assigned_once,listed.once,?_⟩
    -- A key of both parts would name a register and be bound in the table.
    rintro key left other right rfl
    obtain ⟨⟨name,value⟩,assigned,rfl⟩ := List.mem_map.mp left
    obtain ⟨⟨word,held⟩,tabled,same⟩ := List.mem_map.mp right
    obtain ⟨i,bound,_⟩ := mem_assignedAliases.mp assigned
    obtain ⟨k,named,known⟩ := overlays.key bound
    have both := (listed.listed k held).mpr ⟨word,same.trans known,tabled⟩
    rw [overlays.apart i k named] at both
    cases both
  · intro k value
    simp only [List.mem_append]
    by_cases named : ∃ i, names i = some k
    · obtain ⟨i,name⟩ := named
      rw [overlays.reads i k name]
      constructor
      · intro assigned
        obtain ⟨word,bound,known⟩ := (overlays.bound i k).mp name
        exact ⟨word,known,Or.inl (mem_assignedAliases.mpr ⟨i,bound,assigned⟩)⟩
      · rintro ⟨word,known,assigned | tabled⟩
        · obtain ⟨j,bound,held⟩ := mem_assignedAliases.mp assigned
          rw [overlays.different i j k name ((overlays.bound j k).mpr ⟨word,bound,known⟩)]
          exact held
        · have both := (listed.listed k value).mpr ⟨word,known,tabled⟩
          rw [overlays.apart i k name] at both
          cases both
    · have nameless := not_exists.mp named
      rw [overlays.others k nameless,listed.listed]
      constructor
      · rintro ⟨word,known,tabled⟩
        exact ⟨word,known,Or.inr tabled⟩
      · rintro ⟨word,known,assigned | tabled⟩
        · obtain ⟨j,bound,_⟩ := mem_assignedAliases.mp assigned
          exact absurd ((overlays.bound j k).mpr ⟨word,bound,known⟩) (nameless j)
        · exact ⟨word,known,tabled⟩

theorem Overlays.answers (overlays : Overlays h r table aliases names rest m) : Answers h (.map r) m := by
  refine overlays.bindings.answers (fun key k known => overlays.lookup known) ?_
  rw [overlays.entries]
  simp only [mapCount,table?,overlays.object,aliasEntries,overlays.aliased,overlays.valid.counted,List.length_append,tableEntries,
    List.length_map,Table.entries,Table.contents]
  rw [Nat.add_comm]

theorem Overlays.reassigned (overlays : Overlays h r table aliases names rest m) (objects : ∀ q, h'.object? q = h.object? q)
    (size : h'.registers.size = h.registers.size) (reads : ∀ i k, names i = some k → m' k = h'.assigned? i)
    (others : ∀ k, (∀ i, names i ≠ some k) → m' k = m k) : Overlays h' r table aliases names rest m' where
  toTabled := overlays.toTabled.move objects
  toNaming := overlays.toNaming.move (keyOf_objects objects) size
  aliased := overlays.aliased
  apart := overlays.apart
  reads := reads
  others := fun k nameless => (others k nameless).trans (overlays.others k nameless)

theorem assigned_elsewhere (h : Heap) (change : Register → Register) (other : i ≠ j) :
    { h with registers := h.registers.modify j change }.assigned? i = h.assigned? i := by
  simp only [assigned?,Array.getElem?_modify,if_neg other.symm]

theorem Naming.assigned_inside (naming : Naming h aliases names) (change : Register → Register) (name : names i = some k) :
    ∃ register, h.registers[i]? = some register ∧ { h with registers := h.registers.modify i change }.assigned? i =
      if (change register).name.isNull then none else some (change register).value := by
  have inside := naming.inside i k name
  refine ⟨h.registers[i],Array.getElem?_eq_getElem inside,?_⟩
  simp only [assigned?,Array.getElem?_modify,if_pos,Array.getElem?_eq_getElem inside,Option.map_some]

theorem Overlays.modified {value? : Option Value} (overlays : Overlays h r table aliases names rest m) (change : Register → Register)
    (name : names i = some k) (after : { h with registers := h.registers.modify i change }.assigned? i = value?) :
    Overlays { h with registers := h.registers.modify i change } r table aliases names rest (Function.update m k value?) := by
  refine overlays.reassigned (fun _ => rfl) (Array.size_modify ..) ?_ ?_
  · intro j l named
    by_cases same : j = i
    · subst j
      rw [Option.some.inj (named.symm.trans name),Function.update_self,after]
    · have different : l ≠ k := by
        rintro rfl
        exact same (overlays.different j i l named name)
      rw [Function.update_of_ne different,assigned_elsewhere h change same]
      exact overlays.reads j l named
  · intro l nameless
    have different : l ≠ k := by
      rintro rfl
      exact nameless i name
    rw [Function.update_of_ne different]

theorem Overlays.retabled {value? : Option Value} (overlays : Overlays h r table aliases names rest m) (nameless : ∀ i, names i ≠ some k)
    (touched : Touched h h' r (.map table')) (kept : table'.aliases = table.aliases)
    (after : Tabled h' r table' (Function.update rest k value?)) :
    Overlays h' r table' aliases names (Function.update rest k value?) (Function.update m k value?) := by
  have different : ∀ i l, names i = some l → l ≠ k := by
    rintro i l name rfl
    exact nameless i name
  have registers := touched.roots.registers
  refine ⟨after,overlays.toNaming.move (keyOf_touched overlays.object touched) (by rw [registers]),kept.trans overlays.aliased,?_,?_,?_⟩
  · intro i l name
    rw [Function.update_of_ne (different i l name)]
    exact overlays.apart i l name
  · intro i l name
    rw [Function.update_of_ne (different i l name),assigned?,registers]
    exact overlays.reads i l name
  · intro l others
    by_cases same : l = k
    · subst l
      rw [Function.update_self,Function.update_self]
    · rw [Function.update_of_ne same,Function.update_of_ne same]
      exact overlays.others l others

theorem Naming.named (naming : Naming h aliases names) (name : names i = some k) (key : h.keyOf v = some k) : v.isNull = false := by
  obtain ⟨word,member,known⟩ := (naming.bound i k).mp name
  obtain ⟨text,same⟩ := naming.texts word i member
  exact isNull_text (keyOf_text.mp (key.trans (known.symm.trans same)))

theorem Overlays.set (overlays : Overlays h r table aliases names rest m) (key : h.keyOf v = some k) (value : Value) :
    ∃ h' table' rest', mapSet (.map r) v value h = .ok () h' ∧
      Overlays h' r table' aliases names rest' (Function.update m k (some value)) ∧ ∀ w, h'.keyOf w = h.keyOf w := by
  by_cases named : ∃ i, names i = some k
  · obtain ⟨i,name⟩ := named
    have found := (overlays.aliasOf v).trans (overlays.found name key)
    obtain ⟨register,_,assigned⟩ := overlays.assigned_inside (fun _ => { value,name := v }) name
    rw [overlays.named name key] at assigned
    refine ⟨h.assignRegister i v value,table,rest,?_,overlays.modified _ name assigned,keyOf_objects fun _ => rfl⟩
    simp only [mapSet,overlays.writes,found]
  · have nameless := not_exists.mp named
    have unaliased := (overlays.aliasOf v).trans (overlays.missing nameless key)
    have touched := store_touched v value overlays.object
    obtain ⟨_,_,_,_,kept,after⟩ := overlays.toTabled.stored key value
    exact ⟨_,_,_,overlays.toTabled.mapSet value unaliased,overlays.retabled nameless touched kept after,
      keyOf_touched overlays.object touched⟩

theorem Overlays.remove (overlays : Overlays h r table aliases names rest m) (key : h.keyOf v = some k) :
    ∃ h' table' rest', mapRemove (.map r) v h = .ok (m k).isSome h' ∧
      Overlays h' r table' aliases names rest' (Function.update m k none) ∧ ∀ w, h'.keyOf w = h.keyOf w := by
  by_cases named : ∃ i, names i = some k
  · obtain ⟨i,name⟩ := named
    have found := (overlays.aliasOf v).trans (overlays.found name key)
    obtain ⟨register,_,freed⟩ := overlays.assigned_inside (fun register => { register with name := .null }) name
    refine ⟨h.unassign i,table,rest,?_,overlays.modified _ name freed,keyOf_objects fun _ => rfl⟩
    simp only [mapRemove,overlays.writes,found,overlays.reads i k name]
  · have nameless := not_exists.mp named
    have unaliased := (overlays.aliasOf v).trans (overlays.missing nameless key)
    obtain ⟨h',table',result,after,_,_,kept,touched⟩ := overlays.toTabled.removed key unaliased
    rw [overlays.others k nameless]
    exact ⟨h',table',_,result,overlays.retabled nameless touched kept after,keyOf_touched overlays.object touched⟩

-- Freeing registers one after the other leaves none of them assigned.
theorem unassign_all (registers : List Nat) (h : Heap) :
    (∀ q, (registers.foldl unassign h).object? q = h.object? q) ∧ (registers.foldl unassign h).registers.size = h.registers.size ∧
      ∀ i, i ∈ registers ∨ h.assigned? i = none → (registers.foldl unassign h).assigned? i = none := by
  induction registers generalizing h with
  | nil => exact ⟨fun _ => rfl,rfl,fun i either => either.resolve_left List.not_mem_nil⟩
  | cons first rest ih =>
      obtain ⟨objects,size,freed⟩ := ih (h.unassign first)
      refine ⟨objects,size.trans (Array.size_modify ..),?_⟩
      intro i either
      apply freed
      by_cases same : i = first
      · subst i
        right
        simp only [unassign,setRegisterName,assigned?,Array.getElem?_modify,if_pos]
        cases h.registers[first]? <;> rfl
      · rcases either with member | unassigned
        · exact Or.inl ((List.mem_cons.mp member).resolve_left same)
        · exact Or.inr ((assigned_elsewhere h _ same).trans unassigned)

theorem Overlays.clear (overlays : Overlays h r table aliases names rest m) :
    ∃ h' table', mapClear (.map r) h = .ok () h' ∧
      Overlays h' r table' aliases names (fun _ => none) (fun _ => none) ∧ ∀ w, h'.keyOf w = h.keyOf w := by
  have listed : h.aliasRegisters (.map r) = aliases.bindings.toList.map Prod.snd := by
    simp only [aliasRegisters,table?,overlays.object,Option.bind_some,overlays.aliased]
  obtain ⟨objects,size,freed⟩ := unassign_all (aliases.bindings.toList.map Prod.snd) h
  let freeing := (aliases.bindings.toList.map Prod.snd).foldl unassign h
  have tabled := overlays.toTabled.move objects
  have touched := modifyTable_touched Table.clear tabled.object
  have keys : ∀ w, (freeing.modifyTable r Table.clear).keyOf w = h.keyOf w := fun w =>
    (keyOf_touched tabled.object touched w).trans (keyOf_objects objects w)
  refine ⟨freeing.modifyTable r Table.clear,table.clear,?_,?_,keys⟩
  · simp only [mapClear,overlays.writes,listed,freeing]
  · refine ⟨tabled.cleared,overlays.toNaming.move keys size,overlays.aliased,fun _ _ _ => rfl,?_,fun _ _ => rfl⟩
    intro i k name
    obtain ⟨word,member,_⟩ := (overlays.bound i k).mp name
    exact (freed i (Or.inl (List.mem_map.mpr ⟨_,member,rfl⟩))).symm

-- Updates of the map by a host, and values that are written to registers.
inductive Change where
  | update (change : Update)
  | write (register : Nat) (value : Value)

namespace Change

def key? : Change → Option Value
  | update change => change.key?
  | write _ _ => none

def perform (v : Value) : Change → HeapM Unit
  | update change => change.perform v
  | write register value => modify (·.setRegisterValue register value)

def performAll (v : Value) : List Change → HeapM Unit
  | [] => pure ()
  | change :: rest => do
    change.perform v
    performAll v rest

-- What a change does to the finite map. A value that is written to a register shows under the name
-- of the register while the name is bound.
def applied (h : Heap) (names : Nat → Option Key) (m : Key → Option Value) : Change → Key → Option Value
  | update change => change.applied h m
  | write register value => match names register with
    | some k => if (m k).isSome then Function.update m k (some value) else m
    | none => m

end Change

theorem Overlays.write (overlays : Overlays h r table aliases names rest m) (i : Nat) (value : Value) :
    Overlays (h.setRegisterValue i value) r table aliases names rest ((Change.write i value).applied h names m) := by
  simp only [Change.applied]
  cases named : names i with
  | some k =>
      obtain ⟨register,present,assigned⟩ := overlays.assigned_inside (fun register => { register with value }) named
      have written := overlays.modified _ named assigned
      have before := overlays.reads i k named
      simp only [assigned?,present] at before
      cases free : register.name.isNull with
      | true =>
          simp only [free,if_true] at before written
          rw [← before,Function.update_eq_self] at written
          simp only [before]
          exact written
      | false =>
          simp only [free,Bool.false_eq_true,if_false] at before written
          simp only [before]
          exact written
  | none =>
      refine overlays.reassigned (fun _ => rfl) (Array.size_modify ..) ?_ fun _ _ => rfl
      intro j k name
      have other : j ≠ i := by
        rintro rfl
        rw [named] at name
        cases name
      exact (overlays.reads j k name).trans (assigned_elsewhere h _ other).symm

theorem Overlays.perform (overlays : Overlays h r table aliases names rest m) (change : Change)
    (keyed : ∀ key, change.key? = some key → (h.keyOf key).isSome = true) :
    ∃ h' table' rest', change.perform (.map r) h = .ok () h' ∧
      Overlays h' r table' aliases names rest' (change.applied h names m) ∧ ∀ w, h'.keyOf w = h.keyOf w := by
  cases change with
  | write i value => exact ⟨_,table,rest,rfl,overlays.write i value,keyOf_objects fun _ => rfl⟩
  | update change =>
      cases change with
      | set key value =>
          obtain ⟨k,known⟩ := Option.isSome_iff_exists.mp (keyed key rfl)
          simp only [Change.applied,Update.applied,known]
          exact overlays.set known value
      | remove key =>
          obtain ⟨k,known⟩ := Option.isSome_iff_exists.mp (keyed key rfl)
          obtain ⟨h',table',rest',result,after,keys⟩ := overlays.remove known
          simp only [Change.applied,Update.applied,known]
          refine ⟨h',table',rest',?_,after,keys⟩
          simp only [Change.perform,Update.perform,bind,EStateM.bind,result]
          rfl
      | clear =>
          obtain ⟨h',table',result,after,keys⟩ := overlays.clear
          exact ⟨h',table',_,result,after,keys⟩

theorem Overlays.performAll (overlays : Overlays h r table aliases names rest m) (changes : List Change)
    (keyed : ∀ change ∈ changes, ∀ key, change.key? = some key → (h.keyOf key).isSome = true) :
    ∃ h' table' rest', Change.performAll (.map r) changes h = .ok () h' ∧
      Overlays h' r table' aliases names rest' (changes.foldl (Change.applied h names) m) ∧ ∀ w, h'.keyOf w = h.keyOf w := by
  induction changes generalizing h table rest m with
  | nil => exact ⟨h,table,rest,rfl,overlays,fun _ => rfl⟩
  | cons change later ih =>
      obtain ⟨h',table',rest',result,after,keys⟩ := overlays.perform change (keyed change List.mem_cons_self)
      obtain ⟨h'',table'',rest'',results,final,same⟩ := ih after fun other member key which => by
        rw [keys]
        exact keyed other (List.mem_cons_of_mem _ member) key which
      have applied : Change.applied h' names = Change.applied h names := by
        funext m other
        cases other with
        | update other => simp only [Change.applied,applied_keys keys]
        | write => rfl
      refine ⟨h'',table'',rest'',?_,?_,fun w => (same w).trans (keys w)⟩
      · simp only [Change.performAll,bind,EStateM.bind,result]
        exact results
      · rw [applied] at final
        exact final

theorem Holding.added (holding : Holding h r table m) (key : h.keyOf v = some k) (absent : m k = none) (value : Value) :
    (tableEntries (h.stored table v value)).Perm ((v,value) :: tableEntries table) := by
  have found := holding.lists.find holding.valid key
  unfold Heap.stored
  cases search : table.find? (h.hash v) fun w => h.sameKey w v with
  | some i =>
      rw [search] at found
      obtain ⟨entry,present,same⟩ := found
      have bound := holding.lists.bound (Table.mem_contents.mpr ⟨i,present⟩) same
      rw [absent] at bound
      cases bound
  | none => exact (Table.insertNew_contents { key := v,value,hash := h.hash v } holding.valid).map _

theorem Holding.storeAll (holding : Holding h r table m) (pairs : List (Value × Value))
    (absent : ∀ pair ∈ pairs, ∃ k, h.keyOf pair.1 = some k ∧ m k = none) (once : (pairs.map fun pair => h.keyOf pair.1).Nodup) :
    ∃ table' m', Holding (h.storeAll r pairs) r table' m' ∧ table'.aliases = table.aliases ∧ table'.frozen = table.frozen ∧
      (tableEntries table').Perm (pairs ++ tableEntries table) ∧ ∀ w, (h.storeAll r pairs).keyOf w = h.keyOf w := by
  induction pairs generalizing h table m with
  | nil => exact ⟨table,m,holding,rfl,rfl,.refl _,fun _ => rfl⟩
  | cons pair later ih =>
      obtain ⟨key,value⟩ := pair
      obtain ⟨k,known,missing⟩ := absent _ List.mem_cons_self
      rw [List.map_cons,List.nodup_cons] at once
      have keys := keyOf_touched holding.object (store_touched key value holding.object)
      obtain ⟨_,_,_,_,kept,same,after⟩ := holding.stored known value
      obtain ⟨table',m',final,aliases,frozen,listed,unchanged⟩ := ih after
        (by
          intro other member
          obtain ⟨l,known',missing'⟩ := absent other (List.mem_cons_of_mem _ member)
          have different : l ≠ k := by
            rintro rfl
            exact once.1 (List.mem_map.mpr ⟨other,member,known'.trans known.symm⟩)
          exact ⟨l,by rw [keys]; exact known',by rw [Function.update_of_ne different]; exact missing'⟩)
        (by simpa only [keys] using once.2)
      refine ⟨table',m',final,aliases.trans kept,frozen.trans same,?_,fun w => (unchanged w).trans (keys w)⟩
      exact listed.trans (((holding.added known missing value).append_left later).trans List.perm_middle)

theorem Holding.gathered (holding : Holding h r table rest) (aliased : table.aliases = some aliases)
    (absent : ∀ pair ∈ h.assignedAliases aliases, ∃ k, h.keyOf pair.1 = some k ∧ rest k = none)
    (once : ((h.assignedAliases aliases).map fun pair => h.keyOf pair.1).Nodup) :
    ∃ h' table' m', gather (.map r) h = .ok () h' ∧ (∀ w, h'.keyOf w = h.keyOf w) ∧ Holding h' r table' m' ∧
      table'.aliases = none ∧ table'.frozen = table.frozen ∧ (tableEntries table').Perm (h.mapEntries (.map r)) := by
  have live : h.isLive r = true := by rw [isLive,holding.object]; rfl
  have touched := modifyTable_touched ({ · with aliases := none }) holding.object
  have detached := keyOf_touched holding.object touched
  have bare : Holding (h.modifyTable r ({ · with aliases := none })) r { table with aliases := none } rest :=
    ⟨touched.here,holding.valid.of_same rfl rfl,holding.lists.move detached⟩
  obtain ⟨table',m',stored,plain,frozen,listed,keys⟩ := bare.storeAll (h.assignedAliases aliases)
    (by simpa only [detached] using absent) (by simpa only [detached] using once)
  refine ⟨_,table',m',?_,?_,⟨?_,stored.valid,stored.lists.move (keyOf_objects (recharge_object _ r))⟩,plain,frozen,?_⟩
  · simp only [gather,mapHandle,live,if_true,table?,holding.object,Option.bind_some,aliased]
  · exact fun w => (keyOf_objects (recharge_object _ r) w).trans ((keys w).trans (detached w))
  · rw [recharge_object]
    exact stored.object
  · simp only [mapEntries,table?,holding.object,aliasEntries,aliased]
    exact listed

-- What a host reads of a map over registers that shows a finite map, and what it reads once the map
-- has gathered its names, whatever becomes of the registers.
structure Views (h : Heap) (v : Value) (m : Key → Option Value) : Prop where
  answers : Answers h v m
  gathers : ∃ h', gather v h = .ok () h' ∧ (∀ w, h'.keyOf w = h.keyOf w) ∧
    ∀ registers, Answers { h' with registers } v m ∧ ({ h' with registers }.mapEntries v).Perm (h.mapEntries v)

theorem Overlays.gathered (overlays : Overlays h r table aliases names rest m) :
    ∃ h' table', gather (.map r) h = .ok () h' ∧ (∀ w, h'.keyOf w = h.keyOf w) ∧ Models h' r table' m ∧
      (tableEntries table').Perm (h.mapEntries (.map r)) := by
  obtain ⟨h',table',m',result,keys,holding,plain,frozen,listed⟩ := overlays.holding.gathered overlays.aliased
    (by
      rintro ⟨name,value⟩ member
      obtain ⟨i,bound,_⟩ := mem_assignedAliases.mp member
      obtain ⟨k,named,known⟩ := overlays.key bound
      exact ⟨k,known,overlays.apart i k named⟩)
    overlays.assigned_once
  -- The pairs are the same, and so is the finite map that they list.
  have shown : m' = m := (Lists.bindings holding.lists).unique ((overlays.bindings.move keys).perm listed.symm)
  subst m'
  exact ⟨h',table',result,keys,⟨holding.tabled (frozen.trans overlays.writable),plain⟩,listed⟩

theorem Overlays.views (overlays : Overlays h r table aliases names rest m) : Views h (.map r) m where
  answers := overlays.answers
  gathers := by
    obtain ⟨h',table',result,keys,models,listed⟩ := overlays.gathered
    refine ⟨h',result,keys,?_⟩
    intro registers
    have kept : Models { h' with registers } r table' m := ⟨models.toTabled.move fun _ => rfl,models.plain⟩
    refine ⟨kept.answers,?_⟩
    rw [mapEntries_plain kept.object kept.plain]
    exact listed

end RegisterMachine.Heap
