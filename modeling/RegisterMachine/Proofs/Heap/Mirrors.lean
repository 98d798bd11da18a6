import RegisterMachine.Proofs.Heap.Reading
import RegisterMachine.Proofs.Heap.Renaming
import RegisterMachine.Proofs.Map.Equality
import Mathlib.Data.List.Find

namespace RegisterMachine.Heap

structure Mirrors (f : Handle → Handle) (known : Handle → Prop) (h k : Heap) : Prop where
  intact : h.Intact
  image : k.Intact
  apart : ∀ r q, known r → known q → f r = f q → r = q
  objects : ∀ r, known r → ∃ object, h.object? r = some object ∧ k.object? (f r) = some (object.rename f) ∧
    ∀ v, object.Refers v → v.Within known
  immortal : ∀ r, known r → (k.Immortal (f r) ↔ h.Immortal r)
  shadow : k.shadow = h.shadow.map (Value.rename f)
  scopes : k.scopes = h.scopes
  roots : k.roots = h.roots.map (Option.map (Value.rename f))
  freeRoots : k.freeRoots = h.freeRoots
  callbacks : k.callbacks = h.callbacks.map (Option.map (List.map (Value.rename f)))
  registers : k.registers = h.registers.map (Register.rename f)
  rooted : ∀ v, h.IsRoot v → v.Within known
  interned : ∀ text, k.interned.get? text = (h.interned.get? text).map f
  words : ∀ text r, h.interned.get? text = some r → known r
  unlimited : h.config.maxBytes = none ∧ k.config.maxBytes = none

-- Values without functions in them. Keys are among these. What is inside a value is a matter of its handle,
-- whatever kind of value the handle is in.
structure Clear (known : Handle → Prop) (clear : Value → Prop) (h : Heap) : Prop where
  plain : ∀ v, v.handle? = none → clear v
  within : ∀ v, clear v → v.Within known
  data : ∀ v, clear v → v.isFuncRef = false
  kinds : ∀ v w r, clear v → v.handle? = some r → w.handle? = some r → w.isFuncRef = false → clear w
  contents : ∀ v r, clear v → v.handle? = some r → ∀ w ∈ h.contents r, clear w
  keys : ∀ r table, known r → h.object? r = some (.map table) → ∀ entry ∈ table.entries, clear entry.key
  names : ∀ r table aliases, known r → h.object? r = some (.map table) → table.aliases = some aliases →
    ∀ binding ∈ aliases.bindings, clear binding.1

theorem Clear.parts {h : Heap} (cleared : Clear known clear h) (free : clear v) (part : w ∈ h.parts v) : clear w := by
  obtain ⟨r,handle,inner⟩ := parts_contents part
  exact cleared.contents v r free handle w inner

abbrev renamePair (f : Handle → Handle) (pair : Value × Value) : Value × Value := (pair.1.rename f,pair.2.rename f)

namespace Mirrors

variable {f : Handle → Handle} {known : Handle → Prop} {clear : Value → Prop} {h k : Heap}

theorem closed (mirrors : Mirrors f known h k) : h.Closed (Value.Within known) where
  plain := fun _ plain => Value.within_plain plain
  root := mirrors.rooted
  inside := by
    intro v r object w within handle present refers
    obtain ⟨other,here,_,refs⟩ := mirrors.objects r (within r handle)
    rw [present] at here
    cases here
    exact refs w refers

theorem object (mirrors : Mirrors f known h k) (here : known r) : k.object? (f r) = (h.object? r).map (Object.rename f) := by
  obtain ⟨object,present,image,_⟩ := mirrors.objects r here
  rw [present,image,Option.map_some]

theorem isLive (mirrors : Mirrors f known h k) (here : known r) : k.isLive (f r) = h.isLive r := by
  simp only [Heap.isLive,mirrors.object here,Option.isSome_map]

theorem text (mirrors : Mirrors f known h k) (within : v.Within known) : k.text? (v.rename f) = h.text? v := by
  cases v with
  | str r =>
      simp only [Value.rename,text?,mirrors.object (within r rfl)]
      cases h.object? r with
      | none => rfl
      | some object => cases object <;> rfl
  | null | int | double | short | list | map | funcRef => rfl

theorem list (mirrors : Mirrors f known h k) (within : v.Within known) : k.list? (v.rename f) = (h.list? v).map (ListObject.rename f) := by
  cases v with
  | list r =>
      simp only [Value.rename,list?,mirrors.object (within r rfl)]
      cases h.object? r with
      | none => rfl
      | some object => cases object <;> rfl
  | null | int | double | short | str | map | funcRef => rfl

theorem table (mirrors : Mirrors f known h k) (within : v.Within known) : k.table? (v.rename f) = (h.table? v).map (Table.rename f) := by
  cases v with
  | map r =>
      simp only [Value.rename,table?,mirrors.object (within r rfl)]
      cases h.object? r with
      | none => rfl
      | some object => cases object <;> rfl
  | null | int | double | short | str | list | funcRef => rfl

theorem funcRef (mirrors : Mirrors f known h k) (within : v.Within known) : k.funcRef? (v.rename f) = (h.funcRef? v).map (FuncRef.rename f) := by
  cases v with
  | funcRef r =>
      simp only [Value.rename,funcRef?,mirrors.object (within r rfl)]
      cases h.object? r with
      | none => rfl
      | some object => cases object <;> rfl
  | null | int | double | short | str | list | map => rfl

theorem items (mirrors : Mirrors f known h k) (within : v.Within known) : k.items? (v.rename f) = (h.items? v).map (Array.map (Value.rename f)) := by
  rw [items?,mirrors.list within,items?,Option.map_map,Option.map_map]
  rfl

theorem listCount (mirrors : Mirrors f known h k) (within : v.Within known) : k.listCount (v.rename f) = h.listCount v := by
  unfold Heap.listCount
  rw [mirrors.list within]
  cases h.list? v with
  | none => rfl
  | some l => simp [ListObject.rename]

theorem registerValue (mirrors : Mirrors f known h k) (i : Nat) : k.registerValue i = (h.registerValue i).rename f := by
  simp only [Heap.registerValue,mirrors.registers,Array.getD_eq_getD_getElem?,Array.getElem?_map]
  cases h.registers[i]? <;> rfl

theorem registerName (mirrors : Mirrors f known h k) (i : Nat) : k.registerName i = (h.registerName i).rename f := by
  simp only [Heap.registerName,mirrors.registers,Array.getD_eq_getD_getElem?,Array.getElem?_map]
  cases h.registers[i]? <;> rfl

theorem assigned (mirrors : Mirrors f known h k) (i : Nat) : k.assigned? i = (h.assigned? i).map (Value.rename f) := by
  simp only [assigned?,mirrors.registers,Array.getElem?_map]
  cases h.registers[i]? with
  | none => rfl
  | some register =>
      simp only [Option.map_some,Register.rename,Value.rename_isNull]
      split <;> rfl

theorem aliasEntries (mirrors : Mirrors f known h k) (table : Table) :
    k.aliasEntries (table.rename f) = (h.aliasEntries table).map (renamePair f) := by
  unfold Heap.aliasEntries
  cases bound : table.aliases with
  | none => simp [Table.rename,bound]
  | some aliases =>
      simp only [Table.rename,bound,Option.map_some,assignedAliases,Aliases.rename,Array.toList_map,List.filterMap_map,List.map_filterMap]
      refine List.filterMap_congr fun binding _ => ?_
      simp only [Function.comp,mirrors.assigned]
      cases h.assigned? binding.2 <;> rfl

theorem tableEntries_rename (table : Table) : tableEntries (table.rename f) = (tableEntries table).map (renamePair f) := by
  simp only [tableEntries,Table.entries_rename,List.map_map]
  rfl

theorem mapEntries (mirrors : Mirrors f known h k) (within : v.Within known) :
    k.mapEntries (v.rename f) = (h.mapEntries v).map (renamePair f) := by
  unfold Heap.mapEntries
  rw [mirrors.table within]
  cases h.table? v with
  | none => rfl
  | some table => simp only [Option.map_some,mirrors.aliasEntries,tableEntries_rename,List.map_append]

theorem mapCount (mirrors : Mirrors f known h k) (within : v.Within known) : k.mapCount (v.rename f) = h.mapCount v := by
  unfold Heap.mapCount
  rw [mirrors.table within]
  cases h.table? v with
  | none => rfl
  | some table => simp only [Option.map_some,mirrors.aliasEntries,List.length_map,Table.rename_count]

theorem sameText (mirrors : Mirrors f known h k) (left : a.Within known) (right : b.Within known) :
    k.sameText (a.rename f) (b.rename f) = h.sameText a b := by
  have texts := mirrors.text left
  have texts' := mirrors.text right
  cases a <;> cases b <;> first | rfl | exact congrArg₂ (· == ·) texts texts'

theorem sameName (mirrors : Mirrors f known h k) (left : a.Within known) (right : b.Within known) :
    k.sameName (a.rename f) (b.rename f) = h.sameName a b := by
  simp only [Heap.sameName,Value.rename_beq mirrors.apart left right,Value.rename_isString,mirrors.sameText left right]

theorem aliasRegister (mirrors : Mirrors f known h k) {aliases : Aliases} (names : ∀ binding ∈ aliases.bindings, binding.1.Within known)
    (within : key.Within known) : k.aliasRegister? (aliases.rename f) (key.rename f) = h.aliasRegister? aliases key := by
  simp only [aliasRegister?,Aliases.rename,← Array.find?_toList,Array.toList_map,List.find?_map,Option.map_map]
  have same : aliases.bindings.toList.find? (fun binding => k.sameName (binding.1.rename f) (key.rename f)) =
      aliases.bindings.toList.find? fun binding => h.sameName binding.1 key :=
    List.find?_congr fun binding member => mirrors.sameName (names binding (Array.mem_toList_iff.mp member)) within
  exact congrArg (Option.map Prod.snd) same

theorem stringHash (mirrors : Mirrors f known h k) (within : v.Within known) : k.stringHash (v.rename f) = h.stringHash v := by
  simp only [Heap.stringHash,mirrors.text within]

theorem part_within (mirrors : Mirrors f known h k) (within : v.Within known) (part : w ∈ h.parts v) : w.Within known := by
  cases v with
  | list r =>
      cases found : h.items? (.list r) with
      | none => simp [parts,found] at part
      | some items =>
          simp only [parts,found,Option.getD_some,Array.mem_toList_iff] at part
          exact mirrors.closed.items within found w part
  | map r =>
      obtain ⟨pair,listed,here⟩ := List.mem_flatMap.mp part
      obtain ⟨left,right⟩ := mirrors.closed.entries within listed
      simp only [List.mem_cons,List.not_mem_nil,or_false] at here
      rcases here with rfl | rfl
      · exact left
      · exact right
  | null | int | double | short | str | funcRef => cases part

theorem itemList (mirrors : Mirrors f known h k) (within : v.Within known) :
    ((k.items? (v.rename f)).getD #[]).toList = ((h.items? v).getD #[]).toList.map (Value.rename f) := by
  rw [mirrors.items within]
  cases h.items? v with
  | none => rfl
  | some items => simp

theorem combineItems_rename {hash hash' : Value → UInt32} {items : List Value} (agree : ∀ v ∈ items, hash' (v.rename f) = hash v) (start : UInt32) :
    combineItems hash' start (items.map (Value.rename f)) = combineItems hash start items := by
  rw [combineItems,List.foldl_map]
  exact List.foldl_ext _ _ _ fun running item member => by rw [agree item member]

theorem sumEntries_rename {hash hash' : Value → UInt32} {entries : List (Value × Value)}
    (agree : ∀ entry ∈ entries, hash' (entry.1.rename f) = hash entry.1 ∧ hash' (entry.2.rename f) = hash entry.2) :
    sumEntries hash' (entries.map (renamePair f)) = sumEntries hash entries := by
  rw [sumEntries,List.foldl_map]
  refine List.foldl_ext _ _ _ fun sum entry member => ?_
  obtain ⟨left,right⟩ := agree entry member
  simp only [left,right]

theorem hashWithin_scalar (mirrors : Mirrors f known h k) (cleared : Clear known clear h) (levels : Nat) {v : Value} (within : v.Within known)
    (free : clear v) (list : v.isList = false) (map : v.isMap = false) : k.hashWithin levels (v.rename f) = h.hashWithin levels v := by
  cases v with
  | null | int | double => cases levels <;> rfl
  | short | str => cases levels <;> exact mirrors.stringHash within
  | list => cases list
  | map => cases map
  | funcRef => cases cleared.data _ free

theorem hashWithin (mirrors : Mirrors f known h k) (cleared : Clear known clear h) (levels : Nat) {v : Value} (within : v.Within known)
    (free : clear v) : k.hashWithin levels (v.rename f) = h.hashWithin levels v := by
  induction levels generalizing v with
  | zero =>
      cases v with
      | list r =>
          have items := mirrors.itemList within
          simp only [Value.rename] at items
          simp only [Value.rename,Heap.hashWithin,items,List.length_map]
      | map r =>
          have entries := mirrors.mapEntries within
          simp only [Value.rename] at entries
          simp only [Value.rename,Heap.hashWithin,entries,List.length_map]
      | null | int | double | short | str | funcRef => exact mirrors.hashWithin_scalar cleared 0 within free rfl rfl
  | succ levels ih =>
      cases v with
      | list r =>
          have items := mirrors.itemList within
          simp only [Value.rename] at items
          simp only [Value.rename,Heap.hashWithin,items,List.length_map]
          exact congrArg Hash.nonzero
            (combineItems_rename (fun item member => ih (mirrors.part_within within member) (cleared.parts free member)) _)
      | map r =>
          have entries := mirrors.mapEntries within
          simp only [Value.rename] at entries
          simp only [Value.rename,Heap.hashWithin,entries,List.length_map]
          rw [sumEntries_rename fun entry member => ?_]
          have first : entry.1 ∈ h.parts (.map r) := List.mem_flatMap.mpr ⟨entry,member,by simp⟩
          have second : entry.2 ∈ h.parts (.map r) := List.mem_flatMap.mpr ⟨entry,member,by simp⟩
          exact ⟨ih (mirrors.part_within within first) (cleared.parts free first),
            ih (mirrors.part_within within second) (cleared.parts free second)⟩
      | null | int | double | short | str | funcRef => exact mirrors.hashWithin_scalar cleared _ within free rfl rfl

theorem hash (mirrors : Mirrors f known h k) (cleared : Clear known clear h) (within : v.Within known) (free : clear v) :
    k.hash (v.rename f) = h.hash v := mirrors.hashWithin cleared maxDepth within free

theorem lookupWith (mirrors : Mirrors f known h k) (cleared : Clear known clear h) {table : Table} {same same' : Value → Value → Bool}
    (present : h.object? r = some (.map table)) (here : known r) (within : key.Within known) (free : clear key)
    (agree : ∀ a b, a.Within known → b.Within known → same' (a.rename f) (b.rename f) = same a b) :
    k.lookupWith same' (table.rename f) (key.rename f) = (h.lookupWith same table key).map (Value.rename f) := by
  have inside : Value.Within known (.map r) := fun q handle => by cases handle; exact here
  have names : ∀ aliases, table.aliases = some aliases → ∀ binding ∈ aliases.bindings, binding.1.Within known :=
    fun aliases bound binding member => mirrors.closed.inside _ r _ _ inside rfl present (.aliased bound member)
  have aliased : (table.rename f).aliases.bind (k.aliasRegister? · (key.rename f)) = table.aliases.bind (h.aliasRegister? · key) := by
    rw [Table.rename_aliases]
    cases bound : table.aliases with
    | none => rfl
    | some aliases => exact mirrors.aliasRegister (names aliases bound) within
  have found : (table.rename f).find? (k.hash (key.rename f)) (fun w => w == key.rename f || same' w (key.rename f)) =
      table.find? (h.hash key) fun w => w == key || same w key := by
    rw [mirrors.hash cleared within free]
    refine Table.find_rename (fun entry member => ?_) _
    have keyed := mirrors.closed.inside _ r _ _ inside rfl present (.key (Table.mem_entries.mp member))
    rw [Value.rename_beq mirrors.apart keyed within,agree _ _ keyed within]
  simp only [Heap.lookupWith,aliased,found,Table.rename_count]
  cases table.aliases.bind (h.aliasRegister? · key) with
  | some register => exact mirrors.assigned register
  | none =>
      simp only
      split
      · rfl
      · cases table.find? (h.hash key) fun w => w == key || same w key with
        | none => rfl
        | some i =>
            simp only [Option.bind_some,Table.rename,Table.cellAt_rename,Option.map_map]
            rfl

theorem allEqual_rename {equal equal' : Value → Value → Bool} {xs ys : List Value}
    (agree : ∀ x ∈ xs, ∀ y ∈ ys, equal' (x.rename f) (y.rename f) = equal x y) :
    allEqual equal' (xs.map (Value.rename f)) (ys.map (Value.rename f)) = allEqual equal xs ys := by
  induction xs generalizing ys with
  | nil => cases ys <;> rfl
  | cons x xs ih =>
      cases ys with
      | nil => rfl
      | cons y ys =>
          simp only [List.map_cons,allEqual,agree x List.mem_cons_self y List.mem_cons_self]
          rw [ih fun x' left y' right => agree x' (List.mem_cons_of_mem _ left) y' (List.mem_cons_of_mem _ right)]

theorem sameHandle (mirrors : Mirrors f known h k) (left : known x) (right : known y) : (f x == f y) = (x == y) := by
  rw [Bool.eq_iff_iff,beq_iff_eq,beq_iff_eq]
  exact ⟨mirrors.apart x y left right,congrArg f⟩

theorem equalPlainly (mirrors : Mirrors f known h k) {same same' : Value → Value → Bool} (left : a.Within known) (right : b.Within known)
    (lists : a.isList = true → b.isList = false) (maps : a.isMap = true → b.isMap = false) (levels : Nat) :
    k.equalWithin same' levels (a.rename f) (b.rename f) = h.equalWithin same levels a b := by
  have texts := mirrors.sameText left right
  have identical := Value.rename_beq mirrors.apart left right
  cases a with
  | null | int | double => cases b <;> cases levels <;> rfl
  | short | str =>
      cases b with
      | short | str => cases levels <;> exact congrArg₂ (· || ·) identical texts
      | null | int | double | list | map | funcRef => cases levels <;> rfl
  | list x =>
      cases b with
      | list => cases lists rfl
      | null | int | double | short | str | map | funcRef => cases levels <;> rfl
  | map x =>
      cases b with
      | map => cases maps rfl
      | null | int | double | short | str | list | funcRef => cases levels <;> rfl
  | funcRef x =>
      cases b with
      | funcRef y => cases levels <;> exact mirrors.sameHandle (left x rfl) (right y rfl)
      | null | int | double | short | str | list | map => cases levels <;> rfl

theorem equalLists (mirrors : Mirrors f known h k) {equal equal' : Value → Value → Bool} (left : Value.Within known (.list x))
    (right : Value.Within known (.list y))
    (agree : ∀ a b, a.Within known → b.Within known → equal' (a.rename f) (b.rename f) = equal a b) :
    (match k.items? (.list (f x)),k.items? (.list (f y)) with
      | some xs,some ys => xs.size == ys.size && allEqual equal' xs.toList ys.toList
      | _,_ => false) =
    match h.items? (.list x),h.items? (.list y) with
      | some xs,some ys => xs.size == ys.size && allEqual equal xs.toList ys.toList
      | _,_ => false := by
  have first := mirrors.items left
  have second := mirrors.items right
  simp only [Value.rename] at first second
  rw [first,second]
  cases found : h.items? (.list x) with
  | none => rfl
  | some xs =>
      cases found' : h.items? (.list y) with
      | none => rfl
      | some ys =>
          simp only [Option.map_some,Array.size_map,Array.toList_map]
          rw [allEqual_rename fun a member b member' => agree a b
            (mirrors.closed.items left found a (Array.mem_toList_iff.mp member))
            (mirrors.closed.items right found' b (Array.mem_toList_iff.mp member'))]

theorem entry_clear (cleared : Clear known clear h) (here : known r) (member : entry ∈ h.mapEntries (.map r)) : clear entry.1 := by
  unfold Heap.mapEntries at member
  split at member
  · rename_i table found
    obtain ⟨q,same,present⟩ := table?_object.mp found
    cases same
    rcases List.mem_append.mp member with aliased | tabled
    · unfold Heap.aliasEntries at aliased
      split at aliased
      · rename_i aliases bound
        obtain ⟨binding,listed,assigned⟩ := List.mem_filterMap.mp aliased
        obtain ⟨value,_,rfl⟩ := Option.map_eq_some_iff.mp assigned
        exact cleared.names r table aliases here present bound binding (Array.mem_toList_iff.mp listed)
      · cases aliased
    · obtain ⟨cell,listed,rfl⟩ := List.mem_map.mp tabled
      exact cleared.keys r table here present cell listed
  · cases member

theorem equalMaps (mirrors : Mirrors f known h k) (cleared : Clear known clear h) {same same' equal equal' : Value → Value → Bool}
    (left : Value.Within known (.map x)) (right : Value.Within known (.map y))
    (keys : ∀ a b, a.Within known → b.Within known → same' (a.rename f) (b.rename f) = same a b)
    (agree : ∀ a b, a.Within known → b.Within known → equal' (a.rename f) (b.rename f) = equal a b) :
    (k.mapCount (.map (f x)) == k.mapCount (.map (f y)) && (k.mapEntries (.map (f x))).all fun (key,value) =>
      match (k.table? (.map (f y))).bind (k.lookupWith same' · key) with
      | some other => equal' value other
      | none => false) =
    (h.mapCount (.map x) == h.mapCount (.map y) && (h.mapEntries (.map x)).all fun (key,value) =>
      match (h.table? (.map y)).bind (h.lookupWith same · key) with
      | some other => equal value other
      | none => false) := by
  have counts := mirrors.mapCount left
  have counts' := mirrors.mapCount right
  have entries := mirrors.mapEntries left
  have tables := mirrors.table right
  simp only [Value.rename] at counts counts' entries tables
  rw [counts,counts',entries,tables,List.all_map]
  refine congrArg _ ?_
  rw [Bool.eq_iff_iff,List.all_eq_true,List.all_eq_true]
  refine forall₂_congr fun entry member => ?_
  obtain ⟨key,value⟩ := entry
  obtain ⟨keyed,valued⟩ := mirrors.closed.entries left member
  cases found : h.table? (.map y) with
  | none => rfl
  | some table =>
      obtain ⟨q,here,present⟩ := table?_object.mp found
      cases here
      have looked := mirrors.lookupWith cleared present (right y rfl) keyed (entry_clear cleared (left x rfl) member) keys
      simp only [Function.comp,Option.map_some,Option.bind_some,looked]
      cases result : h.lookupWith same table key with
      | none => rfl
      | some other => simp only [Option.map_some,agree value other valued (mirrors.closed.lookupWith right present result)]

theorem equalWithin (mirrors : Mirrors f known h k) (cleared : Clear known clear h) {same same' : Value → Value → Bool}
    (agree : ∀ a b, a.Within known → b.Within known → same' (a.rename f) (b.rename f) = same a b) (levels : Nat) {a b : Value}
    (left : a.Within known) (right : b.Within known) : k.equalWithin same' levels (a.rename f) (b.rename f) = h.equalWithin same levels a b := by
  induction levels generalizing a b with
  | zero =>
      cases a with
      | list x =>
          cases b with
          | list y => simp only [Value.rename,Heap.equalWithin,mirrors.sameHandle (left x rfl) (right y rfl)]
          | null | int | double | short | str | map | funcRef =>
              exact mirrors.equalPlainly left right (fun _ => rfl) (fun other => by cases other) 0
      | map x =>
          cases b with
          | map y => simp only [Value.rename,Heap.equalWithin,mirrors.sameHandle (left x rfl) (right y rfl)]
          | null | int | double | short | str | list | funcRef =>
              exact mirrors.equalPlainly left right (fun other => by cases other) (fun _ => rfl) 0
      | null | int | double | short | str | funcRef =>
          exact mirrors.equalPlainly left right (fun other => by cases other) (fun other => by cases other) 0
  | succ levels ih =>
      cases a with
      | list x =>
          cases b with
          | list y =>
              simp only [Value.rename,Heap.equalWithin,mirrors.sameHandle (left x rfl) (right y rfl)]
              exact congrArg _ (mirrors.equalLists left right fun a b => ih)
          | null | int | double | short | str | map | funcRef =>
              exact mirrors.equalPlainly left right (fun _ => rfl) (fun other => by cases other) _
      | map x =>
          cases b with
          | map y =>
              simp only [Value.rename,Heap.equalWithin,mirrors.sameHandle (left x rfl) (right y rfl)]
              exact congrArg _ (mirrors.equalMaps cleared left right agree fun a b => ih)
          | null | int | double | short | str | list | funcRef =>
              exact mirrors.equalPlainly left right (fun other => by cases other) (fun _ => rfl) _
      | null | int | double | short | str | funcRef =>
          exact mirrors.equalPlainly left right (fun other => by cases other) (fun other => by cases other) _

theorem equal (mirrors : Mirrors f known h k) (cleared : Clear known clear h) (left : a.Within known) (right : b.Within known) :
    k.equal (a.rename f) (b.rename f) = h.equal a b := by
  have nested : ∀ n a b, a.Within known → b.Within known → k.equalNested n (a.rename f) (b.rename f) = h.equalNested n a b := by
    intro n
    induction n with
    | zero => exact fun _ _ _ _ => rfl
    | succ n ih => exact fun a b left right => mirrors.equalWithin cleared ih maxDepth left right
  exact nested _ a b left right

theorem sameKey (mirrors : Mirrors f known h k) (cleared : Clear known clear h) (left : a.Within known) (right : b.Within known) :
    k.sameKey (a.rename f) (b.rename f) = h.sameKey a b := by
  simp only [Heap.sameKey,Value.rename_beq mirrors.apart left right,mirrors.equal cleared left right]

theorem lookup? (mirrors : Mirrors f known h k) (cleared : Clear known clear h) (within : v.Within known) (keyed : key.Within known)
    (free : clear key) : k.lookup? (v.rename f) (key.rename f) = (h.lookup? v key).map (Value.rename f) := by
  simp only [Heap.lookup?,mirrors.table within]
  cases found : h.table? v with
  | none => rfl
  | some table =>
      obtain ⟨r,rfl,present⟩ := table?_object.mp found
      exact mirrors.lookupWith cleared present (within r rfl) keyed free fun a b => mirrors.equal cleared

theorem lookup (mirrors : Mirrors f known h k) (cleared : Clear known clear h) (within : v.Within known) (keyed : key.Within known)
    (free : clear key) : k.lookup (v.rename f) (key.rename f) = (h.lookup v key).rename f := by
  simp only [Heap.lookup,mirrors.lookup? cleared within keyed free]
  cases h.lookup? v key <;> rfl

theorem isFrozen (mirrors : Mirrors f known h k) (within : v.Within known) : k.isFrozen (v.rename f) = h.isFrozen v := by
  have lists := mirrors.list within
  have tables := mirrors.table within
  cases v with
  | list r =>
      simp only [Value.rename] at lists
      simp only [Value.rename,Heap.isFrozen,lists]
      cases h.list? (.list r) <;> rfl
  | map r =>
      simp only [Value.rename] at tables
      simp only [Value.rename,Heap.isFrozen,tables]
      cases h.table? (.map r) <;> rfl
  | null | int | double | short | str | funcRef => rfl

theorem isTruthy (mirrors : Mirrors f known h k) (within : v.Within known) : k.isTruthy (v.rename f) = h.isTruthy v := by
  have texts := mirrors.text within
  have counts := mirrors.listCount within
  have counts' := mirrors.mapCount within
  cases v with
  | null | int | double | funcRef | short => rfl
  | str r =>
      simp only [Value.rename] at texts
      simp only [Value.rename,Heap.isTruthy,texts]
  | list r =>
      simp only [Value.rename] at counts
      simp only [Value.rename,Heap.isTruthy,counts]
  | map r =>
      simp only [Value.rename] at counts'
      simp only [Value.rename,Heap.isTruthy,counts']

theorem degree (mirrors : Mirrors f known h k) (within : v.Within known) : k.degree (v.rename f) = h.degree v := by
  simp only [Heap.degree,Value.rename_isNumber,Value.rename_asDouble,mirrors.isTruthy within]

theorem stringLength (mirrors : Mirrors f known h k) (within : v.Within known) : k.stringLength (v.rename f) = h.stringLength v := by
  simp only [Heap.stringLength,mirrors.text within]

theorem expectText (mirrors : Mirrors f known h k) (within : v.Within known) : k.expectText (v.rename f) = h.expectText v := by
  simp only [Heap.expectText,mirrors.text within,Value.rename_kindName]

theorem stringCharAt (mirrors : Mirrors f known h k) (within : v.Within known) (index : Int32) :
    k.stringCharAt (v.rename f) index = h.stringCharAt v index := by
  simp only [Heap.stringCharAt,mirrors.stringLength within,mirrors.expectText within]

theorem stringIndexOf? (mirrors : Mirrors f known h k) (within : v.Within known) (part : w.Within known) (start : Nat) :
    k.stringIndexOf? (v.rename f) (w.rename f) start = h.stringIndexOf? v w start := by
  simp only [Heap.stringIndexOf?,mirrors.text within,mirrors.text part]

theorem compareStrings (mirrors : Mirrors f known h k) (left : a.Within known) (right : b.Within known) :
    k.compareStrings (a.rename f) (b.rename f) = h.compareStrings a b := by
  simp only [Heap.compareStrings,mirrors.text left,mirrors.text right]

theorem less (mirrors : Mirrors f known h k) (left : a.Within known) (right : b.Within known) :
    k.less (a.rename f) (b.rename f) = h.less a b := by
  simp only [Heap.less,Value.rename_isNumber,Value.rename_asDouble,Value.rename_isString,mirrors.compareStrings left right]

theorem atMost (mirrors : Mirrors f known h k) (left : a.Within known) (right : b.Within known) :
    k.atMost (a.rename f) (b.rename f) = h.atMost a b := by
  simp only [Heap.atMost,Value.rename_isNumber,Value.rename_asDouble,Value.rename_isString,mirrors.compareStrings left right]

theorem compareNatural (mirrors : Mirrors f known h k) (left : a.Within known) (right : b.Within known) :
    k.compareNatural (a.rename f) (b.rename f) = h.compareNatural a b := by
  have ranks : ∀ v : Value, rank (v.rename f) = rank v := fun v => by cases v <;> rfl
  simp only [Heap.compareNatural,ranks,Value.rename_isNumber,Value.rename_asDouble,Value.rename_isString,mirrors.compareStrings left right]

theorem notAfter (mirrors : Mirrors f known h k) (left : a.Within known) (right : b.Within known) :
    k.notAfter (a.rename f) (b.rename f) = h.notAfter a b := by
  simp only [Heap.notAfter,mirrors.compareNatural left right]

theorem toNumber (mirrors : Mirrors f known h k) (within : v.Within known) : k.toNumber (v.rename f) = h.toNumber v := by
  have texts := mirrors.text within
  cases v with
  | null | list | map | funcRef => rfl
  | int | double => rfl
  | short t =>
      unfold Heap.toNumber
      rw [texts]
      rfl
  | str r =>
      unfold Heap.toNumber
      rw [texts]
      rfl

theorem render_scalar (mirrors : Mirrors f known h k) (levels : Nat) (literal : Bool) {v : Value} (within : v.Within known)
    (list : v.isList = false) (map : v.isMap = false) : k.render levels literal (v.rename f) = h.render levels literal v := by
  cases v with
  | null | int | double | short => cases levels <;> rfl
  | str r =>
      have texts := mirrors.text within
      simp only [Value.rename] at texts
      cases levels <;> simp only [Value.rename,Heap.render,texts]
  | list => cases list
  | map => cases map
  | funcRef r =>
      have functions := mirrors.funcRef within
      simp only [Value.rename] at functions
      cases levels <;> simp only [Value.rename,Heap.render,renderFuncRef,functions] <;>
        cases h.funcRef? (.funcRef r) <;> simp [FuncRef.rename]

theorem render (mirrors : Mirrors f known h k) (levels : Nat) (literal : Bool) {v : Value} (within : v.Within known) :
    k.render levels literal (v.rename f) = h.render levels literal v := by
  induction levels generalizing v literal with
  | zero =>
      cases v with
      | list | map => rfl
      | null | int | double | short | str | funcRef => exact mirrors.render_scalar 0 literal within rfl rfl
  | succ levels ih =>
      cases v with
      | list r =>
          have items := mirrors.itemList within
          simp only [Value.rename] at items
          have shown : ((h.items? (.list r)).getD #[]).toList.map (k.render levels true ∘ Value.rename f) =
              ((h.items? (.list r)).getD #[]).toList.map (h.render levels true) :=
            List.map_congr_left fun item member => ih true (mirrors.part_within within member)
          simp only [Value.rename,Heap.render,items,List.map_map,shown]
      | map r =>
          have entries := mirrors.mapEntries within
          simp only [Value.rename] at entries
          simp only [Value.rename,Heap.render,entries,List.map_map]
          rw [List.map_congr_left fun entry member => ?_]
          obtain ⟨left,right⟩ := mirrors.closed.entries within member
          simp only [Function.comp,ih true left,ih true right]
      | null | int | double | short | str | funcRef => exact mirrors.render_scalar _ literal within rfl rfl

theorem expectItems (mirrors : Mirrors f known h k) (within : v.Within known) :
    k.expectItems (v.rename f) = (h.expectItems v).map (Array.map (Value.rename f)) := by
  simp only [Heap.expectItems,mirrors.items within,Value.rename_kindName]
  cases h.items? v <;> rfl

theorem listGet (mirrors : Mirrors f known h k) (within : v.Within known) (index : Int32) :
    k.listGet (v.rename f) index = (h.listGet v index).map (Value.rename f) := by
  simp only [Heap.listGet,mirrors.expectItems within]
  cases h.expectItems v with
  | error e => rfl
  | ok items =>
      simp only [Except.map,Bind.bind,Except.bind,Array.size_map,Array.getElem?_map]
      cases resolve? index items.size with
      | none => rfl
      | some i =>
          simp only [Option.bind_some]
          cases items[i]? <;> rfl

theorem findIdx_agrees {items : List Value} {p q : Value → Bool} (agree : ∀ item ∈ items, q (item.rename f) = p item) :
    items.findIdx? (q ∘ Value.rename f) = items.findIdx? p := by
  induction items with
  | nil => rfl
  | cons item rest ih =>
      simp only [List.findIdx?_cons,Function.comp,agree item List.mem_cons_self]
      rw [← ih fun other member => agree other (List.mem_cons_of_mem _ member)]

theorem listIndexOf? (mirrors : Mirrors f known h k) (cleared : Clear known clear h) (within : v.Within known) (sought : w.Within known)
    (start : Nat) : k.listIndexOf? (v.rename f) (w.rename f) start = h.listIndexOf? v w start := by
  simp only [Heap.listIndexOf?,mirrors.items within]
  cases found : h.items? v with
  | none => rfl
  | some items =>
      simp only [Option.map_some,Option.bind_some,Array.toList_map,← List.map_drop,List.findIdx?_map]
      have each : ∀ item ∈ items.toList.drop start, k.equal (item.rename f) (w.rename f) = h.equal item w := fun item member =>
        mirrors.equal cleared (mirrors.closed.items within found item (Array.mem_toList_iff.mp (List.mem_of_mem_drop member))) sought
      rw [findIdx_agrees each]

theorem lookupAlong (mirrors : Mirrors f known h k) (cleared : Clear known clear h) (keyed : key.Within known) (free : clear key)
    (steps : Nat) {v : Value} (within : v.Within known) :
    k.lookupAlong (key.rename f) steps (v.rename f) = (h.lookupAlong key steps v).map (renamePair f) := by
  have isa : isaKey.Within known := Value.within_plain rfl
  have free' : clear isaKey := cleared.plain _ rfl
  have same : isaKey.rename f = isaKey := Value.rename_plain rfl
  induction steps generalizing v with
  | zero => rfl
  | succ steps ih =>
      have parents := mirrors.lookup? cleared within isa free'
      have parent := mirrors.lookup cleared within isa free'
      rw [same] at parents parent
      simp only [Heap.lookupAlong,mirrors.lookup? cleared within keyed free,parents,parent]
      cases h.lookup? v key with
      | some value => rfl
      | none =>
          cases found : h.lookup? v isaKey with
          | none => rfl
          | some up =>
              simp only [Option.map_none,Option.map_some,Value.rename_isMap]
              split
              · exact ih (mirrors.closed.lookup? within found)
              · rfl

theorem persistent (mirrors : Mirrors f known h k) (id : Nat) : k.root id = (h.root id).rename f := by
  simp only [Heap.root,mirrors.roots,Array.getD_eq_getD_getElem?,Array.getElem?_map]
  cases h.roots[id]? with
  | none => rfl
  | some place => cases place <;> rfl

theorem sortKey {key v : Value} (mirrors : Mirrors f known h k) (cleared : Clear known clear h) (keyed : key.Within known) (free : clear key)
    (within : v.Within known) : k.sortKey (key.rename f) (v.rename f) = (h.sortKey key v).rename f := by
  have looked := mirrors.lookup cleared within keyed free
  have got := mirrors.listGet within key.asInt
  cases v with
  | null | int | double | short | str | funcRef => rfl
  | map r => exact looked
  | list r =>
      simp only [Value.rename.eq_2] at got
      simp only [Value.rename.eq_2,Heap.sortKey,Value.rename_isNumber,Value.rename_asInt,got]
      split
      · cases h.listGet (.list r) key.asInt <;> rfl
      · rfl

theorem listHandle (mirrors : Mirrors f known h k) (within : v.Within known) : k.listHandle (v.rename f) = (h.listHandle v).map f := by
  cases v with
  | list r =>
      simp only [Value.rename,Heap.listHandle,mirrors.isLive (within r rfl)]
      split <;> rfl
  | null | int | double | short | str | map | funcRef => rfl

theorem writableList (mirrors : Mirrors f known h k) (within : v.Within known) : k.writableList (v.rename f) = (h.writableList v).map f := by
  simp only [Heap.writableList,mirrors.listHandle within,mirrors.list within]
  cases h.listHandle v with
  | error e => rfl
  | ok r =>
      simp only [Except.map]
      cases h.list? v with
      | none => rfl
      | some l =>
          simp only [Option.map_some,ListObject.rename]
          split <;> rfl

theorem mapHandle (mirrors : Mirrors f known h k) (within : v.Within known) : k.mapHandle (v.rename f) = (h.mapHandle v).map f := by
  cases v with
  | map r =>
      simp only [Value.rename,Heap.mapHandle,mirrors.isLive (within r rfl)]
      split <;> rfl
  | null | int | double | short | str | list | funcRef => rfl

theorem writableMap (mirrors : Mirrors f known h k) (within : v.Within known) : k.writableMap (v.rename f) = (h.writableMap v).map f := by
  simp only [Heap.writableMap,mirrors.mapHandle within,mirrors.table within]
  cases h.mapHandle v with
  | error e => rfl
  | ok r =>
      simp only [Except.map]
      cases h.table? v with
      | none => rfl
      | some t =>
          by_cases frozen : t.frozen = true <;> simp [frozen]

theorem isAliasMap (mirrors : Mirrors f known h k) (within : v.Within known) : k.isAliasMap (v.rename f) = h.isAliasMap v := by
  simp only [Heap.isAliasMap,mirrors.table within]
  cases h.table? v with
  | none => rfl
  | some t => simp

theorem aliasOf? (mirrors : Mirrors f known h k) (within : v.Within known) (keyed : key.Within known) :
    k.aliasOf? (v.rename f) (key.rename f) = h.aliasOf? v key := by
  simp only [Heap.aliasOf?,mirrors.table within]
  cases found : h.table? v with
  | none => rfl
  | some table =>
      obtain ⟨r,rfl,present⟩ := table?_object.mp found
      simp only [Option.map_some,Table.rename_aliases]
      cases bound : table.aliases with
      | none => rfl
      | some aliases =>
          exact mirrors.aliasRegister (fun binding member => mirrors.closed.inside _ r _ _ within rfl present (.aliased bound member)) keyed

end Mirrors

end RegisterMachine.Heap
