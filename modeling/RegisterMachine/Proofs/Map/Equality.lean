import RegisterMachine.Proofs.Map.Finite
import RegisterMachine.Proofs.Map.Honest
import RegisterMachine.Proofs.Map.Reading
import RegisterMachine.Proofs.Map.Wraparound

namespace RegisterMachine.Heap

def SimpleKeys (h : Heap) : Prop := ∀ r table, h.object? r = some (.map table) →
  table.aliases = none ∧ ∀ entry ∈ table.entries, entry.key.isList = false ∧ entry.key.isMap = false

def parts (h : Heap) (v : Value) : List Value :=
  match v with
  | .list _ => ((h.items? v).getD #[]).toList
  | .map _ => (h.mapEntries v).flatMap fun pair => [pair.1,pair.2]
  | _ => []

theorem parts_contents {h : Heap} (part : w ∈ h.parts v) : ∃ r, v.handle? = some r ∧ w ∈ h.contents r := by
  cases v with
  | list r =>
      refine ⟨r,rfl,?_⟩
      simp only [parts,items?,list?] at part
      simp only [contents]
      cases present : h.object? r with
      | none => simp [present] at part
      | some object => cases object <;> simp_all
  | map r =>
      refine ⟨r,rfl,?_⟩
      simp only [contents]
      cases present : h.object? r with
      | none => simp [parts,mapEntries,table?,present] at part
      | some object =>
          cases object with
          | map table => exact part
          | str | list | funcRef => simp [parts,mapEntries,table?,present] at part
  | null | int | double | short | str | funcRef => cases part

inductive Inside (h : Heap) (v : Value) : Value → Prop where
  | self : Inside h v v
  | part : Inside h v u → w ∈ h.parts u → Inside h v w

-- A value with all its contents, none of them NaN.
structure Whole (h : Heap) (v : Value) : Prop where
  sound : ∀ w, Inside h v w → h.Sound w
  number : ∀ d, Inside h v (.double d) → d.isNaN = false

-- Besides, its keys were there when they were bound: a string that is gone, and nothing else, hashes to 0.
structure Settled (h : Heap) (v : Value) : Prop extends Whole h v where
  bound : ∀ u table, Inside h v u → h.table? u = some table → ∀ entry ∈ table.entries, entry.hash ≠ 0

theorem Inside.trans (first : Inside h u v) (second : Inside h v w) : Inside h u w := by
  induction second with
  | self => exact first
  | part _ member ih => exact .part ih member

theorem Settled.inside (settled : Settled h v) (inside : Inside h v w) : Settled h w where
  sound := fun u deeper => settled.sound u (inside.trans deeper)
  number := fun d deeper => settled.number d (inside.trans deeper)
  bound := fun u table deeper => settled.bound u table (inside.trans deeper)

-- Values that are equal with so many container levels left to descend.
inductive Matches (h : Heap) : Nat → Value → Value → Prop where
  | keyed : h.keyOf a = some k → h.keyOf b = some k → Matches h levels a b
  | sameList : Matches h levels (.list r) (.list r)
  | sameMap : Matches h levels (.map r) (.map r)
  | lists {xs ys : ListObject} : h.object? x = some (.list xs) → h.object? y = some (.list ys) →
      xs.items.size = ys.items.size → (∀ (i : Nat) a b, xs.items[i]? = some a → ys.items[i]? = some b → Matches h levels a b) →
      Matches h (levels + 1) (.list x) (.list y)
  | maps {m n : Key → Option Value} : Answers h (.map x) m → Answers h (.map y) n → (∀ k, (m k).isSome = (n k).isSome) →
      (∀ k a b, m k = some a → n k = some b → Matches h levels a b) → Matches h (levels + 1) (.map x) (.map y)

theorem exists_partner {m n : Key → Option Value} (domain : ∀ k, (m k).isSome = (n k).isSome) (here : m k = some a) : ∃ b, n k = some b := by
  have bound := domain k
  rw [here] at bound
  exact Option.isSome_iff_exists.mp bound.symm

theorem Matches.symm (matches_ : Matches h levels a b) : Matches h levels b a := by
  induction matches_ with
  | keyed ka kb => exact .keyed kb ka
  | sameList => exact .sameList
  | sameMap => exact .sameMap
  | lists hx hy size _ ih => exact .lists hy hx size.symm fun i a b first second => ih i b a second first
  | maps hx hy keys _ ih => exact .maps hy hx (fun k => (keys k).symm) fun k a b first second => ih k b a second first

theorem Matches.trans (first : Matches h levels a b) (second : Matches h levels b c) : Matches h levels a c := by
  induction first generalizing c with
  | keyed ka kb =>
      cases second with
      | keyed kb' kc =>
          rw [kb] at kb'
          cases kb'
          exact .keyed ka kc
      | sameList | sameMap | lists | maps => cases kb
  | sameList => exact second
  | sameMap => exact second
  | lists hx hy size each ih =>
      cases second with
      | keyed kb => cases kb
      | sameList => exact .lists hx hy size each
      | lists hy' hz size' each' =>
          rw [hy] at hy'
          cases hy'
          refine .lists hx hz (size.trans size') fun i a c atA atC => ?_
          obtain ⟨inside,_⟩ := Array.getElem?_eq_some_iff.mp atA
          have atB := Array.getElem?_eq_getElem (size ▸ inside)
          exact ih i a _ atA atB (each' i _ c atB atC)
  | maps hx hy keys each ih =>
      cases second with
      | keyed kb => cases kb
      | sameMap => exact .maps hx hy keys each
      | maps hy' hz keys' each' =>
          cases hy.entries.unique hy'.entries
          refine .maps hx hz (fun k => (keys k).trans (keys' k)) fun k a c atA atC => ?_
          obtain ⟨b,atB⟩ := exists_partner keys atA
          exact ih k a b atA atB (each' k b c atB atC)

theorem hashWithin_keyed {h : Heap} {v : Value} (keyed : h.keyOf v = some k) (levels : Nat) : h.hashWithin levels v = h.hash v := by
  cases v with
  | list | map => cases keyed
  | null | int | double | short | str | funcRef => cases levels <;> rfl

theorem combineItems_same {hash : Value → UInt32} {xs ys : Array Value} (start : UInt32) (size : xs.size = ys.size)
    (each : ∀ (i : Nat) a b, xs[i]? = some a → ys[i]? = some b → hash a = hash b) :
    combineItems hash start xs.toList = combineItems hash start ys.toList := by
  have same : xs.toList.map hash = ys.toList.map hash := by
    refine List.ext_getElem (by simp [size]) fun i left right => ?_
    simp only [List.length_map,Array.length_toList] at left right
    simpa using each i _ _ (Array.getElem?_eq_getElem left) (Array.getElem?_eq_getElem right)
  have folded : ∀ items, combineItems hash start items = (items.map hash).foldl Hash.combine start := by
    intro items
    rw [List.foldl_map]
    rfl
  rw [folded,folded,same]

def addends (h : Heap) (hash : Value → UInt32) (pairs : List (Value × Value)) : List (Option Key × UInt32) :=
  pairs.map fun pair => (h.keyOf pair.1,Hash.combine (hash pair.1) (hash pair.2))

theorem sumEntries_addends (h : Heap) (hash : Value → UInt32) (pairs : List (Value × Value)) :
    sumEntries hash pairs = (h.addends hash pairs).foldl (fun sum addend => sum + addend.2) 0 := by
  rw [addends,List.foldl_map]
  rfl

-- Maps that bind the same keys to values of the same hashes have the same sum, in whatever order.
theorem sumEntries_same {h : Heap} {hash : Value → UInt32} {pairs others : List (Value × Value)} {m n : Key → Option Value}
    (left : Bindings h pairs m) (right : Bindings h others n) (keys : ∀ a b k, h.keyOf a = some k → h.keyOf b = some k → hash a = hash b)
    (domain : ∀ k, (m k).isSome = (n k).isSome) (values : ∀ k a b, m k = some a → n k = some b → hash a = hash b) :
    sumEntries hash pairs = sumEntries hash others := by
  have once : (h.addends hash pairs).Nodup := by
    apply List.Nodup.of_map Prod.fst
    rw [addends,List.map_map]
    exact left.once
  have covered : h.addends hash pairs ⊆ h.addends hash others := by
    intro addend member
    obtain ⟨pair,listed,rfl⟩ := List.mem_map.mp member
    obtain ⟨k,known,here⟩ := left.bound listed
    obtain ⟨value,there⟩ := exists_partner domain here
    obtain ⟨key,known',listed'⟩ := (right.listed k value).mp there
    refine List.mem_map.mpr ⟨(key,value),listed',?_⟩
    rw [known,known',keys pair.1 key k known known',values k pair.2 value here there]
  have count : (h.addends hash others).length ≤ (h.addends hash pairs).length := by
    rw [addends,addends,List.length_map,List.length_map,left.count,right.count]
    simp only [domain,le_refl]
  have same : (h.addends hash pairs).Perm (h.addends hash others) := (List.subperm_of_subset once covered).perm_of_length_le count
  rw [sumEntries_addends h,sumEntries_addends h]
  refine same.foldl_eq' (fun a _ b _ sum => ?_) 0
  rw [UInt32.add_assoc,UInt32.add_comm a.2,← UInt32.add_assoc]

theorem Matches.hash (matches_ : Matches h levels a b) : h.hashWithin levels a = h.hashWithin levels b := by
  induction matches_ with
  | keyed ka kb => rw [hashWithin_keyed ka,hashWithin_keyed kb,keyOf_hash ka kb]
  | sameList => rfl
  | sameMap => rfl
  | @lists x y levels xs ys hx hy size each ih =>
      simp only [hashWithin,items?,list?,hx,hy,Option.map_some,Option.getD_some,Array.length_toList,size,
        combineItems_same _ size ih]
  | @maps x y levels m n hx hy keys each ih =>
      have length : (h.mapEntries (.map x)).length = (h.mapEntries (.map y)).length := by
        rw [hx.entries.count,hy.entries.count]
        simp only [keys]
      have keyed : ∀ a b k, h.keyOf a = some k → h.keyOf b = some k → h.hashWithin levels a = h.hashWithin levels b := by
        intro a b k ka kb
        rw [hashWithin_keyed ka,hashWithin_keyed kb,keyOf_hash ka kb]
      simp only [hashWithin,length,sumEntries_same hx.entries hy.entries keyed keys ih]

theorem allEqual_each {equal : Value → Value → Bool} {xs ys : List Value} :
    allEqual equal xs ys = true ↔ List.Forall₂ (fun a b => equal a b = true) xs ys := by
  induction xs generalizing ys with
  | nil => cases ys <;> simp [allEqual]
  | cons x xs ih => cases ys <;> simp [allEqual,ih]

theorem allEqual_items {equal : Value → Value → Bool} {xs ys : Array Value} :
    (xs.size == ys.size && allEqual equal xs.toList ys.toList) = true ↔
      xs.size = ys.size ∧ ∀ (i : Nat) a b, xs[i]? = some a → ys[i]? = some b → equal a b = true := by
  rw [Bool.and_eq_true,beq_iff_eq,allEqual_each,List.forall₂_iff_get]
  constructor
  · rintro ⟨size,_,each⟩
    refine ⟨size,fun i a b atA atB => ?_⟩
    obtain ⟨left,rfl⟩ := Array.getElem?_eq_some_iff.mp atA
    obtain ⟨right,rfl⟩ := Array.getElem?_eq_some_iff.mp atB
    exact each i left right
  · rintro ⟨size,each⟩
    exact ⟨size,size,fun i left right => each i _ _ (Array.getElem?_eq_getElem left) (Array.getElem?_eq_getElem right)⟩

variable {h : Heap} {sameKey : Value → Value → Bool}

theorem equalWithin_scalar {a b : Value} (list : b.isList = false) (map : b.isMap = false) (levels : Nat) :
    h.equalWithin sameKey levels a b = h.equal a b := by
  cases b with
  | list => cases list
  | map => cases map
  | null | int | double | short | str | funcRef => cases levels <;> cases a <;> rfl

theorem equalWithin_kinds {a b : Value} (equal : h.equalWithin sameKey levels a b = true) : a.isList = b.isList ∧ a.isMap = b.isMap := by
  cases a <;> cases b <;> first | exact ⟨rfl,rfl⟩ | (cases levels <;> cases equal)

theorem equalWithin_lists {xs ys : ListObject} (hx : h.object? x = some (.list xs)) (hy : h.object? y = some (.list ys)) :
    h.equalWithin sameKey (levels + 1) (.list x) (.list y) = true ↔ x = y ∨ xs.items.size = ys.items.size ∧
      ∀ (i : Nat) a b, xs.items[i]? = some a → ys.items[i]? = some b → h.equalWithin sameKey levels a b = true := by
  simp only [equalWithin,items?,list?,hx,hy,Option.map_some,Bool.or_eq_true,beq_iff_eq,allEqual_items]

theorem equal_self {v : Value} (keyed : h.keyOf v = some k) (number : ∀ d, v = .double d → d.isNaN = false) : h.equal v v = true := by
  rcases keyOf_kinds keyed with ⟨rfl,_⟩ | ⟨num,_⟩ | ⟨_,_,found,_⟩ | ⟨r,rfl,_⟩
  · rfl
  · cases v with
    | int i => exact beq_self_eq_true i
    | double d =>
        have same : h.equal (.double d) (.double d) = d.same d := rfl
        rw [same,Double.same,number d rfl,beq_self_eq_true]
        rfl
    | null | short | str | list | map | funcRef => cases num
  · exact (equal_texts found found).mpr rfl
  · exact beq_self_eq_true r

theorem equal_keyOf {a b : Value} (ha : h.keyOf a = some k) (hb : h.keyOf b = some l) (number : ∀ d, a = .double d → d.isNaN = false) :
    h.equal a b = true ↔ k = l := by
  rw [← sameKey_keyOf ha hb,Heap.sameKey,Bool.or_eq_true,beq_iff_eq]
  constructor
  · exact Or.inr
  · rintro (rfl | equal)
    · exact equal_self ha number
    · exact equal

-- Keys that are no containers are compared by equality.
def Plain (h : Heap) (sameKey : Value → Value → Bool) : Prop :=
  ∀ w v : Value, v.isList = false → v.isMap = false → sameKey w v = h.equal w v

theorem lookupWith_scalar {table : Table} (plain : h.Plain sameKey) {v : Value} (list : v.isList = false) (map : v.isMap = false) : h.lookupWith sameKey table v = h.lookupWith h.equal table v := by
  have same : (fun w => w == v || sameKey w v) = fun w => w == v || h.equal w v := by
    funext w
    rw [plain w v list map]
  simp only [lookupWith,same]

theorem equalWithin_maps {m n : Key → Option Value} (hx : Answers h (.map x) m) (hy : Answers h (.map y) n)
    (plain : h.Plain sameKey) : h.equalWithin sameKey (levels + 1) (.map x) (.map y) = true ↔ x = y ∨ (∀ k, (m k).isSome = (n k).isSome) ∧
      ∀ k a b, m k = some a → n k = some b → h.equalWithin sameKey levels a b = true := by
  have lookup : ∀ key k, h.keyOf key = some k → (h.table? (.map y)).bind (h.lookupWith sameKey · key) = n k := by
    intro key k known
    obtain ⟨list,map⟩ := keyOf_scalar known
    rw [← hy.lookup? key k known,lookup?]
    simp only [lookupWith_scalar plain list map]
  simp only [equalWithin,Bool.or_eq_true,Bool.and_eq_true,beq_iff_eq,List.all_eq_true,hx.count,hy.count]
  apply or_congr_right
  constructor
  · rintro ⟨size,found⟩
    have covered : ∀ k a, m k = some a → ∃ b, n k = some b ∧ h.equalWithin sameKey levels a b = true := by
      intro k a here
      obtain ⟨key,known,listed⟩ := (hx.entries.listed k a).mp here
      have equal := found (key,a) listed
      simp only [lookup key k known] at equal
      cases there : n k with
      | none => simp [there] at equal
      | some b => exact ⟨b,rfl,by simpa only [there] using equal⟩
    -- Equally many keys, and those of the first among those of the second.
    have same : {k | (m k).isSome = true} = {k | (n k).isSome = true} := by
      refine Set.eq_of_subset_of_ncard_le (fun k bound => ?_) (Nat.le_of_eq size.symm) hy.entries.finite
      obtain ⟨a,here⟩ := Option.isSome_iff_exists.mp bound
      obtain ⟨b,there,_⟩ := covered k a here
      exact Option.isSome_iff_exists.mpr ⟨b,there⟩
    refine ⟨fun k => Bool.eq_iff_iff.mpr (Set.ext_iff.mp same k),fun k a b here there => ?_⟩
    obtain ⟨c,bound,equal⟩ := covered k a here
    rw [there] at bound
    cases bound
    exact equal
  · rintro ⟨domain,each⟩
    refine ⟨by simp only [domain],fun pair listed => ?_⟩
    obtain ⟨k,known,here⟩ := hx.entries.bound listed
    obtain ⟨b,there⟩ := exists_partner domain here
    simp only [lookup pair.1 k known,there]
    exact each k pair.2 b here there

theorem exists_lists {h : Heap} {entries : List Entry} (keyed : ∀ entry ∈ entries, (h.keyOf entry.key).isSome = true ∧ entry.hash = h.hash entry.key)
    (once : (entries.map fun entry => h.keyOf entry.key).Nodup) : ∃ m, Lists h entries m := by
  induction entries with
  | nil => exact ⟨_,.nil h⟩
  | cons entry rest ih =>
      obtain ⟨fresh,others⟩ := List.nodup_cons.mp once
      obtain ⟨m,lists⟩ := ih (fun other member => keyed other (List.mem_cons_of_mem _ member)) others
      obtain ⟨known,hash⟩ := keyed entry List.mem_cons_self
      obtain ⟨k,key⟩ := Option.isSome_iff_exists.mp known
      refine ⟨_,lists.cons key hash ?_⟩
      rw [Option.eq_none_iff_forall_ne_some]
      intro value bound
      obtain ⟨other,member,same,_⟩ := (lists.binds k value).mp bound
      exact fresh (List.mem_map.mpr ⟨other,member,same.trans key.symm⟩)

theorem Filed.lists {h : Heap} {table : Table} (filed : Filed lost h table.filings) (bound : ∀ entry ∈ table.entries, entry.hash ≠ 0)
    (scalars : ∀ entry ∈ table.entries, entry.key.isList = false ∧ entry.key.isMap = false) : ∃ m, Lists h (Table.contents table.cells) m := by
  have keyed : ∀ entry ∈ table.entries, (h.keyOf entry.key).isSome = true ∧ entry.hash = h.hash entry.key := by
    intro entry member
    obtain ⟨list,map⟩ := scalars entry member
    exact filed.keyed _ (List.mem_map.mpr ⟨entry,member,rfl⟩) (bound entry member) list map
  refine exists_lists keyed ?_
  have apart := List.pairwise_map.mp (List.pairwise_filterMap.mp filed.once)
  refine List.pairwise_map.mpr (apart.imp_of_mem fun {a b} first second different same => ?_)
  obtain ⟨k,known⟩ := Option.isSome_iff_exists.mp (keyed a first).1
  exact different k (filedKey_some.mpr ⟨bound a first,known⟩) k (filedKey_some.mpr ⟨bound b second,same.symm.trans known⟩) rfl

theorem Settled.answers {h : Heap} (settled : h.Settled (.map r)) (reachable : Reachable h) (simple : h.SimpleKeys) :
    ∃ m, Answers h (.map r) m := by
  obtain ⟨table,present⟩ := (settled.sound _ .self).map
  obtain ⟨plain,scalars⟩ := simple r table present
  have bound := settled.bound _ table .self (by simp only [table?,present])
  obtain ⟨m,lists⟩ := (reachable.filing r table present).lists bound scalars
  exact ⟨m,lists.answers present (reachable.intact.table present) plain⟩

theorem Settled.item {h : Heap} {list : ListObject} (settled : h.Settled (.list r)) (present : h.object? r = some (.list list)) {i : Nat}
    (here : list.items[i]? = some v) : h.Settled v := by
  refine settled.inside (.part .self ?_)
  simp only [parts,items?,list?,present,Option.map_some,Option.getD_some]
  exact Array.mem_toList_iff.mpr (Array.mem_of_getElem? here)

theorem Settled.bind {m : Key → Option Value} (settled : Settled h (.map r)) (answers : Answers h (.map r) m) (here : m k = some v) : Settled h v := by
  obtain ⟨key,_,listed⟩ := (answers.entries.listed k v).mp here
  exact settled.inside (.part .self (List.mem_flatMap.mpr ⟨_,listed,by simp⟩))

theorem Matches.equal (matches_ : Matches h levels a b) (left : Settled h a) (right : Settled h b)
    (plain : h.Plain sameKey) : h.equalWithin sameKey levels a b = true := by
  induction matches_ with
  | keyed ka kb =>
      obtain ⟨list,map⟩ := keyOf_scalar kb
      rw [equalWithin_scalar list map,equal_keyOf ka kb]
      rintro d rfl
      exact left.number d .self
  | @sameList levels => cases levels <;> simp [equalWithin]
  | @sameMap levels => cases levels <;> simp [equalWithin]
  | lists hx hy size _ ih =>
      exact (equalWithin_lists hx hy).mpr (Or.inr ⟨size,fun i a b atA atB => ih i a b atA atB (left.item hx atA) (right.item hy atB)⟩)
  | maps hx hy domain _ ih =>
      exact (equalWithin_maps hx hy plain).mpr
        (Or.inr ⟨domain,fun k a b atA atB => ih k a b atA atB (left.bind hx atA) (right.bind hy atB)⟩)

theorem matches_keyed {a b : Value} (left : h.Settled a) (kb : h.keyOf b = some k) (equal : h.equalWithin sameKey levels a b = true) :
    Matches h levels a b := by
  obtain ⟨list,map⟩ := keyOf_scalar kb
  obtain ⟨sameList,sameMap⟩ := equalWithin_kinds equal
  rw [equalWithin_scalar list map] at equal
  rcases keyOf_or_container (left.sound a .self) with ⟨l,ka⟩ | isList | isMap
  · have number : ∀ d, a = .double d → d.isNaN = false := by
      rintro d rfl
      exact left.number d .self
    have same := (equal_keyOf ka kb number).mp equal
    exact .keyed (same ▸ ka) kb
  · rw [sameList,list] at isList
    cases isList
  · rw [sameMap,map] at isMap
    cases isMap

theorem matches_lists (left : h.Settled (.list x)) (right : h.Settled (.list y)) (equal : h.equalWithin sameKey levels (.list x) (.list y) = true)
    (deeper : ∀ fewer < levels, ∀ {a b}, h.Settled a → h.Settled b → h.equalWithin sameKey fewer a b = true → Matches h fewer a b) :
    Matches h levels (.list x) (.list y) := by
  obtain ⟨xs,hx⟩ := (left.sound _ .self).list
  obtain ⟨ys,hy⟩ := (right.sound _ .self).list
  cases levels with
  | zero =>
      have same : x = y := by simpa [equalWithin] using equal
      exact same ▸ .sameList
  | succ levels =>
      rcases (equalWithin_lists hx hy).mp equal with rfl | ⟨size,each⟩
      · exact .sameList
      · exact .lists hx hy size fun i a b atA atB =>
          deeper levels (Nat.lt_succ_self levels) (left.item hx atA) (right.item hy atB) (each i a b atA atB)

theorem matches_maps (reachable : Reachable h) (simple : h.SimpleKeys) (plain : h.Plain sameKey) (left : h.Settled (.map x))
    (right : h.Settled (.map y)) (equal : h.equalWithin sameKey levels (.map x) (.map y) = true)
    (deeper : ∀ fewer < levels, ∀ {a b}, h.Settled a → h.Settled b → h.equalWithin sameKey fewer a b = true → Matches h fewer a b) :
    Matches h levels (.map x) (.map y) := by
  obtain ⟨m,hx⟩ := left.answers reachable simple
  obtain ⟨n,hy⟩ := right.answers reachable simple
  cases levels with
  | zero =>
      have same : x = y := by simpa [equalWithin] using equal
      exact same ▸ .sameMap
  | succ levels =>
      rcases (equalWithin_maps hx hy plain).mp equal with rfl | ⟨domain,each⟩
      · exact .sameMap
      · exact .maps hx hy domain fun k a b atA atB =>
          deeper levels (Nat.lt_succ_self levels) (left.bind hx atA) (right.bind hy atB) (each k a b atA atB)

theorem equal_matches (reachable : Reachable h) (simple : h.SimpleKeys) (plain : h.Plain sameKey) {levels : Nat} {a b : Value}
    (left : h.Settled a) (right : h.Settled b) (equal : h.equalWithin sameKey levels a b = true) : Matches h levels a b := by
  induction levels using Nat.strongRecOn generalizing a b with
  | _ levels deeper =>
      obtain ⟨list,map⟩ := equalWithin_kinds equal
      rcases keyOf_or_container (right.sound b .self) with ⟨l,kb⟩ | isList | isMap
      · exact matches_keyed left kb equal
      · cases b with
        | list y =>
            cases a with
            | list x => exact matches_lists left right equal deeper
            | null | int | double | short | str | map | funcRef => cases list
        | null | int | double | short | str | map | funcRef => cases isList
      · cases b with
        | map y =>
            cases a with
            | map x => exact matches_maps reachable simple plain left right equal deeper
            | null | int | double | short | str | list | funcRef => cases map
        | null | int | double | short | str | list | funcRef => cases isMap

theorem hash_ne_zero {v : Value} (sound : h.Sound v) : h.hash v ≠ 0 := by
  intro zero
  obtain ⟨q,rfl,none⟩ := hash_gone zero
  obtain ⟨object,present,fits⟩ := sound q rfl
  cases fits
  rw [text?_str.mpr present] at none
  cases none

-- How equality and hashing fit together, among some values.
structure Congruent (h : Heap) (among : Value → Prop) : Prop where
  symm : ∀ a b, among a → among b → h.equal a b = true → h.equal b a = true
  trans : ∀ a b c, among a → among b → among c → h.equal a b = true → h.equal b c = true → h.equal a c = true
  hash : ∀ a b, among a → among b → h.equal a b = true → h.hash a = h.hash b
  nonzero : ∀ v, h.Sound v → h.hash v ≠ 0

theorem Congruent.mono (congruent : h.Congruent among) (fewer : ∀ v, some_ v → among v) : h.Congruent some_ where
  symm := fun a b left right => congruent.symm a b (fewer a left) (fewer b right)
  trans := fun a b c left middle right => congruent.trans a b c (fewer a left) (fewer b middle) (fewer c right)
  hash := fun a b left right => congruent.hash a b (fewer a left) (fewer b right)
  nonzero := congruent.nonzero

theorem reachable_settled (reachable : Reachable h) (simple : h.SimpleKeys) : h.Congruent h.Settled := by
  have plain : h.Plain (h.equalNested keyNesting) := fun w v list map => equalWithin_scalar list map maxDepth
  have matched : ∀ a b, h.Settled a → h.Settled b → h.equal a b = true → Matches h maxDepth a b :=
    fun a b left right equal => equal_matches reachable simple plain left right equal
  refine ⟨?_,?_,?_,fun v sound => hash_ne_zero sound⟩
  · intro a b left right equal
    exact (matched a b left right equal).symm.equal right left plain
  · intro a b c left middle right first second
    exact ((matched a b left middle first).trans (matched b c middle right second)).equal left right plain
  · intro a b left right equal
    exact (matched a b left right equal).hash

-- In an honest heap every key that is there was there when it was bound.
theorem Honest.settled (honest : Honest h) (few : h.history.size < 2 ^ 32) (whole : h.Whole v) : h.Settled v := by
  refine ⟨whole,fun u table inside found entry member => ?_⟩
  obtain ⟨r,rfl,_⟩ := table?_object.mp found
  refine honest.hashed few found member (whole.sound _ (.part inside ?_))
  have listed : (entry.key,entry.value) ∈ h.mapEntries (.map r) := by
    simp only [mapEntries,found]
    exact List.mem_append_right _ (List.mem_map_of_mem member)
  exact List.mem_flatMap.mpr ⟨_,listed,List.mem_cons_self⟩

-- Where hosts name no string that they have not seen, and generations have not come round, every whole
-- value is settled. In other heaps a key may have been bound before its string was there.
theorem reachable_congruent (reachable : Reachable h) (simple : h.SimpleKeys) :
    h.Congruent h.Settled ∧ (Honest h → h.history.size < 2 ^ 32 → h.Congruent h.Whole) := by
  have settled := reachable_settled reachable simple
  exact ⟨settled,fun honest few => settled.mono fun v whole => honest.settled few whole⟩

theorem inside_among {h : Heap} {values : List Value} (closed : ∀ v ∈ values, ∀ w ∈ h.parts v, w ∈ values) (member : v ∈ values)
    (inside : Inside h v w) : w ∈ values := by
  induction inside with
  | self => exact member
  | part _ part ih => exact closed _ ih _ part

theorem whole_among {h : Heap} {values : List Value} (closed : ∀ v ∈ values, ∀ w ∈ h.parts v, w ∈ values)
    (sound : ∀ v ∈ values, h.Sound v) (number : ∀ d, .double d ∈ values → d.isNaN = false) (member : v ∈ values) : h.Whole v :=
  ⟨fun w inside => sound w (inside_among closed member inside),fun d inside => number d (inside_among closed member inside)⟩

def isSound (h : Heap) (v : Value) : Bool :=
  match v.handle? with
  | none => true
  | some r => match h.object? r,v with
    | some (.str _),.str _ | some (.list _),.list _ | some (.map _),.map _ | some (.funcRef _),.funcRef _ => true
    | _,_ => false

theorem isSound_sound {h : Heap} {v : Value} (checked : h.isSound v = true) : h.Sound v := by
  intro r handle
  simp only [isSound,handle] at checked
  split at checked
  · exact ⟨_,by assumption,.str⟩
  · exact ⟨_,by assumption,.list⟩
  · exact ⟨_,by assumption,.map⟩
  · exact ⟨_,by assumption,.funcRef⟩
  · cases checked

def simpleContent (content : Option Object) : Bool :=
  match content with
  | some (.map table) => table.aliases.isNone && table.entries.all fun entry => !entry.key.isList && !entry.key.isMap
  | _ => true

theorem simpleKeys_slots {h : Heap} (simple : ∀ slot ∈ h.slots, simpleContent slot.object = true) : h.SimpleKeys := by
  intro r table present
  obtain ⟨slot,there,_,content⟩ := object?_slot.mp present
  have checked := simple slot (Array.mem_of_getElem? there)
  simpa [simpleContent,content] using checked

-- A list that holds itself and a map that holds the list; another map has it under the same number.
theorem reachable_congruent_cyclic :
    ∃ h : Heap, Reachable h ∧ h.SimpleKeys ∧ h.Whole (.map ⟨1,0⟩) ∧ h.Whole (.map ⟨2,0⟩) ∧
      h.equal (.map ⟨1,0⟩) (.map ⟨2,0⟩) = true ∧ h.equal (.map ⟨2,0⟩) (.map ⟨1,0⟩) = true ∧
      h.hash (.map ⟨1,0⟩) = h.hash (.map ⟨2,0⟩) := by
  let calls : List Call := [.newList 0,.listPush (.list ⟨0,0⟩) (.list ⟨0,0⟩),.newMap 4,.listPush (.list ⟨0,0⟩) (.map ⟨1,0⟩),
    .mapSet (.map ⟨1,0⟩) (.int 1) (.list ⟨0,0⟩),.newMap 4,.mapSet (.map ⟨2,0⟩) (.double .one) (.list ⟨0,0⟩)]
  let h : Heap := calls.foldl Call.run (new {})
  have honest : Honest h := .calls (.new {}) (by decide)
  have simple : h.SimpleKeys := simpleKeys_slots (by decide +kernel)
  let values : List Value := [.map ⟨1,0⟩,.map ⟨2,0⟩,.list ⟨0,0⟩,.int 1,.double .one]
  have closed : ∀ v ∈ values, ∀ w ∈ h.parts v, w ∈ values := by decide +kernel
  have checked : ∀ v ∈ values, h.isSound v = true := by decide +kernel
  have number : ∀ d, .double d ∈ values → d.isNaN = false := by
    intro d member
    have one : d = .one := by simpa [values] using member
    subst one
    decide
  have whole : ∀ v ∈ values, h.Whole v := fun v member => whole_among closed (fun w among => isSound_sound (checked w among)) number member
  have left := whole (.map ⟨1,0⟩) (by decide)
  have right := whole (.map ⟨2,0⟩) (by decide)
  have equal : h.equal (.map ⟨1,0⟩) (.map ⟨2,0⟩) = true := by decide +kernel
  obtain ⟨_,congruent⟩ := reachable_congruent honest.reachable simple
  have fits := congruent honest (by decide +kernel)
  exact ⟨h,honest.reachable,simple,left,right,equal,fits.symm _ _ left right equal,fits.hash _ _ left right equal⟩

-- When generations have come round, a key that was gone when it was bound is there again, and equality holds in one direction only.
theorem reachable_incongruent :
    ∃ h : Heap, Honest h ∧ h.SimpleKeys ∧ h.Whole (.map ⟨0,0⟩) ∧ h.Whole (.map ⟨2,0⟩) ∧
      h.equal (.map ⟨0,0⟩) (.map ⟨2,0⟩) = true ∧ h.equal (.map ⟨2,0⟩) (.map ⟨0,0⟩) = false := by
  let again : Heap := [Call.newString page,.newMap 4].foldl Call.run (vacant boundGone (2 ^ 32))
  let h : Heap := Call.run again (.mapSet (.map ⟨2,0⟩) (.str ⟨1,0⟩) (.int 1))
  have begun : Honest (vacant boundGone (2 ^ 32)) := vacant_honest (by decide) (Nat.le_refl _)
  have there : again.isLive ⟨1,0⟩ = true := by decide +kernel
  have honest : Honest h := Honest.binds (.calls begun (by decide)) there (.map ⟨2,0⟩) 1
  let values : List Value := [.map ⟨0,0⟩,.map ⟨2,0⟩,.str ⟨1,0⟩,.int 1]
  have closed : ∀ v ∈ values, ∀ w ∈ h.parts v, w ∈ values := by decide +kernel
  have checked : ∀ v ∈ values, h.isSound v = true := by decide +kernel
  have whole : ∀ v ∈ values, h.Whole v := fun v member =>
    whole_among closed (fun w among => isSound_sound (checked w among)) (by simp [values]) member
  exact ⟨h,honest,simpleKeys_slots (by decide +kernel),whole _ (by decide),whole _ (by decide),by decide +kernel,by decide +kernel⟩

end RegisterMachine.Heap
