import RegisterMachine.Heap.Equality
import RegisterMachine.Proofs.Table.Invariant

namespace RegisterMachine.Heap

variable {h : Heap} {a b v key : Value} {asks asks' : Value → Value → Option Bool}

-- Every comparison that ends in the first way ends alike in the second.
def Refines (asks asks' : Value → Value → Option Bool) : Prop :=
  ∀ a b decision, asks a b = some decision → asks' a b = some decision

theorem allPass_mono {test test' : α → Option Bool} {items : List α}
    (refines : ∀ a ∈ items, ∀ decision, test a = some decision → test' a = some decision)
    (decided : allPass test items = some decision) : allPass test' items = some decision := by
  induction items with
  | nil => exact decided
  | cons a rest ih =>
      simp only [allPass] at decided ⊢
      cases first : test a with
      | none => rw [first] at decided; cases decided
      | some passes =>
          rw [first] at decided
          rw [refines a List.mem_cons_self _ first]
          cases passes with
          | false => exact decided
          | true => exact ih (fun b member => refines b (List.mem_cons_of_mem a member)) decided

theorem allPass_total (passes : α → Bool) (items : List α) : allPass (fun a => some (passes a)) items = some (items.all passes) := by
  induction items with
  | nil => rfl
  | cons a rest ih => cases first : passes a <;> simp [allPass,first,ih]

theorem allEqual_zip (equal : Value → Value → Bool) {xs ys : List Value} (size : xs.length = ys.length) :
    allEqual equal xs ys = (xs.zip ys).all fun pair => equal pair.1 pair.2 := by
  induction xs generalizing ys with
  | nil => cases ys with
    | nil => rfl
    | cons => cases size
  | cons a xs ih => cases ys with
    | nil => cases size
    | cons b ys => simp only [allEqual,List.zip_cons_cons,List.all_cons,ih (Nat.succ.inj size)]

-- The same for what is asked of the keys in the maps.
def RefinesKeys (h : Heap) (asks asks' : Value → Value → Option Bool) : Prop :=
  ∀ v table, h.table? v = some table → ∀ entry ∈ table.entries, ∀ key decision, asks entry.key key = some decision → asks' entry.key key = some decision

theorem Refines.keys (refines : Refines asks asks') : h.RefinesKeys asks asks' := fun _ _ _ entry _ key => refines entry.key key

theorem decideLookup_mono (refines : h.RefinesKeys asks asks') (found : h.decideLookup asks v key = some bound) :
    h.decideLookup asks' v key = some bound := by
  unfold decideLookup at found ⊢
  cases live : h.table? v with
  | none => rwa [live] at found
  | some table =>
      simp only [live] at found ⊢
      cases aliased : table.aliases.bind (h.aliasRegister? · key) with
      | some register => rwa [aliased] at found
      | none =>
          simp only [aliased] at found ⊢
          by_cases empty : table.count = 0
          · rwa [if_pos empty] at found ⊢
          · rw [if_neg empty] at found ⊢
            obtain ⟨cell,ended,same⟩ := Option.map_eq_some_iff.mp found
            refine Option.map_eq_some_iff.mpr ⟨cell,Table.seek_mono (fun j entry present _ decision => ?_) ended,same⟩
            cases entry.key == key with
            | true => exact id
            | false => exact refines v table live entry (Table.mem_contents.mpr ⟨j,present⟩) key decision

theorem decideLookup_total (sameKey : Value → Value → Bool) (v key : Value) :
    h.decideLookup (fun a b => some (sameKey a b)) v key = some ((h.table? v).bind (h.lookupWith sameKey · key)) := by
  unfold decideLookup
  cases live : h.table? v with
  | none => rfl
  | some table =>
      simp only [Option.bind_some,lookupWith]
      cases aliased : table.aliases.bind (h.aliasRegister? · key) with
      | some register => rfl
      | none =>
          by_cases empty : table.count = 0
          · simp only [if_pos empty]
          · have tests : (fun k => if k == key then some true else some (sameKey k key)) = fun k => some (k == key || sameKey k key) := by
              funext k
              cases k == key <;> rfl
            simp only [if_neg empty,Table.seek?,tests,Table.seek_total,Option.map_some]
            rfl

theorem decideEntry_mono {below below' : Value → Value → Option Bool} (refines : h.RefinesKeys asks asks') (deeper : Refines below below')
    (decided : h.decideEntry asks below v entry = some decision) : h.decideEntry asks' below' v entry = some decision := by
  unfold decideEntry at decided ⊢
  cases found : h.decideLookup asks v entry.1 with
  | none => rw [found] at decided; cases decided
  | some bound =>
      rw [found] at decided
      rw [decideLookup_mono refines found]
      cases bound with
      | none => exact decided
      | some other => exact deeper _ _ _ decided

theorem decideEntry_total (h : Heap) (sameKey equal : Value → Value → Bool) (v : Value) (entry : Value × Value) :
    h.decideEntry (fun a b => some (sameKey a b)) (fun a b => some (equal a b)) v entry =
      some (((h.table? v).bind (h.lookupWith sameKey · entry.1)).any (equal entry.2)) := by
  rw [decideEntry,decideLookup_total]
  cases (h.table? v).bind (h.lookupWith sameKey · entry.1) with
  | none => rfl
  | some other => rfl

theorem kinds_cases (a b : Value) : (∃ x y, a = .list x ∧ b = .list y) ∨ (∃ x y, a = .map x ∧ b = .map y) ∨
    (a.isList = false ∨ b.isList = false) ∧ (a.isMap = false ∨ b.isMap = false) := by
  cases a <;> cases b <;> simp [Value.isList,Value.isMap]

-- Values that are not two lists and not two maps are compared at once.
theorem decideWithin_plain (lists : a.isList = false ∨ b.isList = false) (maps : a.isMap = false ∨ b.isMap = false) (levels : Nat) :
    h.decideWithin asks levels a b = some (h.equalWithin (fun _ _ => false) levels a b) := by
  cases a <;> cases b <;> first | (cases levels <;> rfl) | simp [Value.isList,Value.isMap] at lists maps

theorem decideWithin_mono (refines : h.RefinesKeys asks asks') (levels : Nat) : Refines (h.decideWithin asks levels) (h.decideWithin asks' levels) := by
  induction levels with
  | zero =>
      intro a b decision
      rcases kinds_cases a b with ⟨x,y,rfl,rfl⟩ | ⟨x,y,rfl,rfl⟩ | ⟨lists,maps⟩
      · exact id
      · exact id
      · rw [decideWithin_plain lists maps,decideWithin_plain lists maps]
        exact id
  | succ levels ih =>
      intro a b decision
      rcases kinds_cases a b with ⟨x,y,rfl,rfl⟩ | ⟨x,y,rfl,rfl⟩ | ⟨lists,maps⟩
      · simp only [Heap.decideWithin]
        cases x == y with
        | true => simp only [if_true,imp_self]
        | false =>
            simp only [Bool.false_eq_true,if_false]
            cases h.items? (.list x) with
            | none => simp only [imp_self]
            | some xs => cases h.items? (.list y) with
              | none => simp only [imp_self]
              | some ys =>
                  dsimp only
                  cases xs.size == ys.size with
                  | false => simp only [Bool.false_eq_true,if_false,imp_self]
                  | true =>
                      simp only [if_true]
                      exact allPass_mono fun pair _ => ih pair.1 pair.2
      · simp only [Heap.decideWithin]
        cases x == y with
        | true => simp only [if_true,imp_self]
        | false =>
            simp only [Bool.false_eq_true,if_false]
            cases h.mapCount (.map x) == h.mapCount (.map y) with
            | false => simp only [Bool.false_eq_true,if_false,imp_self]
            | true =>
                simp only [if_true]
                exact allPass_mono fun entry _ decision => decideEntry_mono refines ih
      · rw [decideWithin_plain lists maps,decideWithin_plain lists maps]
        exact id

theorem decideWithin_total (sameKey : Value → Value → Bool) (levels : Nat) (a b : Value) :
    h.decideWithin (fun a b => some (sameKey a b)) levels a b = some (h.equalWithin sameKey levels a b) := by
  induction levels generalizing a b with
  | zero =>
      cases a <;> cases b <;> try rfl
      case list.list x y => cases same : x == y <;> simp [decideWithin,equalWithin,same]
      case map.map x y => cases same : x == y <;> simp [decideWithin,equalWithin,same]
  | succ levels ih =>
      cases a <;> cases b <;> try rfl
      case list.list x y =>
        simp only [decideWithin,equalWithin]
        cases x == y with
        | true => rfl
        | false => cases h.items? (.list x) with
          | none => rfl
          | some xs => cases h.items? (.list y) with
            | none => rfl
            | some ys =>
                dsimp only
                cases size : xs.size == ys.size with
                | false => simp
                | true =>
                    have pairs := allPass_total (fun pair : Value × Value => h.equalWithin sameKey levels pair.1 pair.2) (xs.toList.zip ys.toList)
                    simp only [ih,pairs,if_true,Bool.true_and,Bool.false_or,Bool.false_eq_true,if_false]
                    rw [allEqual_zip _ (by simpa using size)]
      case map.map x y =>
        simp only [decideWithin,equalWithin]
        cases x == y with
        | true => rfl
        | false => cases h.mapCount (.map x) == h.mapCount (.map y) with
          | false => rfl
          | true =>
              have deeper : h.decideWithin (fun a b => some (sameKey a b)) levels = fun a b => some (h.equalWithin sameKey levels a b) := by
                funext a b
                exact ih a b
              have each := funext (h.decideEntry_total sameKey (h.equalWithin sameKey levels) (.map y))
              simp only [deeper,each,allPass_total,if_true,Bool.true_and]
              refine congrArg (fun test => some (List.all (h.mapEntries (.map x)) test)) (funext fun entry => ?_)
              cases (h.table? (.map y)).bind (h.lookupWith sameKey · entry.1) with
              | none => rfl
              | some other => rfl

-- Comparisons of keys that were told apart without going on are told apart in the same way when more of them can wait.
theorem decideNested_refines (fewer : n ≤ m) : Refines (h.decideNested n) (h.decideNested m) := by
  induction n generalizing m with
  | zero => intro a b decision decided; cases decided
  | succ n ih =>
      obtain ⟨m,rfl⟩ := Nat.exists_eq_add_of_le' fewer
      exact decideWithin_mono (ih (Nat.le_add_left n m)).keys maxDepth

theorem decideNested_equal (n : Nat) : Refines (h.decideNested n) fun a b => some (h.equalNested n a b) := by
  induction n with
  | zero => intro a b decision decided; cases decided
  | succ n ih =>
      intro a b decision decided
      have same := decideWithin_mono ih.keys maxDepth a b decision decided
      rwa [decideWithin_total] at same

theorem equal?_equal (ended : h.equal? a b = some decision) : h.equal a b = decision :=
  Option.some.inj (decideNested_equal (keyNesting + 1) a b decision ended)

-- No key that lies in a map is a list or a map.
def FlatKeys (h : Heap) : Prop :=
  ∀ v table, h.table? v = some table → ∀ entry ∈ table.entries, entry.key.isList = false ∧ entry.key.isMap = false

theorem decideWithin_ends (ends : ∀ v table, h.table? v = some table → ∀ entry ∈ table.entries, ∀ key, (asks entry.key key).isSome = true)
    (levels : Nat) (a b : Value) : (h.decideWithin asks levels a b).isSome = true := by
  have refines : h.RefinesKeys (fun a b => some ((asks a b).getD false)) asks := by
    rintro v table live entry member key decision ⟨⟩
    obtain ⟨answer,found⟩ := Option.isSome_iff_exists.mp (ends v table live entry member key)
    rw [found,Option.getD_some]
  exact Option.isSome_iff_exists.mpr ⟨_,decideWithin_mono refines levels a b _ (decideWithin_total _ levels a b)⟩

-- Every comparison ends where no key is a container.
theorem equal?_flat (flat : FlatKeys h) (a b : Value) : (h.equal? a b).isSome = true := by
  have once : ∀ v table, h.table? v = some table → ∀ entry ∈ table.entries, ∀ key, (h.decideNested 1 entry.key key).isSome = true := by
    intro v table live entry member key
    obtain ⟨list,map⟩ := flat v table live entry member
    exact Option.isSome_iff_exists.mpr ⟨_,decideWithin_plain (Or.inl list) (Or.inl map) maxDepth⟩
  obtain ⟨decision,decided⟩ := Option.isSome_iff_exists.mp (decideWithin_ends once maxDepth a b)
  exact Option.isSome_iff_exists.mpr ⟨decision,decideNested_refines (n := 2) (by decide) a b decision decided⟩

-- What a list holds that holds one thing, which holds one thing, and so on.
def innermost (h : Heap) : Nat → Value → Option Value
  | 0, v => some v
  | depth + 1, v => match (h.items? v).map Array.toList with
    | some [w] => innermost h depth w
    | _ => none

theorem innermost_next (inner : h.innermost (depth + 1) a = some v) :
    ∃ x, a = .list x ∧ ∃ w, h.items? (.list x) = some #[w] ∧ h.innermost depth w = some v := by
  simp only [innermost] at inner
  split at inner
  · rename_i w listed
    obtain ⟨items,found,single⟩ := Option.map_eq_some_iff.mp listed
    have shown : items = #[w] := Array.toList_inj.mp single
    cases a with
    | list x => exact ⟨x,rfl,w,shown ▸ found,inner⟩
    | null | int | double | short | str | map | funcRef => cases found
  · cases inner

theorem decideWithin_innermost (inner : h.innermost depth a = some v) (inner' : h.innermost depth b = some w) (apart : v ≠ w)
    (levels : Nat) : h.decideWithin asks (levels + depth) a b = h.decideWithin asks levels v w := by
  induction depth generalizing a b with
  | zero =>
      cases inner
      cases inner'
      rfl
  | succ depth ih =>
      obtain ⟨x,rfl,p,holds,deeper⟩ := innermost_next inner
      obtain ⟨y,rfl,q,holds',deeper'⟩ := innermost_next inner'
      have other : (x == y) = false := by
        rw [beq_eq_false_iff_ne]
        rintro rfl
        rw [inner] at inner'
        exact apart (Option.some.inj inner')
      rw [← ih deeper deeper',Nat.add_succ]
      simp only [decideWithin,other,Bool.false_eq_true,if_false,holds,holds']
      simp only [List.size_toArray,List.length_cons,List.length_nil,beq_self_eq_true,if_true,List.zip_cons_cons,List.zip_nil_right,allPass]
      split
      · rename_i passes
        exact passes.symm
      · rfl

-- The first key of one map leads in fifteen levels back to that map, and the key that it is compared with in the other map leads there.
structure Tangled (h : Heap) (x y : Handle) (k k' : Value) : Prop where
  here : h.innermost 15 k = some (.map x)
  there : h.innermost 15 k' = some (.map y)
  apart : x ≠ y
  counts : h.mapCount (.map x) = h.mapCount (.map y)
  first : (h.mapEntries (.map x)).head?.map Prod.fst = some k
  filed : (h.table? (.map y)).map (fun table => (table.aliases,table.count == 0,
    (Table.cellAt table.cells (Table.home table.cells (h.hash k))).map fun entry => (entry.key == k',entry.hash == h.hash k))) =
      some (none,false,some (true,true))

instance (h : Heap) (x y : Handle) (k k' : Value) : Decidable (Tangled h x y k k') :=
  decidable_of_iff (h.innermost 15 k = some (.map x) ∧ h.innermost 15 k' = some (.map y) ∧ x ≠ y ∧
    h.mapCount (.map x) = h.mapCount (.map y) ∧ (h.mapEntries (.map x)).head?.map Prod.fst = some k ∧
    (h.table? (.map y)).map (fun table => (table.aliases,table.count == 0,
      (Table.cellAt table.cells (Table.home table.cells (h.hash k))).map fun entry => (entry.key == k',entry.hash == h.hash k))) =
        some (none,false,some (true,true))) (by
    constructor
    · rintro ⟨here,there,apart,counts,first,filed⟩
      exact ⟨here,there,apart,counts,first,filed⟩
    · rintro ⟨here,there,apart,counts,first,filed⟩
      exact ⟨here,there,apart,counts,first,filed⟩)

theorem Tangled.search (tangled : Tangled h x y k k') (endless : asks k' k = none) : ∃ table, h.table? (.map y) = some table ∧
    table.aliases = none ∧ table.count ≠ 0 ∧ table.seek? (h.hash k) (fun other => if other == k then some true else asks other k) = none := by
  obtain ⟨table,live,facts⟩ := Option.map_eq_some_iff.mp tangled.filed
  simp only [Prod.mk.injEq,beq_eq_false_iff_ne,Option.map_eq_some_iff,beq_iff_eq] at facts
  obtain ⟨plain,filled,entry,present,key,same⟩ := facts
  subst key
  have another : (entry.key == k) = false := by
    rw [beq_eq_false_iff_ne]
    intro shared
    have one := tangled.there
    rw [shared] at one
    exact tangled.apart (Value.map.inj (Option.some.inj (tangled.here.symm.trans one)))
  have stuck : (if entry.key == k then some true else asks entry.key k) = none := by rw [another]; exact endless
  obtain ⟨steps,size⟩ := Nat.exists_eq_succ_of_ne_zero (Nat.ne_of_gt (Nat.zero_lt_of_lt (Table.cellAt_lt present)))
  refine ⟨table,live,plain,filled,?_⟩
  rw [Table.seek?,size]
  exact Table.seek_stuck present same stuck steps

theorem Tangled.lookup (tangled : Tangled h x y k k') (endless : asks k' k = none) : h.decideLookup asks (.map y) k = none := by
  obtain ⟨table,live,plain,filled,stuck⟩ := tangled.search endless
  simp only [decideLookup,live,plain,Option.bind_none,if_neg filled,stuck,Option.map_none]

theorem Tangled.step (tangled : Tangled h x y k k') (endless : asks k' k = none) (levels : Nat) :
    h.decideWithin asks (levels + 1) (.map x) (.map y) = none := by
  obtain ⟨entry,head,key⟩ := Option.map_eq_some_iff.mp tangled.first
  subst key
  obtain ⟨rest,listed⟩ := List.head?_eq_some_iff.mp head
  have other : (x == y) = false := beq_eq_false_iff_ne.mpr tangled.apart
  simp only [decideWithin,other,tangled.counts,beq_self_eq_true,Bool.false_eq_true,if_false,if_true,listed,allPass,decideEntry,
    tangled.lookup endless]

-- However many comparisons can wait, those of the two keys do not end.
theorem Tangled.keys (one : Tangled h x y k k') (other : Tangled h y x k' k) (nesting : Nat) :
    h.decideNested nesting k k' = none ∧ h.decideNested nesting k' k = none := by
  induction nesting with
  | zero => exact ⟨rfl,rfl⟩
  | succ nesting ih =>
      have apart : Value.map x ≠ .map y := fun same => one.apart (Value.map.inj same)
      constructor
      · exact (decideWithin_innermost one.here one.there apart 1).trans (one.step ih.2 0)
      · exact (decideWithin_innermost other.here other.there apart.symm 1).trans (other.step ih.1 0)

theorem Tangled.endless (one : Tangled h x y k k') (other : Tangled h y x k' k) (nesting : Nat) :
    h.decideNested nesting (.map x) (.map y) = none := by
  cases nesting with
  | zero => rfl
  | succ nesting => exact one.step (one.keys other nesting).2 15

end RegisterMachine.Heap
