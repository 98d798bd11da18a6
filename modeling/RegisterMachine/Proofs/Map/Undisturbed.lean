import RegisterMachine.Proofs.Map.Visibility

namespace RegisterMachine

theorem Table.search_agree {cells : Array (Option Entry)} {isKey isKey' : Value → Bool}
    (agree : ∀ entry ∈ contents cells, isKey' entry.key = isKey entry.key) (hash : UInt32) (steps i : Nat) :
    search cells hash isKey' steps i = search cells hash isKey steps i := by
  induction steps generalizing i with
  | zero => rfl
  | succ steps ih =>
      simp only [search]
      cases found : cellAt cells i with
      | none => rfl
      | some entry => simp only [agree entry (mem_contents.mpr ⟨i,found⟩),ih]

namespace Heap

structure Undisturbed (among : Value → Prop) (h h' : Heap) : Prop where
  texts : ∀ v, h'.text? v = h.text? v
  items : ∀ v, h'.items? v = h.items? v
  tables : ∀ v, among v → h'.table? v = h.table? v
  assigned : ∀ v table, among v → h.table? v = some table → ∀ binding ∈ table.bound, h'.assigned? binding.2 = h.assigned? binding.2
  closed : ∀ v w, among v → w ∈ h.parts v → among w

theorem aliasEntries_bound (h : Heap) (table : Table) :
    h.aliasEntries table = table.bound.filterMap fun binding => (h.assigned? binding.2).map fun value => (binding.1,value) := by
  unfold aliasEntries Table.bound
  cases table.aliases <;> rfl

theorem combineItems_agree {hash hash' : Value → UInt32} {items : List Value} (agree : ∀ v ∈ items, hash' v = hash v) (start : UInt32) :
    combineItems hash' start items = combineItems hash start items :=
  List.foldl_ext _ _ _ fun running item member => by rw [agree item member]

theorem sumEntries_agree {hash hash' : Value → UInt32} {entries : List (Value × Value)}
    (agree : ∀ entry ∈ entries, hash' entry.1 = hash entry.1 ∧ hash' entry.2 = hash entry.2) : sumEntries hash' entries = sumEntries hash entries := by
  refine List.foldl_ext _ _ _ fun sum entry member => ?_
  obtain ⟨left,right⟩ := agree entry member
  simp only [left,right]

theorem allEqual_agree {equal equal' : Value → Value → Bool} {xs ys : List Value} (agree : ∀ x ∈ xs, ∀ y ∈ ys, equal' x y = equal x y) :
    allEqual equal' xs ys = allEqual equal xs ys := by
  induction xs generalizing ys with
  | nil => cases ys <;> rfl
  | cons x xs ih =>
      cases ys with
      | nil => rfl
      | cons y ys =>
          simp only [allEqual,agree x List.mem_cons_self y List.mem_cons_self]
          rw [ih fun x' left y' right => agree x' (List.mem_cons_of_mem _ left) y' (List.mem_cons_of_mem _ right)]

theorem part_entry {h : Heap} (listed : (key,value) ∈ h.mapEntries (.map r)) : key ∈ h.parts (.map r) ∧ value ∈ h.parts (.map r) :=
  ⟨List.mem_flatMap.mpr ⟨_,listed,List.mem_cons_self⟩,List.mem_flatMap.mpr ⟨_,listed,List.mem_cons_of_mem _ List.mem_cons_self⟩⟩

theorem lookupWith_listed {h : Heap} {sameKey : Value → Value → Bool} (present : h.object? r = some (.map table))
    (found : h.lookupWith sameKey table key = some value) : ∃ word, (word,value) ∈ h.mapEntries (.map r) := by
  rw [mapEntries_bound present]
  unfold lookupWith at found
  rw [aliasRegister_bound] at found
  cases named : h.aliasing? table key with
  | some binding =>
      rw [named] at found
      exact ⟨binding.1,List.mem_append_left _ (mem_assigned_bound.mpr ⟨_,List.mem_of_find?_eq_some named,found⟩)⟩
  | none =>
      rw [named] at found
      simp only [Option.map_none] at found
      split at found
      · cases found
      · obtain ⟨i,_,held⟩ := Option.bind_eq_some_iff.mp found
        obtain ⟨entry,cell,rfl⟩ := Option.map_eq_some_iff.mp held
        exact ⟨entry.key,List.mem_append_right _ (List.mem_map.mpr ⟨entry,Table.mem_contents.mpr ⟨i,cell⟩,rfl⟩)⟩

namespace Undisturbed

variable {among : Value → Prop} {h h' : Heap}

theorem aliasEntries (still : Undisturbed among h h') (inside : among v) (found : h.table? v = some table) :
    h'.aliasEntries table = h.aliasEntries table := by
  rw [aliasEntries_bound,aliasEntries_bound]
  exact List.filterMap_congr fun binding member => by rw [still.assigned v table inside found binding member]

theorem mapEntries (still : Undisturbed among h h') (inside : among v) : h'.mapEntries v = h.mapEntries v := by
  unfold Heap.mapEntries
  rw [still.tables v inside]
  cases found : h.table? v with
  | none => rfl
  | some table => simp only [still.aliasEntries inside found]

theorem mapCount (still : Undisturbed among h h') (inside : among v) : h'.mapCount v = h.mapCount v := by
  unfold Heap.mapCount
  rw [still.tables v inside]
  cases found : h.table? v with
  | none => rfl
  | some table => simp only [still.aliasEntries inside found]

theorem sameText (still : Undisturbed among h h') (a b : Value) : h'.sameText a b = h.sameText a b := by
  unfold Heap.sameText
  split
  · rfl
  · rw [still.texts,still.texts]

theorem sameName (still : Undisturbed among h h') (a b : Value) : h'.sameName a b = h.sameName a b := by
  rw [Heap.sameName,Heap.sameName,still.sameText]

theorem aliasing (still : Undisturbed among h h') (table : Table) (key : Value) : h'.aliasing? table key = h.aliasing? table key :=
  List.find?_congr fun binding _ => still.sameName binding.1 key

theorem hashWithin (still : Undisturbed among h h') (levels : Nat) (inside : among v) : h'.hashWithin levels v = h.hashWithin levels v := by
  induction levels generalizing v with
  | zero =>
      cases v with
      | list r => simp only [Heap.hashWithin,still.items]
      | map r => simp only [Heap.hashWithin,still.mapEntries inside]
      | short | str => simp only [Heap.hashWithin,stringHash,still.texts]
      | null | int | double | funcRef => rfl
  | succ levels ih =>
      cases v with
      | list r =>
          simp only [Heap.hashWithin,still.items]
          exact congrArg Hash.nonzero (combineItems_agree (fun item member => ih (still.closed _ _ inside member)) _)
      | map r =>
          simp only [Heap.hashWithin,still.mapEntries inside]
          rw [sumEntries_agree fun entry member => ?_]
          obtain ⟨left,right⟩ := part_entry member
          exact ⟨ih (still.closed _ _ inside left),ih (still.closed _ _ inside right)⟩
      | short | str => simp only [Heap.hashWithin,stringHash,still.texts]
      | null | int | double | funcRef => rfl

theorem hash (still : Undisturbed among h h') (inside : among v) : h'.hash v = h.hash v := still.hashWithin maxDepth inside

theorem lookupWith {same same' : Value → Value → Bool} (still : Undisturbed among h h') (inside : among (.map r))
    (present : h.object? r = some (.map table)) (keyed : among key) (agree : ∀ a b, among a → among b → same' a b = same a b) :
    h'.lookupWith same' table key = h.lookupWith same table key := by
  have found : h.table? (.map r) = some table := by rw [table?,present]
  have searched : table.find? (h.hash key) (fun w => w == key || same' w key) = table.find? (h.hash key) fun w => w == key || same w key := by
    refine Table.search_agree (fun entry member => ?_) _ _ _
    have listed : (entry.key,entry.value) ∈ h.mapEntries (.map r) := by
      rw [mapEntries_bound present]
      exact List.mem_append_right _ (List.mem_map.mpr ⟨entry,member,rfl⟩)
    rw [agree _ _ (still.closed _ _ inside (part_entry listed).1) keyed]
  simp only [Heap.lookupWith,aliasRegister_bound,still.aliasing,still.hash keyed,searched]
  cases named : h.aliasing? table key with
  | none => rfl
  | some binding => exact still.assigned _ table inside found binding (List.mem_of_find?_eq_some named)

theorem equalPlainly {same same' : Value → Value → Bool} (still : Undisturbed among h h') (lists : a.isList = true → b.isList = false)
    (maps : a.isMap = true → b.isMap = false) (levels : Nat) : h'.equalWithin same' levels a b = h.equalWithin same levels a b := by
  cases a with
  | null | int | double | funcRef => cases b <;> cases levels <;> rfl
  | short | str => cases b <;> simp only [Heap.equalWithin,still.sameText]
  | list =>
      cases b with
      | list => cases lists rfl
      | null | int | double | short | str | map | funcRef => cases levels <;> rfl
  | map =>
      cases b with
      | map => cases maps rfl
      | null | int | double | short | str | list | funcRef => cases levels <;> rfl

theorem equalLists {equal equal' : Value → Value → Bool} (still : Undisturbed among h h') (left : among (.list x)) (right : among (.list y))
    (agree : ∀ a b, among a → among b → equal' a b = equal a b) :
    (match h'.items? (.list x),h'.items? (.list y) with
      | some xs,some ys => xs.size == ys.size && allEqual equal' xs.toList ys.toList
      | _,_ => false) =
    match h.items? (.list x),h.items? (.list y) with
      | some xs,some ys => xs.size == ys.size && allEqual equal xs.toList ys.toList
      | _,_ => false := by
  rw [still.items,still.items]
  cases here : h.items? (.list x) with
  | none => rfl
  | some xs =>
      cases there : h.items? (.list y) with
      | none => rfl
      | some ys =>
          simp only
          rw [allEqual_agree fun a member b member' => agree a b (still.closed _ _ left (by rw [parts,here]; exact member))
            (still.closed _ _ right (by rw [parts,there]; exact member'))]

theorem equalMaps {same same' equal equal' : Value → Value → Bool} (still : Undisturbed among h h') (left : among (.map x))
    (right : among (.map y)) (keys : ∀ a b, among a → among b → same' a b = same a b)
    (agree : ∀ a b, among a → among b → equal' a b = equal a b) :
    (h'.mapCount (.map x) == h'.mapCount (.map y) && (h'.mapEntries (.map x)).all fun (key,value) =>
      match (h'.table? (.map y)).bind (h'.lookupWith same' · key) with
      | some other => equal' value other
      | none => false) =
    (h.mapCount (.map x) == h.mapCount (.map y) && (h.mapEntries (.map x)).all fun (key,value) =>
      match (h.table? (.map y)).bind (h.lookupWith same · key) with
      | some other => equal value other
      | none => false) := by
  rw [still.mapCount left,still.mapCount right,still.mapEntries left,still.tables _ right]
  refine congrArg _ ?_
  rw [Bool.eq_iff_iff,List.all_eq_true,List.all_eq_true]
  refine forall₂_congr fun entry member => ?_
  obtain ⟨key,value⟩ := entry
  obtain ⟨keyed,valued⟩ := part_entry member
  cases found : h.table? (.map y) with
  | none => rfl
  | some table =>
      obtain ⟨q,here,present⟩ := table?_object.mp found
      cases here
      simp only [Option.bind_some,still.lookupWith right present (still.closed _ _ left keyed) keys]
      cases result : h.lookupWith same table key with
      | none => rfl
      | some other =>
          obtain ⟨word,listed⟩ := lookupWith_listed present result
          simp only [agree value other (still.closed _ _ left valued) (still.closed _ _ right (part_entry listed).2)]

theorem equalWithin {same same' : Value → Value → Bool} (still : Undisturbed among h h')
    (agree : ∀ a b, among a → among b → same' a b = same a b) (levels : Nat) (left : among a) (right : among b) :
    h'.equalWithin same' levels a b = h.equalWithin same levels a b := by
  induction levels generalizing a b with
  | zero =>
      cases a with
      | list x =>
          cases b with
          | list y => simp only [Heap.equalWithin]
          | null | int | double | short | str | map | funcRef => exact still.equalPlainly (fun _ => rfl) (fun other => by cases other) 0
      | map x =>
          cases b with
          | map y => simp only [Heap.equalWithin]
          | null | int | double | short | str | list | funcRef => exact still.equalPlainly (fun other => by cases other) (fun _ => rfl) 0
      | null | int | double | short | str | funcRef => exact still.equalPlainly (fun other => by cases other) (fun other => by cases other) 0
  | succ levels ih =>
      cases a with
      | list x =>
          cases b with
          | list y =>
              simp only [Heap.equalWithin]
              exact congrArg _ (still.equalLists left right fun a b => ih)
          | null | int | double | short | str | map | funcRef => exact still.equalPlainly (fun _ => rfl) (fun other => by cases other) _
      | map x =>
          cases b with
          | map y =>
              simp only [Heap.equalWithin]
              exact congrArg _ (still.equalMaps left right agree fun a b => ih)
          | null | int | double | short | str | list | funcRef => exact still.equalPlainly (fun other => by cases other) (fun _ => rfl) _
      | null | int | double | short | str | funcRef => exact still.equalPlainly (fun other => by cases other) (fun other => by cases other) _

theorem sameKey (still : Undisturbed among h h') (left : among a) (right : among b) : h'.sameKey a b = h.sameKey a b := by
  have nested : ∀ n a b, among a → among b → h'.equalNested n a b = h.equalNested n a b := by
    intro n
    induction n with
    | zero => exact fun _ _ _ _ => rfl
    | succ n ih => exact fun a b left right => still.equalWithin ih maxDepth left right
  simp only [Heap.sameKey,Heap.equal,nested _ a b left right]

end Undisturbed

end Heap

end RegisterMachine
