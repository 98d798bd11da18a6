import RegisterMachine.Proofs.Map.Equality

namespace RegisterMachine.Heap

theorem Course.evolves (course : Course named written loose h h') (intact : h.Intact) : Evolves written h h' := by
  cases course with
  | apart apart => exact (Altered.slots apart.slots apart.history).evolves
  | deeds deeds => exact deeds.evolves intact
  | aliasMap deeds => exact (deeds.evolves intact).trans (allocated_altered (deeds.intact intact) _).evolves

-- The history of a map, with the finite map that it has come to: made of some capacity, then set and
-- removed from under keys that are no containers. Between these there are any calls that do not write the
-- map and do not free it.
inductive Built (r : Handle) : Heap → (Key → Option Value) → Prop where
  | new {capacity : Table.Wanted} : Reachable h → newMap capacity h = .ok (.map r) h' → Built r h' fun _ => none
  | set : Built r h m → h.keyOf key = some k → mapSet (.map r) key value h = .ok () h' →
      Built r h' (Function.update m k (some value))
  | remove : Built r h m → h.keyOf key = some k → mapRemove (.map r) key h = .ok removed h' →
      Built r h' (Function.update m k none)
  | call (call : Call) : Built r h m → ¬ call.Writes r → ¬ Freed h (call.run h) r → Built r (call.run h) m

theorem Built.reachable (built : Built r h m) : Reachable h := by
  induction built with
  | @new h h' capacity before made =>
      have next := Reachable.call (.newMap capacity) before
      rwa [Call.run,after,made] at next
  | @set h m key k value h' _ _ done before =>
      have next := Reachable.call (.mapSet (.map r) key value) before
      rwa [Call.run,after,done] at next
  | @remove h m key k removed h' _ _ done before =>
      have next := Reachable.call (.mapRemove (.map r) key) before
      rwa [Call.run,after,done] at next
  | call call _ _ _ before => exact .call call before

theorem accepted_unless {result : Except Error Handle} (refused : ∀ e, result ≠ .error e) : ∃ r, result = .ok r := by
  cases result with
  | ok r => exact ⟨r,rfl⟩
  | error e => exact absurd rfl (refused e)

theorem accepted_ok {result : Except Error Handle} (accepted : result.isOk = true) : ∃ r, result = .ok r :=
  accepted_unless fun e refused => by
    rw [refused] at accepted
    cases accepted

theorem mapSet_accepted (done : mapSet v key value h = .ok () h') : ∃ r, h.writableMap v = .ok r :=
  accepted_unless fun e refused => by
    simp only [mapSet,refused] at done
    cases done

theorem mapRemove_accepted (done : mapRemove v key h = .ok removed h') : ∃ r, h.writableMap v = .ok r :=
  accepted_unless fun e refused => by
    simp only [mapRemove,refused] at done
    cases done

theorem Holding.models (holding : Holding h r table m) (plain : table.aliases = none) (accepted : ∃ q, h.writableMap (.map r) = .ok q) :
    Models h r table m := by
  obtain ⟨q,accepted⟩ := accepted
  obtain ⟨same,other,present,writable⟩ := writableMap_parts accepted
  cases same
  cases holding.object.symm.trans present
  exact ⟨holding.tabled writable,plain⟩

theorem Holding.preserved (holding : Holding h r table m) (preserved : Preserved h h' r table) :
    ∃ frozen, Holding h' r { table with frozen } m := by
  obtain ⟨frozen,object⟩ := preserved.object
  refine ⟨frozen,object,holding.valid.of_same rfl rfl,holding.lists.carry fun entry member => ?_⟩
  obtain ⟨k,known⟩ := Option.isSome_iff_exists.mp (holding.lists.keyed entry member).1
  exact (preserved.keyOf member known).trans known.symm

-- By induction on the history.
theorem Built.holds (built : Built r h m) : ∃ table, Holding h r table m ∧ table.aliases = none := by
  induction built with
  | new before made =>
      obtain ⟨q,same,models⟩ := newMap_models before.intact made
      cases same
      exact ⟨_,models.holding,models.plain⟩
  | @set h m key k value h' _ known done ih =>
      obtain ⟨table,holding,plain⟩ := ih
      have models := holding.models plain (mapSet_accepted done)
      obtain ⟨_,_,_,_,after⟩ := models.stored known value
      cases (models.mapSet key value).symm.trans done
      exact ⟨_,after.holding,after.plain⟩
  | @remove h m key k removed h' _ known done ih =>
      obtain ⟨table,holding,plain⟩ := ih
      obtain ⟨s,table',result,after,_⟩ := (holding.models plain (mapRemove_accepted done)).removed known
      cases result.symm.trans done
      exact ⟨table',after.holding,after.plain⟩
  | @call h m call built spares stays ih =>
      obtain ⟨table,holding,plain⟩ := ih
      have course : Course (fun _ => True) call.Writes (fun _ => True) h (call.run h) := call.runs h (fun _ => id) fun _ _ => trivial
      rcases (course.evolves built.reachable.intact).tables r table holding.object plain spares with freed | preserved
      · exact absurd freed stays
      · obtain ⟨frozen,later⟩ := holding.preserved preserved
        exact ⟨_,later,plain⟩

theorem Built.answers (built : Built r h m) : Answers h (.map r) m := by
  obtain ⟨table,holding,plain⟩ := built.holds
  exact holding.lists.answers holding.object holding.valid plain

theorem Built.making (capacity : Table.Wanted) (reachable : Reachable h) (made : (match newMap capacity h with
    | .ok v _ => v == .map r
    | .error _ _ => false) = true) : Built r ((Call.newMap capacity).run h) fun _ => none := by
  cases done : newMap capacity h with
  | error e h' =>
      rw [done] at made
      cases made
  | ok v h' =>
      rw [done] at made
      cases eq_of_beq made
      have next := Built.new reachable done
      rwa [Call.run,after,done]

theorem Built.setting (built : Built r h m) (known : h.keyOf key = some k) (value : Value) (accepted : (h.writableMap (.map r)).isOk = true) :
    Built r ((Call.mapSet (.map r) key value).run h) (Function.update m k (some value)) := by
  obtain ⟨table,holding,plain⟩ := built.holds
  have done := (holding.models plain (accepted_ok accepted)).mapSet key value
  have next := Built.set built known done
  rwa [Call.run,after,done]

theorem Built.removing (built : Built r h m) (known : h.keyOf key = some k) (accepted : (h.writableMap (.map r)).isOk = true) :
    Built r ((Call.mapRemove (.map r) key).run h) (Function.update m k none) := by
  obtain ⟨table,holding,plain⟩ := built.holds
  obtain ⟨_,_,done,_⟩ := (holding.models plain (accepted_ok accepted)).removed known
  have next := Built.remove built known done
  rwa [Call.run,after,done]

theorem Reachable.evolves (calls : List Call) (reachable : Reachable h) : Evolves (fun _ => True) h (calls.foldl Call.run h) := by
  induction calls generalizing h with
  | nil => exact .refl h
  | cons call rest ih =>
      have course : Course (fun _ => True) (fun _ => True) (fun _ => True) h (call.run h) := call.runs h (fun _ _ => trivial) fun _ _ => trivial
      exact (course.evolves reachable.intact).trans (ih (.call call reachable))

theorem not_freed (quiet : h'.history.size = h.history.size) : ¬ Freed h h' r := by
  rintro ⟨k,slot,positive,counted,_⟩
  omega

theorem Built.calls (calls : List Call) (built : Built r h m) (spares : ∀ call ∈ calls, ¬ call.Writes r)
    (stays : ¬ Freed h (calls.foldl Call.run h) r) : Built r (calls.foldl Call.run h) m := by
  induction calls generalizing h with
  | nil => exact built
  | cons call rest ih =>
      have now := built.reachable.evolves [call]
      have later := (Reachable.call call built.reachable).evolves rest
      have first := built.call call (spares call List.mem_cons_self) fun freed => stays (freed.later later)
      exact ih first (fun other member => spares other (List.mem_cons_of_mem _ member)) fun freed => stays (freed.earlier now)

-- Values with so many levels of containers at most: none of them NaN, the strings there, and every map
-- with a history.
inductive Layered (h : Heap) : Nat → Value → Prop where
  | keyed : h.keyOf v = some k → (∀ d, v = .double d → d.isNaN = false) → Layered h levels v
  | list {list : ListObject} : h.object? r = some (.list list) → (∀ item ∈ list.items, Layered h levels item) →
      Layered h (levels + 1) (.list r)
  | map : Built r h m → (∀ k v, m k = some v → Layered h levels v) → Layered h (levels + 1) (.map r)

theorem holds_update {m : Key → Option Value} {p : Value → Prop} (each : ∀ k v, m k = some v → p v)
    {value : Option Value} (here : ∀ v, value = some v → p v) : ∀ l v, Function.update m k value l = some v → p v := by
  intro l v bound
  by_cases same : l = k
  · rw [same,Function.update_self] at bound
    exact here v bound
  · rw [Function.update_of_ne same] at bound
    exact each l v bound

theorem holds_set {m : Key → Option Value} {p : Value → Prop} (each : ∀ k v, m k = some v → p v) (here : p value) :
    ∀ l v, Function.update m k (some value) l = some v → p v :=
  holds_update each fun _ same => Option.some.inj same ▸ here

theorem holds_removed {m : Key → Option Value} {p : Value → Prop} (each : ∀ k v, m k = some v → p v) :
    ∀ l v, Function.update m k none l = some v → p v :=
  holds_update each fun _ impossible => by cases impossible

theorem Layered.matches {sameKey : Value → Value → Bool} (plain : h.Plain sameKey) (left : Layered h deep x) (right : Layered h other y)
    (within_ : deep ≤ levels) (deeper : deep ≤ levels') (equal : h.equalWithin sameKey levels x y = true) : Matches h levels' x y := by
  induction left generalizing y other levels levels' with
  | keyed ka number =>
      obtain ⟨sameList,sameMap⟩ := equalWithin_kinds equal
      obtain ⟨list,map⟩ := keyOf_scalar ka
      cases right with
      | keyed kb =>
          rw [equalWithin_scalar (sameList ▸ list) (sameMap ▸ map)] at equal
          exact .keyed ka ((equal_keyOf ka kb number).mp equal ▸ kb)
      | list => cases sameList.symm.trans list
      | map => cases sameMap.symm.trans map
  | @list r fewer xs hx items ih =>
      obtain ⟨sameList,_⟩ := equalWithin_kinds equal
      cases right with
      | keyed kb => cases sameList.trans (keyOf_scalar kb).1
      | map => cases sameList
      | list hy items' =>
          obtain ⟨levels,rfl⟩ := Nat.exists_eq_succ_of_ne_zero (Nat.ne_zero_of_lt within_)
          obtain ⟨levels',rfl⟩ := Nat.exists_eq_succ_of_ne_zero (Nat.ne_zero_of_lt deeper)
          rcases (equalWithin_lists hx hy).mp equal with rfl | ⟨size,each⟩
          · exact .sameList
          · refine .lists hx hy size fun i a b atA atB => ?_
            exact ih a (Array.mem_of_getElem? atA) (items' b (Array.mem_of_getElem? atB)) (Nat.le_of_succ_le_succ within_)
              (Nat.le_of_succ_le_succ deeper) (each i a b atA atB)
  | @map r m fewer built values ih =>
      obtain ⟨_,sameMap⟩ := equalWithin_kinds equal
      cases right with
      | keyed kb => cases sameMap.trans (keyOf_scalar kb).2
      | list => cases sameMap
      | map built' values' =>
          obtain ⟨levels,rfl⟩ := Nat.exists_eq_succ_of_ne_zero (Nat.ne_zero_of_lt within_)
          obtain ⟨levels',rfl⟩ := Nat.exists_eq_succ_of_ne_zero (Nat.ne_zero_of_lt deeper)
          rcases (equalWithin_maps built.answers built'.answers plain).mp equal with rfl | ⟨domain,each⟩
          · exact .sameMap
          · refine .maps built.answers built'.answers domain fun k a b atA atB => ?_
            exact ih k a atA (values' k b atB) (Nat.le_of_succ_le_succ within_) (Nat.le_of_succ_le_succ deeper) (each k a b atA atB)

-- And what matches a layered value equals it: only NaN differs from itself.
theorem Matches.equal_layered {sameKey : Value → Value → Bool} (plain : h.Plain sameKey) (matches_ : Matches h levels x y)
    (left : Layered h deep x) : h.equalWithin sameKey levels x y = true := by
  induction matches_ generalizing deep with
  | keyed ka kb =>
      obtain ⟨list,map⟩ := keyOf_scalar kb
      rw [equalWithin_scalar list map]
      cases left with
      | keyed _ number => exact (equal_keyOf ka kb number).mpr rfl
      | list | map => cases ka
  | @sameList levels => cases levels <;> simp [equalWithin]
  | @sameMap levels => cases levels <;> simp [equalWithin]
  | lists hx hy size _ ih =>
      cases left with
      | keyed ka => cases ka
      | list hx' items =>
          cases hx.symm.trans hx'
          exact (equalWithin_lists hx hy).mpr (Or.inr ⟨size,fun i a b atA atB => ih i a b atA atB (items a (Array.mem_of_getElem? atA))⟩)
  | maps hx hy domain _ ih =>
      cases left with
      | keyed ka => cases ka
      | map built values =>
          cases hx.entries.unique built.answers.entries
          exact (equalWithin_maps hx hy plain).mpr (Or.inr ⟨domain,fun k a b atA atB => ih k a b atA atB (values k a atA)⟩)

-- Maps that have come to finite maps with the same keys and equal values are equal, in both directions, and
-- have one hash, whatever their histories.
theorem built_equal (left : Built a h m) (right : Built b h n) (leftLayers : ∀ k v, m k = some v → Layered h 15 v)
    (rightLayers : ∀ k v, n k = some v → Layered h 15 v) (domain : ∀ k, (m k).isSome = (n k).isSome)
    (values : ∀ k v w, m k = some v → n k = some w → h.equal v w = true) :
    h.equal (.map a) (.map b) = true ∧ h.equal (.map b) (.map a) = true ∧ h.hash (.map a) = h.hash (.map b) := by
  have plain : h.Plain (h.equalNested keyNesting) := fun w v list map => equalWithin_scalar list map maxDepth
  have each : ∀ k v w, m k = some v → n k = some w → Matches h 15 v w := by
    intro k v w here there
    have equal : h.equalWithin (h.equalNested keyNesting) maxDepth v w = true := values k v w here there
    exact (leftLayers k v here).matches plain (rightLayers k w there) (by decide) (Nat.le_refl 15) equal
  have whole : Matches h maxDepth (.map a) (.map b) := .maps left.answers right.answers domain each
  exact ⟨whole.equal_layered plain (.map left leftLayers),whole.symm.equal_layered plain (.map right rightLayers),whole.hash⟩

-- Two maps of other capacities, whose values are maps again. The second was set in another order, and under
-- one more key that was removed; the two list their entries in different orders.
theorem built_equal_reordered : ∃ h m n, Built ⟨2,0⟩ h m ∧ Built ⟨3,0⟩ h n ∧
    h.mapEntries (.map ⟨2,0⟩) = [(.int 1,.map ⟨0,0⟩),(.int 4,.int 5)] ∧
    h.mapEntries (.map ⟨3,0⟩) = [(.int 4,.int 5),(.int 1,.map ⟨1,0⟩)] ∧ h.equal (.map ⟨2,0⟩) (.map ⟨3,0⟩) = true ∧
    h.equal (.map ⟨3,0⟩) (.map ⟨2,0⟩) = true ∧ h.hash (.map ⟨2,0⟩) = h.hash (.map ⟨3,0⟩) := by
  let nested : List Call := [.newMap 0,.mapSet (.map ⟨1,0⟩) (.shortText "k") (.double (.ofInt 7))]
  let former : List Call := [.newMap 4,.mapSet (.map ⟨2,0⟩) (.int 1) (.map ⟨0,0⟩),.mapSet (.map ⟨2,0⟩) (.int 4) (.int 5)]
  let latter : List Call := [.newMap 32,.mapSet (.map ⟨3,0⟩) (.int 3) .null,.mapSet (.map ⟨3,0⟩) (.int 4) (.int 5),
    .mapSet (.map ⟨3,0⟩) (.int 1) (.map ⟨1,0⟩),.mapRemove (.map ⟨3,0⟩) (.int 3)]
  have text : ∀ h : Heap, h.keyOf (.shortText "k") = some (.text "k") := fun _ => rfl
  have number : ∀ (h : Heap) i, h.keyOf (.int i) = some (Key.ofDouble (.ofInt i.toInt)) := fun _ _ => rfl
  have x₀ : Built ⟨0,0⟩ _ _ := .making 4 (.new {}) (by decide +kernel)
  have x₁ := x₀.setting (text _) (.int 7) (by decide +kernel)
  have y₀ : Built ⟨1,0⟩ _ _ := .making 0 x₁.reachable (by decide +kernel)
  have y₁ := y₀.setting (text _) (.double (.ofInt 7)) (by decide +kernel)
  have a₀ : Built ⟨2,0⟩ _ _ := .making 4 y₁.reachable (by decide +kernel)
  have a₁ := a₀.setting (number _ 1) (.map ⟨0,0⟩) (by decide +kernel)
  have a₂ := a₁.setting (number _ 4) (.int 5) (by decide +kernel)
  have b₀ : Built ⟨3,0⟩ _ _ := .making 32 a₂.reachable (by decide +kernel)
  have b₁ := b₀.setting (number _ 3) .null (by decide +kernel)
  have b₂ := b₁.setting (number _ 4) (.int 5) (by decide +kernel)
  have b₃ := b₂.setting (number _ 1) (.map ⟨1,0⟩) (by decide +kernel)
  have b := b₃.removing (number _ 3) (by decide +kernel)
  have x := x₁.calls (nested ++ former ++ latter) (by simp [nested,former,latter,Call.Writes]) (not_freed (by decide +kernel))
  have y := y₁.calls (former ++ latter) (by simp [former,latter,Call.Writes]) (not_freed (by decide +kernel))
  have a := a₂.calls latter (by simp [latter,Call.Writes]) (not_freed (by decide +kernel))
  simp only [nested,former,latter,List.cons_append,List.nil_append,List.foldl_cons,List.foldl_nil] at x y a
  generalize whole : Call.run _ (.mapRemove (.map ⟨3,0⟩) (.int 3)) = h at x y a b
  have facts : h.mapEntries (.map ⟨2,0⟩) = [(.int 1,.map ⟨0,0⟩),(.int 4,.int 5)] ∧
      h.mapEntries (.map ⟨3,0⟩) = [(.int 4,.int 5),(.int 1,.map ⟨1,0⟩)] ∧ h.equal (.map ⟨0,0⟩) (.map ⟨1,0⟩) = true ∧
      h.equal (.int 5) (.int 5) = true := by
    rw [← whole]
    decide +kernel
  obtain ⟨left,right,equal,same⟩ := facts
  have apart : Key.ofDouble (.ofInt (3 : Int32).toInt) ≠ Key.ofDouble (.ofInt (1 : Int32).toInt) ∧
      Key.ofDouble (.ofInt (3 : Int32).toInt) ≠ Key.ofDouble (.ofInt (4 : Int32).toInt) ∧
      Key.ofDouble (.ofInt (1 : Int32).toInt) ≠ Key.ofDouble (.ofInt (4 : Int32).toInt) := by decide +kernel
  generalize Key.ofDouble (.ofInt (1 : Int32).toInt) = one,Key.ofDouble (.ofInt (3 : Int32).toInt) = three,
    Key.ofDouble (.ofInt (4 : Int32).toInt) = four at a b apart
  have int : ∀ i levels, Layered h levels (.int i) := fun i _ => .keyed rfl fun d impossible => by cases impossible
  have seven : Layered h 14 (.double (.ofInt 7)) := .keyed rfl fun d same => by cases same; decide +kernel
  have null : Layered h 15 .null := .keyed rfl fun d impossible => by cases impossible
  have blank : ∀ levels (k : Key) v, (fun _ => none) k = some v → Layered h levels v := fun _ _ _ impossible => by cases impossible
  refine ⟨h,_,_,a,b,left,right,built_equal a b ?_ ?_ ?_ ?_⟩
  · exact holds_set (holds_set (blank 15) (.map x (holds_set (blank 14) (int 7 14)))) (int 5 15)
  · exact holds_removed (holds_set (holds_set (holds_set (blank 15) null) (int 5 15)) (.map y (holds_set (blank 14) seven)))
  · intro k
    simp only [Function.update_apply]
    split_ifs <;> simp_all
  · intro k v w here there
    simp only [Function.update_apply] at here there
    split_ifs at here there <;> simp_all

end RegisterMachine.Heap
