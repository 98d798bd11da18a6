import RegisterMachine.Machine.Intrinsics
import RegisterMachine.Proofs.Heap.Safety

namespace RegisterMachine

-- A read gives what `post` says, or fails for another reason than a stale reference.
def Gives (read : Except Error α) (post : α → Prop) : Prop :=
  match read with
  | .ok a => post a
  | .error e => e ≠ .staleReference

theorem Gives.bind {read : Except Error α} {rest : α → Except Error β} {middle : α → Prop} {post : β → Prop}
    (gives : Gives read middle) (follows : ∀ a, middle a → Gives (rest a) post) : Gives (read >>= rest) post := by
  cases read with
  | ok a => exact follows a gives
  | error e => exact gives

theorem Gives.ok {read : Except Error α} {post : α → Prop} (gives : Gives read post) (result : read = .ok a) :
    post a := by
  rw [result] at gives
  exact gives

theorem Gives.error {read : Except Error α} {post : α → Prop} (gives : Gives read post) (result : read = .error e) :
    e ≠ .staleReference := by
  rw [result] at gives
  exact gives

theorem Gives.imp {read : Except Error α} {post post' : α → Prop} (gives : Gives read post) (weaker : ∀ a, post a → post' a) :
    Gives read post' := by
  cases read with
  | ok a => exact weaker a gives
  | error e => exact gives

theorem Value.ofInt_plain (i : Int) : (Value.ofInt i).handle? = none := by
  unfold ofInt
  split <;> rfl

theorem Value.number_plain (d : Double) : (Value.number d).handle? = none := by
  unfold number
  split
  · simp only
    generalize (if d.isNegative then -(d.wholePart : Int) else d.wholePart) = i
    split <;> rfl
  · rfl

theorem Value.shortText_plain (text : String) : (Value.shortText text).handle? = none := by
  unfold shortText
  split <;> rfl

theorem Heap.ofDegree_plain (degree : Double) : (Heap.ofDegree degree).handle? = none := by
  unfold Heap.ofDegree
  split
  · rfl
  · split <;> rfl

theorem Heap.toNumber_plain (h : Heap) (v : Value) : (h.toNumber v).handle? = none := by
  unfold toNumber
  split
  · rfl
  · rfl
  · split
    · exact Value.number_plain _
    · rfl
  · split
    · exact Value.number_plain _
    · rfl
  · rfl

namespace Heap

-- The aliases come before the cells, as they are listed.
theorem nthEntry?_entries (h : Heap) (v : Value) (n : Nat) : h.nthEntry? v n = (h.mapEntries v)[n]? := by
  unfold nthEntry? mapEntries
  cases h.table? v with
  | none => rfl
  | some table =>
      simp only
      split
      · rename_i aliased
        rw [List.getElem?_append_left aliased]
      · rename_i beyond
        rw [List.getElem?_append_right (Nat.le_of_not_lt beyond)]

structure Closed (h : Heap) (P : Value → Prop) : Prop where
  plain : ∀ v, v.handle? = none → P v
  root : ∀ v, h.IsRoot v → P v
  inside : ∀ v r object w, P v → v.handle? = some r → h.object? r = some object → object.Refers w → P w

theorem Safe.closed_sound {h : Heap} (safe : h.Safe) : h.Closed h.Sound where
  plain := fun _ plain => sound_plain h plain
  root := safe.rooted
  inside := fun _ r object w _ _ present refers => safe.closed r object w present refers

theorem Safe.closed_kept {h : Heap} (safe : h.Safe) : h.Closed h.Kept where
  plain := fun _ plain => kept_plain h plain
  root := fun _ root => safe.root_kept root
  inside := fun _ r _ _ kept handle present refers => safe.refers_kept (kept.2 r handle) present refers

section

variable {h : Heap} {P : Value → Prop}

namespace Closed

theorem null (closed : h.Closed P) : P .null := closed.plain _ rfl

theorem registerValue (closed : h.Closed P) (i : Nat) : P (h.registerValue i) := by
  unfold Heap.registerValue
  rw [Array.getD_eq_getD_getElem?]
  cases found : h.registers[i]? with
  | none => exact closed.null
  | some register => exact closed.root _ (.register (Array.mem_of_getElem? found))

theorem registerName (closed : h.Closed P) (i : Nat) : P (h.registerName i) := by
  unfold Heap.registerName
  rw [Array.getD_eq_getD_getElem?]
  cases found : h.registers[i]? with
  | none => exact closed.null
  | some register => exact closed.root _ (.name (Array.mem_of_getElem? found))

theorem assigned? (closed : h.Closed P) (found : h.assigned? i = some v) : P v := by
  unfold Heap.assigned? at found
  split at found
  · rename_i register present
    split at found
    · cases found
    · cases found
      exact closed.root _ (.register (Array.mem_of_getElem? present))
  · cases found

theorem persistent (closed : h.Closed P) (id : Nat) : P (h.root id) := by
  unfold Heap.root
  rw [Array.getD_eq_getD_getElem?]
  cases found : h.roots[id]? with
  | none => exact closed.null
  | some place =>
      cases place with
      | none => exact closed.null
      | some v => exact closed.root _ (.persistent (Array.mem_of_getElem? found))

theorem items {listed : Array Value} (closed : h.Closed P) (holds : P v) (found : h.items? v = some listed) :
    ∀ item ∈ listed, P item := by
  intro item member
  obtain ⟨list,listed,rfl⟩ := Option.map_eq_some_iff.mp found
  unfold list? at listed
  split at listed
  · split at listed
    · rename_i r _ other present
      cases listed
      exact closed.inside _ r _ item holds rfl present (.item member)
    · cases listed
  · cases listed

theorem outer (closed : h.Closed P) (holds : P v) (found : h.funcRef? v = some f) : P f.outer := by
  unfold funcRef? at found
  split at found
  · split at found
    · rename_i r _ other present
      cases found
      exact closed.inside _ r _ _ holds rfl present .outer
    · cases found
  · cases found

theorem listGet (closed : h.Closed P) (holds : P v) (index : Int32) : Gives (h.listGet v index) P := by
  refine Gives.bind (show Gives (h.expectItems v) fun items => h.items? v = some items from ?_) fun items listed => ?_
  · unfold Gives expectItems
    cases h.items? v with
    | some items => exact rfl
    | none => exact Error.noConfusion
  · split
    · rename_i item resolved
      obtain ⟨i,_,present⟩ := Option.bind_eq_some_iff.mp resolved
      exact closed.items holds listed _ (Array.mem_of_getElem? present)
    · exact Error.noConfusion

theorem entries (closed : h.Closed P) (holds : P v) (listed : (key,value) ∈ h.mapEntries v) : P key ∧ P value := by
  unfold mapEntries at listed
  split at listed
  · rename_i table found
    obtain ⟨r,rfl,present⟩ := table?_object.mp found
    rcases List.mem_append.mp listed with aliased | stored
    · unfold aliasEntries at aliased
      split at aliased
      · rename_i aliases bound
        obtain ⟨⟨name,register⟩,binding,assigned⟩ := List.mem_filterMap.mp aliased
        obtain ⟨other,taken,same⟩ := Option.map_eq_some_iff.mp assigned
        cases same
        refine ⟨closed.inside _ r _ key holds rfl present ?_,closed.assigned? taken⟩
        exact .aliased bound (Array.mem_toList_iff.mp binding)
      · cases aliased
    · obtain ⟨entry,member,same⟩ := List.mem_map.mp stored
      cases same
      have cell := Table.mem_entries.mp member
      exact ⟨closed.inside _ r _ _ holds rfl present (.key cell),closed.inside _ r _ _ holds rfl present (.value cell)⟩
  · cases listed

theorem nthEntry? (closed : h.Closed P) (holds : P v) (found : h.nthEntry? v n = some (key,value)) : P key ∧ P value := by
  rw [nthEntry?_entries] at found
  exact closed.entries holds (List.mem_of_getElem? found)

theorem lookupWith {table : Table} {sameKey : Value → Value → Bool} (closed : h.Closed P) (holds : P (.map r))
    (present : h.object? r = some (.map table)) (looked : h.lookupWith sameKey table key = some value) : P value := by
  unfold Heap.lookupWith at looked
  split at looked
  · exact closed.assigned? looked
  · split at looked
    · cases looked
    · obtain ⟨i,_,cell⟩ := Option.bind_eq_some_iff.mp looked
      obtain ⟨entry,held,rfl⟩ := Option.map_eq_some_iff.mp cell
      exact closed.inside _ r _ _ holds rfl present (.value (Table.mem_entries.mp (Table.mem_contents.mpr ⟨i,held⟩)))

theorem lookup? (closed : h.Closed P) (holds : P v) (found : h.lookup? v key = some value) : P value := by
  obtain ⟨table,content,looked⟩ := Option.bind_eq_some_iff.mp found
  obtain ⟨r,rfl,present⟩ := table?_object.mp content
  exact closed.lookupWith holds present looked

theorem lookup (closed : h.Closed P) (holds : P v) (key : Value) : P (h.lookup v key) := by
  unfold Heap.lookup
  cases found : h.lookup? v key with
  | none => exact closed.null
  | some value => exact closed.lookup? holds found

theorem lookupAlong (closed : h.Closed P) (holds : P v) (found : h.lookupAlong key steps v = some (value,parent)) :
    P value ∧ P parent := by
  induction steps generalizing v with
  | zero => cases found
  | succ steps ih =>
      unfold Heap.lookupAlong at found
      split at found
      · rename_i bound
        cases found
        exact ⟨closed.lookup? holds bound,closed.lookup holds _⟩
      · split at found
        · rename_i inherited
          split at found
          · exact ih (closed.lookup? holds inherited) found
          · cases found
        · cases found

theorem lookupInherited? (closed : h.Closed P) (holds : P v) (found : h.lookupInherited? v key = some value) :
    P value := by
  obtain ⟨⟨_,parent⟩,along,rfl⟩ := Option.map_eq_some_iff.mp found
  exact (closed.lookupAlong holds along).1

theorem indexIn (closed : h.Closed P) (holds : P v) (item : Value) : Gives (h.indexIn v item) P := by
  have place : ∀ found : Option Nat, P ((found.map Value.ofNat).getD .null) := by
    intro found
    cases found with
    | none => exact closed.null
    | some i => exact closed.plain _ rfl
  unfold Heap.indexIn
  split
  · exact place _
  · exact place _
  · exact place _
  · show P (Option.getD _ .null)
    cases first : (h.mapEntries _).find? fun entry => h.equal entry.2 item with
    | none => exact closed.null
    | some entry => exact (closed.entries holds (List.mem_of_find?_eq_some first)).1
  · exact Error.noConfusion

end Closed

end

theorem stringCharAt_gives (h : Heap) (v : Value) (index : Int32) :
    Gives (h.stringCharAt v index) fun c => c.handle? = none := by
  unfold stringCharAt
  simp only
  split
  · exact Error.noConfusion
  · refine Gives.bind (show Gives (h.expectText v) fun _ => True from ?_) fun text _ => ?_
    · unfold Gives expectText
      cases h.text? v with
      | some text => exact trivial
      | none => exact Error.noConfusion
    · split
      · exact Value.shortText_plain _
      · exact Error.noConfusion

end Heap

end RegisterMachine
