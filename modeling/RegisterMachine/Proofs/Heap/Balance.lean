import RegisterMachine.Proofs.Heap.Grounds
import RegisterMachine.Proofs.Heap.Reachable

namespace RegisterMachine.Heap

theorem newString_tends (text : String) : Tends level (newString text) := by
  unfold newString
  split
  · exact .pure _
  · split
    · exact interning_tends text
    · rename_i long
      exact (allocate_tends (sane_str (Nat.le_of_not_lt long))).map _

theorem newFuncRef_tends (function : Nat) (outer : Value) : Tends level (newFuncRef function outer) :=
  (allocate_tends (sane_funcRef _)).map _

theorem newListOf_tends (items : Array Value) (capacity : Nat) : Tends level (newListOf items capacity) :=
  (allocate_tends (sane_list _)).map _

theorem newMap_tends (capacity : Nat) : Tends level (newMap capacity) :=
  (allocate_tends (sane_map (Table.withCapacity_valid capacity))).map _

theorem newAliasMap_tends (first count : Nat) : Tends level (newAliasMap first count) := by
  intro h
  rw [after_newAliasMap]
  exact allocate_tends (sane_aliasTable _) h

theorem updateList_abides (v : Value) (change : ListObject → ListObject) (h : Heap) : Abides h (after (updateList v change) h) := by
  simp only [after,updateList]
  cases h.writableList v with
  | error e => exact .refl h
  | ok r =>
      simp only
      split
      · exact modifyObject_abides h r _
      · exact (modifyObject_abides h r _).trans (recharge_abides _ r)

theorem updateList_tends (v : Value) (change : ListObject → ListObject) : Tends level (updateList v change) :=
  .edit (updateList_acts v change) (updateList_abides v change)

theorem listSet_abides (v : Value) (index : Int32) (item : Value) (h : Heap) : Abides h (after (listSet v index item) h) := by
  simp only [after,listSet]
  cases h.writableList v with
  | error e => exact .refl h
  | ok r =>
      simp only
      cases resolve? index (h.listCount v) with
      | none => exact .refl h
      | some i => exact modifyObject_abides h r _

theorem listSet_tends (v : Value) (index : Int32) (item : Value) : Tends level (listSet v index item) :=
  .edit (listSet_acts v index item) (listSet_abides v index item)

theorem listPop_abides (v : Value) (h : Heap) : Abides h (after (listPop v) h) := by
  simp only [after,listPop]
  cases h.writableList v with
  | error e => exact .refl h
  | ok r => exact modifyObject_abides h r _

theorem listPop_tends (v : Value) : Tends level (listPop v) := .edit (listPop_acts v) (listPop_abides v)

theorem listPull_abides (v : Value) (h : Heap) : Abides h (after (listPull v) h) := by
  simp only [after,listPull]
  cases h.writableList v with
  | error e => exact .refl h
  | ok r => exact modifyObject_abides h r _

theorem listPull_tends (v : Value) : Tends level (listPull v) := .edit (listPull_acts v) (listPull_abides v)

theorem listInsert_abides (v : Value) (index : Int32) (item : Value) (h : Heap) : Abides h (after (listInsert v index item) h) := by
  simp only [after,listInsert]
  generalize (if index.toInt < 0 then index.toInt + h.listCount v + 1 else index.toInt) = i
  by_cases outside : i < 0 ∨ i > h.listCount v
  · simp only [if_pos outside]
    cases h.listHandle v with
    | error e => exact .refl h
    | ok r => exact .refl h
  · simp only [if_neg outside]
    exact updateList_abides v (·.insertAt i.toNat item) h

theorem listInsert_tends (v : Value) (index : Int32) (item : Value) : Tends level (listInsert v index item) :=
  .edit (listInsert_acts v index item) (listInsert_abides v index item)

theorem listRemove_abides (v : Value) (index : Int32) (h : Heap) : Abides h (after (listRemove v index) h) := by
  simp only [after,listRemove]
  cases h.writableList v with
  | error e => exact .refl h
  | ok r =>
      simp only
      cases resolve? index (h.listCount v) with
      | none => exact .refl h
      | some i => exact modifyObject_abides h r _

theorem listRemove_tends (v : Value) (index : Int32) : Tends level (listRemove v index) :=
  .edit (listRemove_acts v index) (listRemove_abides v index)

theorem listSort_abides (v byKey : Value) (h : Heap) : Abides h (after (listSort v byKey) h) := by
  simp only [after,listSort]
  cases h.writableList v with
  | error e => exact .refl h
  | ok r =>
      cases byKey.isNull with
      | true => exact modifyObject_abides h r _
      | false => exact (modifyObject_abides h r _).trans (modifyObject_abides _ r _)

theorem listSort_tends (v byKey : Value) : Tends level (listSort v byKey) :=
  .edit (listSort_acts fun _ _ _ => trivial) (listSort_abides v byKey)

theorem listSlice_tends (v : Value) (start stop : Int32) : Tends level (listSlice v start stop) := by
  intro h
  simp only [after,listSlice]
  cases h.expectItems v with
  | error e => exact .refl h
  | ok items => exact newListOf_tends _ _ h

theorem listConcat_tends (a b : Value) : Tends level (listConcat a b) := by
  intro h
  simp only [after,listConcat]
  cases h.expectItems a with
  | error e => exact .refl h
  | ok items => exact newListOf_tends _ _ h

theorem listCopy_tends (v : Value) : Tends level (listCopy v) := by
  intro h
  simp only [after,listCopy]
  cases h.expectItems v with
  | error e => exact .refl h
  | ok items => exact newListOf_tends _ _ h

theorem store_abides (h : Heap) (r : Handle) (key value : Value) : Abides h (h.store r key value) := by
  unfold store
  simp only
  split
  · exact modifyObject_abides h r _
  · split
    · exact (modifyObject_abides h r _).trans (recharge_abides _ r)
    · exact modifyObject_abides h r _

theorem storeAll_abides (h : Heap) (r : Handle) (entries : List (Value × Value)) : Abides h (h.storeAll r entries) := by
  induction entries generalizing h with
  | nil => exact .refl h
  | cons entry rest ih => exact (store_abides h r entry.1 entry.2).trans (ih _)

theorem storeAll_tended (h : Heap) (r : Handle) (entries : List (Value × Value)) : Tended level h (h.storeAll r entries) := by
  induction entries generalizing h with
  | nil => exact .refl h
  | cons entry rest ih =>
      have stored : Tended level h (h.store r entry.1 entry.2) :=
        (store_abides h r entry.1 entry.2).tended (store_steps h r entry.1 entry.2).intact
      exact stored.trans (ih _)

theorem unassignAll_abides (registers : List Nat) (h : Heap) : Abides h (registers.foldl unassign h) := by
  induction registers generalizing h with
  | nil => exact .refl h
  | cons register rest ih => exact (registers_abides h _).trans (ih _)

theorem mapSet_abides (v key value : Value) (h : Heap) : Abides h (after (mapSet v key value) h) := by
  simp only [after,mapSet]
  cases h.writableMap v with
  | error e => exact .refl h
  | ok r =>
      simp only
      cases h.aliasOf? v key with
      | some register => exact registers_abides h _
      | none => exact store_abides h r key value

theorem mapSet_tends (v key value : Value) : Tends level (mapSet v key value) :=
  .edit (mapSet_acts value (Value.named_all key) fun _ _ => trivial) (mapSet_abides v key value)

theorem mapRemove_abides (v key : Value) (h : Heap) : Abides h (after (mapRemove v key) h) := by
  simp only [after,mapRemove]
  cases h.writableMap v with
  | error e => exact .refl h
  | ok r =>
      simp only
      cases h.aliasOf? v key with
      | some register => exact registers_abides h _
      | none =>
          simp only
          cases h.findCell? v (h.hash key) key with
          | none => exact .refl h
          | some i => exact modifyObject_abides h r _

theorem mapRemove_tends (v key : Value) : Tends level (mapRemove v key) :=
  .edit (mapRemove_acts key fun _ _ => trivial) (mapRemove_abides v key)

theorem mapClear_abides (v : Value) (h : Heap) : Abides h (after (mapClear v) h) := by
  simp only [after,mapClear]
  cases h.writableMap v with
  | error e => exact .refl h
  | ok r => exact (unassignAll_abides _ h).trans (modifyObject_abides _ r _)

theorem mapClear_tends (v : Value) : Tends level (mapClear v) :=
  .edit (mapClear_acts fun _ _ => trivial) (mapClear_abides v)

theorem mapKeys_tends (v : Value) : Tends level (mapKeys v) := by
  intro h
  rw [after_mapKeys]
  exact newListOf_tends _ _ h

theorem mapValues_tends (v : Value) : Tends level (mapValues v) := by
  intro h
  rw [after_mapValues]
  exact newListOf_tends _ _ h

theorem mapCopy_tends (v : Value) : Tends level (mapCopy v) := by
  intro h
  have made : Tended level h (after (newMap (((h.mapEntries v).length * 4 + 2) / 3 + 1)) h) := newMap_tends _ h
  simp only [after,mapCopy] at made ⊢
  cases result : newMap (((h.mapEntries v).length * 4 + 2) / 3 + 1) h with
  | error e s => simpa only [result] using made
  | ok copy s =>
      simp only [result] at made ⊢
      cases s.mapHandle copy with
      | error e => exact made
      | ok r => exact made.trans (storeAll_tended s r _)

theorem bindRegister_abides (v name : Value) (register : Nat) (h : Heap) : Abides h (after (bindRegister v name register) h) := by
  simp only [after,bindRegister]
  cases h.mapHandle v with
  | error e => exact .refl h
  | ok r =>
      cases h.isAliasMap v && (h.aliasOf? v name).isNone with
      | true => exact (modifyObject_abides h r _).trans (recharge_abides _ r)
      | false => exact .refl h

theorem bindRegister_tends (v name : Value) (register : Nat) : Tends level (bindRegister v name register) :=
  .edit (bindRegister_acts v register (Value.named_all name)) (bindRegister_abides v name register)

theorem gather_abides (v : Value) (h : Heap) : Abides h (after (gather v) h) := by
  simp only [after,gather]
  cases h.mapHandle v with
  | error e => exact .refl h
  | ok r =>
      simp only
      cases (h.table? v).bind Table.aliases with
      | none => exact .refl h
      | some aliases =>
          exact ((modifyObject_abides h r _).trans (storeAll_abides _ r _)).trans (recharge_abides _ r)

theorem gather_tends (v : Value) : Tends level (gather v) := .edit (gather_acts v) (gather_abides v)

theorem reading_tends (read : Heap → Except Error α) : Tends level (reading read) := by
  intro h
  simp only [after,reading]
  cases read h with
  | error e => exact .refl h
  | ok result => exact .refl h

theorem textOf_tends (v : Value) : Tends level (textOf v) := reading_tends _

theorem stringConcat_tends (a b : Value) : Tends level (stringConcat a b) := by
  unfold stringConcat
  refine (textOf_tends a).bind fun left => (textOf_tends b).bind fun right => ?_
  split
  · exact .pure a
  · split
    · exact .pure b
    · exact newString_tends _

theorem stringSubstring_tends (v : Value) (start count : Int32) : Tends level (stringSubstring v start count) := by
  unfold stringSubstring
  apply (textOf_tends v).bind
  intro text
  simp only
  split
  · exact .pure v
  · exact newString_tends _

theorem stringSlice_tends (v : Value) (start stop : Int32) : Tends level (stringSlice v start stop) := by
  unfold stringSlice
  apply Tends.get_bind
  intro h
  simp only
  split
  · exact newString_tends _
  · exact stringSubstring_tends _ _ _

theorem stringReplace_tends (v old new : Value) : Tends level (stringReplace v old new) := by
  unfold stringReplace
  refine (textOf_tends v).bind fun text => (textOf_tends old).bind fun pattern => (textOf_tends new).bind fun replacement => ?_
  split
  · exact .pure v
  · exact newString_tends _

theorem pushStrings_tends (out : Value) (pieces : List String) : Tends level (pushStrings out pieces) := by
  induction pieces with
  | nil => exact .pure ()
  | cons piece rest ih => exact (newString_tends piece).bind fun item => (updateList_tends out _).bind fun _ => ih

theorem stringSplit_tends (v delimiter : Value) : Tends level (stringSplit v delimiter) := by
  unfold stringSplit
  refine (textOf_tends v).bind fun text => (textOf_tends delimiter).bind fun pattern => (newListOf_tends _ _).bind fun out => ?_
  refine Tends.bind ?_ fun _ => .pure out
  exact ((protecting_tends out).bind fun _ => pushStrings_tends out _).inScope

theorem mapText_tends (change : String → String) (v : Value) : Tends level (mapText change v) := by
  unfold mapText
  apply (textOf_tends v).bind
  intro text
  simp only
  split
  · exact .pure v
  · exact newString_tends _

theorem stringRepeat_tends (v : Value) (times : Double) : Tends level (stringRepeat v times) := by
  unfold stringRepeat
  apply (textOf_tends v).bind
  intro text
  split
  · exact newString_tends _
  · split
    · exact .pure v
    · apply Tends.get_bind
      intro h
      simp only
      split
      · exact newString_tends _
      · exact .throw _

theorem toStringValue_tends (v : Value) : Tends level (toStringValue v) := by
  unfold toStringValue
  split
  · exact .pure v
  · exact Tends.get_bind fun h => newString_tends _

theorem setAll_tends (out : Value) (entries : List (Value × Value)) : Tends level (setAll out entries) := by
  induction entries with
  | nil => exact .pure ()
  | cons entry rest ih => exact (mapSet_tends out entry.1 entry.2).bind fun _ => ih

theorem mapMerge_tends (a b : Value) : Tends level (mapMerge a b) := by
  unfold mapMerge
  refine (mapCopy_tends a).bind fun out => Tends.bind ?_ fun _ => .pure out
  exact ((protecting_tends out).bind fun _ => Tends.get_bind fun h => setAll_tends out _).inScope

theorem add_tends (a b : Value) : Tends level (add a b) := by
  unfold add
  split
  · exact .pure _
  · exact listConcat_tends _ _
  · exact mapMerge_tends _ _
  · split
    · exact .pure _
    · split
      · exact stringConcat_tends a b
      · split
        · exact (newString_tends _).bind fun right => stringConcat_tends a right
        · split
          · exact (newString_tends _).bind fun left => stringConcat_tends left b
          · split
            · exact .pure _
            · exact .pure _

theorem mult_tends (a b : Value) : Tends level (mult a b) := by
  unfold mult
  split
  · exact .pure _
  · split
    · exact .pure _
    · split
      · exact stringRepeat_tends _ _
      · exact .pure _

theorem div_tends (a b : Value) : Tends level (div a b) := by
  unfold div
  split
  · exact .pure _
  · split
    · exact mult_tends _ _
    · exact .pure _

section

variable {copy : Value → Copies → HeapM (Value × Copies)} (copies : ∀ v known, Tends False (copy v known))
include copies

theorem copyItems_tends (out : Value) (items : List Value) (known : Copies) : Tends False (copyItems copy out items known) := by
  induction items generalizing known with
  | nil => exact .pure known
  | cons item rest ih => exact (copies item known).bind fun made => (updateList_tends out _).bind fun _ => ih made.2

theorem copyEntries_tends (out : Value) (entries : List (Value × Value)) (known : Copies) :
    Tends False (copyEntries copy out entries known) := by
  induction entries generalizing known with
  | nil => exact .pure known
  | cons entry rest ih =>
      refine (copies entry.1 known).bind fun key => (protecting_tends key.1).bind fun _ => ?_
      exact (copies entry.2 key.2).bind fun value => (mapSet_tends out key.1 value.1).bind fun _ => ih value.2

end

theorem copyDeep_tends (levels : Nat) (v : Value) (known : Copies) : Tends False (copyDeep levels v known) := by
  induction levels generalizing v known with
  | zero =>
      rw [copyDeep_zero]
      exact .pure _
  | succ levels ih =>
      cases v with
      | list r =>
          rw [copyDeep_list]
          split
          · exact .pure _
          · refine Tends.get_bind fun h => (newListOf_tends _ _).bind fun out => (protecting_tends out).bind fun _ => ?_
            exact (copyItems_tends ih out _ _).bind fun later => .pure (out,later)
      | map r =>
          rw [copyDeep_map]
          split
          · exact .pure _
          · refine Tends.get_bind fun h => (newMap_tends _).bind fun out => (protecting_tends out).bind fun _ => ?_
            exact (copyEntries_tends ih out _ _).bind fun later => .pure (out,later)
      | null | int | double | short => rw [copyDeep_plain _ _ rfl]; exact .pure _
      | str r => rw [copyDeep_leaf _ _ (Or.inl rfl)]; exact .pure _
      | funcRef r => rw [copyDeep_leaf _ _ (Or.inr rfl)]; exact .pure _

theorem freeze_tended (h : Heap) (v : Value) : Tended level h (h.freeze v) := (freeze_abides h v).tended (freeze_steps h v).intact

theorem frozenCopy_tends (v : Value) : Tends level (frozenCopy v) := by
  unfold frozenCopy
  refine Tends.get_bind fun h => (copyDeep_tends _ v []).inScope.bind fun copied => ?_
  have frozen : Tends level (modify (·.freeze copied.1) : HeapM PUnit) := fun h => freeze_tended h copied.1
  exact frozen.bind fun _ => .pure copied.1

-- The calls that protect values, release them, or open and close scopes.
def Call.scopes : Call → Bool
  | protect _ | unprotect | pushScope | popScope => true
  | _ => false

-- The calls that change persistent roots or callbacks.
def Call.roots : Call → Bool
  | addRoot _ | setRoot _ _ | removeRoot _ | registerCallback _ | unregisterCallback _ => true
  | _ => false

theorem Call.tended (call : Call) (h : Heap) (level : Prop) :
    call.scopes = true ∨ call.roots = true ∨ Tended level h (call.run h) := by
  have registers : ∀ registers, { h with registers } = call.run h → Tended level h (call.run h) := by
    intro registers same
    exact (same ▸ registers_abides h registers).tended (call.steps h).intact
  have switches : Abides h (call.run h) → Tended level h (call.run h) := fun abides => abides.tended (call.steps h).intact
  cases call with
  | protect | unprotect | pushScope | popScope => exact Or.inl rfl
  | addRoot | setRoot | removeRoot | registerCallback | unregisterCallback => exact Or.inr (Or.inl rfl)
  | disable | enable | setStress => exact Or.inr (Or.inr (switches ⟨⟨rfl,rfl⟩,rfl,rfl,rfl,fun _ live => live⟩))
  | resizeRegisters | setRegisterValue | setRegisterName | assignRegister | unassign => exact Or.inr (Or.inr (registers _ rfl))
  | collect => exact Or.inr (Or.inr (Swept.tended (.single rfl)))
  | intern text => exact Or.inr (Or.inr (intern_tended h text))
  | newString text => exact Or.inr (Or.inr (newString_tends text h))
  | newFuncRef function outer => exact Or.inr (Or.inr (newFuncRef_tends function outer h))
  | newList capacity => exact Or.inr (Or.inr (newListOf_tends #[] capacity h))
  | newListOf items capacity => exact Or.inr (Or.inr (newListOf_tends items capacity h))
  | newMap capacity => exact Or.inr (Or.inr (newMap_tends capacity h))
  | newAliasMap first count => exact Or.inr (Or.inr (newAliasMap_tends first count h))
  | listSet v index item => exact Or.inr (Or.inr (listSet_tends v index item h))
  | listPush v => exact Or.inr (Or.inr (updateList_tends v _ h))
  | listPop v => exact Or.inr (Or.inr (listPop_tends v h))
  | listPull v => exact Or.inr (Or.inr (listPull_tends v h))
  | listInsert v index item => exact Or.inr (Or.inr (listInsert_tends v index item h))
  | listRemove v index => exact Or.inr (Or.inr (listRemove_tends v index h))
  | listClear v => exact Or.inr (Or.inr (updateList_tends v _ h))
  | listSlice v start stop => exact Or.inr (Or.inr (listSlice_tends v start stop h))
  | listConcat a b => exact Or.inr (Or.inr (listConcat_tends a b h))
  | listCopy v => exact Or.inr (Or.inr (listCopy_tends v h))
  | listSort v byKey => exact Or.inr (Or.inr (listSort_tends v byKey h))
  | mapSet v key value => exact Or.inr (Or.inr (mapSet_tends v key value h))
  | mapRemove v key => exact Or.inr (Or.inr (mapRemove_tends v key h))
  | mapClear v => exact Or.inr (Or.inr (mapClear_tends v h))
  | mapKeys v => exact Or.inr (Or.inr (mapKeys_tends v h))
  | mapValues v => exact Or.inr (Or.inr (mapValues_tends v h))
  | mapCopy v => exact Or.inr (Or.inr (mapCopy_tends v h))
  | bindRegister v name register => exact Or.inr (Or.inr (bindRegister_tends v name register h))
  | gather v => exact Or.inr (Or.inr (gather_tends v h))
  | freeze v => exact Or.inr (Or.inr (freeze_tended h v))
  | frozenCopy v => exact Or.inr (Or.inr (frozenCopy_tends v h))
  | stringConcat a b => exact Or.inr (Or.inr (stringConcat_tends a b h))
  | stringSubstring v start count => exact Or.inr (Or.inr (stringSubstring_tends v start count h))
  | stringSlice v start stop => exact Or.inr (Or.inr (stringSlice_tends v start stop h))
  | stringReplace v old new => exact Or.inr (Or.inr (stringReplace_tends v old new h))
  | stringSplit v delimiter => exact Or.inr (Or.inr (stringSplit_tends v delimiter h))
  | mapText change v => exact Or.inr (Or.inr (mapText_tends change v h))
  | stringRepeat v times => exact Or.inr (Or.inr (stringRepeat_tends v times h))
  | toStringValue v => exact Or.inr (Or.inr (toStringValue_tends v h))
  | add a b => exact Or.inr (Or.inr (add_tends a b h))
  | mult a b => exact Or.inr (Or.inr (mult_tends a b h))
  | div a b => exact Or.inr (Or.inr (div_tends a b h))

-- Protected values, scopes and callbacks are the same, and every root has a place still.
structure Level (h h' : Heap) : Prop extends Balanced h h' where
  callbacks : h'.callbacks = h.callbacks
  places : h.roots.size ≤ h'.roots.size

theorem Level.refl (h : Heap) : Level h h := ⟨.refl h,rfl,Nat.le_refl _⟩

theorem Level.trans (first : Level h h') (second : Level h' h'') : Level h h'' :=
  ⟨first.toBalanced.trans second.toBalanced,second.callbacks.trans first.callbacks,first.places.trans second.places⟩

theorem Level.grounded (level : Level h h') (grounded : h.Grounded) : h'.Grounded := level.toBalanced.nested.grounded grounded

theorem Tended.level (tended : Tended True h h') (grounded : h.Grounded) : Level h h' :=
  ⟨tended.balanced grounded,tended.callbacks,by rw [tended.roots]⟩

theorem setRoot_level (h : Heap) (id : Nat) (v : Value) : Level h (h.setRoot id v) :=
  ⟨⟨rfl,rfl⟩,rfl,by rw [setRoot,Array.size_setIfInBounds]⟩

theorem addRoot_level (h : Heap) (v : Value) : Level h (h.addRoot v).2 := by
  unfold addRoot
  split
  · exact ⟨⟨rfl,rfl⟩,rfl,by rw [Array.size_setIfInBounds]⟩
  · exact ⟨⟨rfl,rfl⟩,rfl,by rw [Array.size_push]; omega⟩

theorem removeRoot_level (h : Heap) (id : Nat) : Level h (h.removeRoot id) := by
  unfold removeRoot
  split
  · exact ⟨⟨rfl,rfl⟩,rfl,by rw [Array.size_setIfInBounds]⟩
  · exact .refl h

theorem unregisterCallback_balanced (h : Heap) (id : Nat) : Balanced h (h.unregisterCallback id).2 := by
  unfold unregisterCallback
  split <;> exact ⟨rfl,rfl⟩

theorem Call.balanced {call : Call} (apart : call.scopes = false) (grounded : h.Grounded) : Balanced h (call.run h) := by
  rcases call.tended h True with scoping | rooting | tended
  · rw [apart] at scoping
    cases scoping
  · cases call with
    | addRoot v => exact (addRoot_level h v).toBalanced
    | setRoot id v => exact (setRoot_level h id v).toBalanced
    | registerCallback => exact ⟨rfl,rfl⟩
    | removeRoot id => exact (removeRoot_level h id).toBalanced
    | unregisterCallback id => exact unregisterCallback_balanced h id
    | _ => cases rooting
  · exact tended.balanced grounded

theorem Call.rooted {call : Call} (apart : call.roots = false) (h : Heap) : (call.run h).roots = h.roots ∧
    (call.run h).freeRoots = h.freeRoots ∧ (h.Intact → ∀ r, h.Anchored r → (call.run h).Anchored r) := by
  have moved : ∀ s : Heap, s.roots = h.roots → s.slots = h.slots → ∀ r, h.Anchored r → s.Anchored r := by
    intro s roots slots r anchored
    rw [Anchored,roots,isLive,object?_slots slots]
    exact anchored
  rcases call.tended h True with scoping | rooting | tended
  · cases call with
    | protect v => exact ⟨rfl,rfl,fun _ => moved _ rfl rfl⟩
    | pushScope => exact ⟨rfl,rfl,fun _ => moved _ rfl rfl⟩
    | popScope =>
        obtain ⟨roots,freeRoots,_⟩ := h.popScope_roots
        exact ⟨roots,freeRoots,fun _ => moved _ roots (popScope_apart h).slots⟩
    | unprotect =>
        obtain ⟨roots,freeRoots,_⟩ := h.unprotect_roots
        exact ⟨roots,freeRoots,fun _ => moved _ roots (unprotect_apart h).slots⟩
    | _ => cases scoping
  · rw [apart] at rooting
    cases rooting
  · exact ⟨tended.roots,tended.freeRoots,tended.anchored⟩

theorem unprotect_grounded {h : Heap} (grounded : h.Grounded) : h.unprotect.2.Grounded := by
  obtain ⟨above,ordered⟩ := List.pairwise_cons.mp grounded
  unfold unprotect
  split
  · rename_i v rest shadow
    split
    · rename_i inside
      apply List.pairwise_cons.mpr ⟨_,ordered⟩
      intro start member
      -- The innermost scope starts below the value that is released, the others no higher.
      have below : start ≤ h.scopes.headD 0 := by
        cases scopes : h.scopes with
        | nil =>
            rw [scopes] at member
            cases member
        | cons first others =>
            rw [scopes] at member ordered
            cases member with
            | head => exact Nat.le_refl _
            | tail _ member => exact (List.pairwise_cons.mp ordered).1 start member
      rw [shadow,List.length_cons] at inside
      exact Nat.le_of_lt_succ (Nat.lt_of_le_of_lt below inside)
    · exact grounded
  · exact grounded

theorem popScope_grounded {h : Heap} (grounded : h.Grounded) : h.popScope.Grounded := by
  obtain ⟨above,ordered⟩ := List.pairwise_cons.mp grounded
  unfold popScope
  split
  · rename_i start rest scopes
    have inside : start ≤ h.shadow.length := above start (scopes ▸ List.mem_cons_self)
    rw [scopes] at ordered
    unfold Grounded
    rw [List.length_drop,Nat.sub_sub_self inside]
    exact ordered
  · exact grounded

theorem Call.grounded (call : Call) (grounded : h.Grounded) : (call.run h).Grounded := by
  cases apart : call.scopes with
  | false => exact (Call.balanced apart grounded).nested.grounded grounded
  | true =>
      cases call with
      | protect v => exact (protect_tended h v).grounded grounded
      | unprotect => exact unprotect_grounded grounded
      | pushScope => exact pushScope_grounded grounded
      | popScope => exact popScope_grounded grounded
      | _ => cases apart

theorem new_grounded (config : HeapConfig) : (Heap.new config).Grounded := List.pairwise_singleton _ _

theorem Reachable.grounded (reachable : Reachable h) : h.Grounded := by
  induction reachable with
  | new config => exact new_grounded config
  | call call _ ih => exact call.grounded ih

end RegisterMachine.Heap
