import RegisterMachine.Proofs.Heap.Canonical
import RegisterMachine.Proofs.Heap.Ledger
import RegisterMachine.Proofs.Heap.Mirroring
import RegisterMachine.Proofs.Heap.Sparing

namespace RegisterMachine.Heap

theorem exceedsLimit_iff {h : Heap} {charge : Nat} :
    h.exceedsLimit charge = true ↔ ∃ limit, h.config.maxBytes = some limit ∧ limit < h.bytes + charge := by
  unfold exceedsLimit
  cases h.config.maxBytes with
  | none => simp
  | some limit => simp

theorem room_fits {h : Heap} (room : h.exceedsLimit charge = false) (known : h.config.maxBytes = some limit) : h.bytes + charge ≤ limit := by
  simpa [exceedsLimit,known] using room

theorem collect_bytes_le (h : Heap) : h.collect.2.bytes ≤ h.bytes := by
  by_cases enabled : h.disabled = 0
  · rw [collect_enabled enabled]
    exact Nat.sub_le h.bytes _
  · rw [collect_disabled enabled]

theorem Swept.bytes (swept : Swept h h') : h'.bytes ≤ h.bytes := by
  induction swept with
  | refl => exact Nat.le_refl _
  | @tail s _ _ last ih =>
      rw [last]
      exact (collect_bytes_le s).trans ih

-- An allocation fails exactly when its object does not fit after the collection that is forced then.
theorem allocate_error {h s : Heap} {object : Object} : allocate object h = .error e s ↔
    e = .outOfMemory object.charge ∧ s = h.collectIfDue.collect.2 ∧ ∃ limit, h.config.maxBytes = some limit ∧ limit < s.bytes + object.charge := by
  have forced := Swept.config ((collectIfDue_swept h).tail rfl)
  constructor
  · intro failed
    obtain ⟨rfl,full⟩ := allocate_failed failed
    refine ⟨rfl,?_,full⟩
    simp only [allocate] at failed
    cases exceeds : h.collectIfDue.exceedsLimit object.charge with
    | true =>
        rw [if_pos exceeds] at failed
        split at failed
        · cases failed
          rfl
        · cases failed
    | false =>
        rw [if_neg (by simp [exceeds]),if_neg (by simp [exceeds])] at failed
        cases failed
  · rintro ⟨rfl,rfl,limit,known,full⟩
    have after : h.collectIfDue.collect.2.exceedsLimit object.charge = true := exceedsLimit_iff.mpr ⟨limit,forced ▸ known,full⟩
    have before : h.collectIfDue.exceedsLimit object.charge = true := by
      have smaller := collect_bytes_le h.collectIfDue
      exact exceedsLimit_iff.mpr ⟨limit,Swept.config (collectIfDue_swept h) ▸ known,by omega⟩
    simp only [allocate]
    rw [if_pos before,if_pos after]

theorem forced_disabled {h : Heap} (disabled : 0 < h.disabled) : h.collectIfDue.collect.2 = h := by
  have quiet : h.collectIfDue = h := by
    unfold collectIfDue
    rw [if_neg]
    simp [Nat.ne_of_gt disabled]
  rw [quiet,collect_disabled (Nat.ne_of_gt disabled)]

theorem Step.limit (step : Step h h') : h'.config.maxBytes = h.config.maxBytes := by
  cases step with
  | apart apart => exact apart.limit
  | rewrite => rfl
  | recharge => rw [recharge_config]
  | collect => rw [collect_config]
  | install => rw [allocated,install_config]
  | intern => rw [intern_config]

theorem Steps.limit (steps : Steps h h') : h'.config.maxBytes = h.config.maxBytes := by
  induction steps with
  | refl => rfl
  | tail _ step ih => exact step.limit.trans ih

-- Changes that do not lead beyond the limit.
structure Confined (h h' : Heap) : Prop where
  steps : Steps h h'
  bytes : h.Intact → ∀ limit, h.config.maxBytes = some limit → h'.bytes ≤ max h.bytes limit

theorem Confined.smaller (steps : Steps h h') (bytes : h'.bytes ≤ h.bytes) : Confined h h' :=
  ⟨steps,fun _ _ _ => bytes.trans (Nat.le_max_left _ _)⟩

theorem Confined.refl (h : Heap) : Confined h h := .smaller .refl (Nat.le_refl _)

theorem Confined.trans (first : Confined h h') (second : Confined h' h'') : Confined h h'' where
  steps := first.steps.trans second.steps
  bytes := fun intact limit known => by
    have before := first.bytes intact limit known
    have later := second.bytes (first.steps.intact intact) limit (first.steps.limit.trans known)
    omega

def Confines (operation : HeapM α) : Prop := ∀ h, Confined h (after operation h)

-- Operations that keep every charge and every register.
def Conserves (operation : HeapM α) : Prop := ∀ h, (after operation h).bytes = h.bytes ∧ (after operation h).registers = h.registers

namespace Confines

theorem pure (a : α) : Confines (Pure.pure a : HeapM α) := fun h => .refl h

theorem throw (e : Error) : Confines (MonadExcept.throw e : HeapM α) := fun h => .refl h

theorem get_bind {rest : Heap → HeapM β} (follows : ∀ h, Confines (rest h)) : Confines (MonadState.get >>= rest) :=
  fun h => follows h h

theorem bind {first : HeapM α} {rest : α → HeapM β} (confines : Confines first) (follows : ∀ a, Confines (rest a)) :
    Confines (first >>= rest) := by
  intro h
  have start := confines h
  rcases after_bind first rest h with stopped | ⟨a,_,next⟩
  · rw [stopped]
    exact start
  · rw [next]
    exact start.trans (follows a _)

theorem map {operation : HeapM α} (f : α → β) (confines : Confines operation) : Confines (f <$> operation) := by
  intro h
  rw [after_map]
  exact confines h

theorem edit {operation : HeapM α} (performs : Performs (fun _ => True) operation) (bytes : ∀ h, (after operation h).bytes = h.bytes) :
    Confines operation :=
  fun h => .smaller (performs h (.all h)).steps (Nat.le_of_eq (bytes h))

theorem of_conserves {operation : HeapM α} (performs : Performs (fun _ => True) operation) (conserves : Conserves operation) : Confines operation :=
  .edit performs fun h => (conserves h).1

end Confines

theorem allocate_confines {object : Object} (sane : object.Sane) : Confines (allocate object) := by
  intro h
  obtain ⟨s,swept,⟨_,failed⟩ | ⟨room,done⟩⟩ := allocate_parts object h
  · simp only [after,failed]
    exact .smaller swept.steps swept.bytes
  · simp only [after,done]
    refine ⟨swept.steps.tail (.install sane room),fun _ limit known => ?_⟩
    have fits := room_fits room ((Swept.config swept).symm ▸ known)
    rw [allocated_bytes]
    omega

theorem interning_confines (text : String) : Confines (interning text) :=
  fun h => .smaller (.single .intern) (Nat.le_of_eq (intern_bytes h text))

theorem newString_confines (text : String) : Confines (newString text) := by
  unfold newString
  split
  · exact .pure _
  · split
    · exact interning_confines text
    · rename_i long
      exact (allocate_confines (sane_str (Nat.le_of_not_lt long))).map _

theorem newFuncRef_confines (function : Nat) (outer : Value) : Confines (newFuncRef function outer) :=
  (allocate_confines (sane_funcRef _)).map _

theorem newListOf_confines (items : Array Value) (capacity : Nat) : Confines (newListOf items capacity) :=
  (allocate_confines (sane_list _)).map _

theorem newMap_confines (capacity : Nat) : Confines (newMap capacity) :=
  (allocate_confines (sane_map (Table.withCapacity_valid capacity))).map _

theorem newAliasMap_confines (first count : Nat) : Confines (newAliasMap first count) := by
  intro h
  rw [after_newAliasMap]
  exact allocate_confines (sane_aliasTable _) h

theorem listSet_conserves (v : Value) (index : Int32) (item : Value) : Conserves (listSet v index item) := by
  intro h
  simp only [after,listSet]
  cases h.writableList v with
  | error e => exact ⟨rfl,rfl⟩
  | ok r => cases resolve? index (h.listCount v) <;> exact ⟨rfl,rfl⟩

theorem listPop_conserves (v : Value) : Conserves (listPop v) := by
  intro h
  simp only [after,listPop]
  cases h.writableList v <;> exact ⟨rfl,rfl⟩

theorem listPull_conserves (v : Value) : Conserves (listPull v) := by
  intro h
  simp only [after,listPull]
  cases h.writableList v <;> exact ⟨rfl,rfl⟩

theorem listRemove_conserves (v : Value) (index : Int32) : Conserves (listRemove v index) := by
  intro h
  simp only [after,listRemove]
  cases h.writableList v with
  | error e => exact ⟨rfl,rfl⟩
  | ok r => cases resolve? index (h.listCount v) <;> exact ⟨rfl,rfl⟩

theorem listSort_conserves (v byKey : Value) : Conserves (listSort v byKey) := by
  intro h
  simp only [after,listSort]
  cases h.writableList v with
  | error e => exact ⟨rfl,rfl⟩
  | ok r => cases byKey.isNull <;> exact ⟨rfl,rfl⟩

theorem listSet_confines (v : Value) (index : Int32) (item : Value) : Confines (listSet v index item) :=
  .of_conserves (listSet_acts v index item) (listSet_conserves v index item)

theorem listPop_confines (v : Value) : Confines (listPop v) := .of_conserves (listPop_acts v) (listPop_conserves v)

theorem listPull_confines (v : Value) : Confines (listPull v) := .of_conserves (listPull_acts v) (listPull_conserves v)

theorem listRemove_confines (v : Value) (index : Int32) : Confines (listRemove v index) :=
  .of_conserves (listRemove_acts v index) (listRemove_conserves v index)

theorem listSort_confines (v byKey : Value) : Confines (listSort v byKey) :=
  .of_conserves (listSort_acts fun _ _ _ => trivial) (listSort_conserves v byKey)

theorem updateList_bytes {h : Heap} {change : ListObject → ListObject} (v : Value)
    (room : ∀ list, h.list? v = some list → (change list).capacity = list.capacity) : (after (updateList v change) h).bytes = h.bytes := by
  simp only [after,updateList]
  cases accepted : h.writableList v with
  | error e => rfl
  | ok r =>
      obtain ⟨rfl,_,list,present⟩ := writableList_parts accepted
      have held : h.list? (.list r) = some list := by simp only [list?,present]
      have same : (h.modifyList r change).listCapacity (.list r) = h.listCapacity (.list r) := by
        simp only [listCapacity,list?,present,(modifyList_touched change present).here]
        exact room list held
      simp only [if_pos same]
      rfl

theorem after_listInsert (v : Value) (index : Int32) (item : Value) (h : Heap) :
    after (listInsert v index item) h = h ∨ ∃ i, after (listInsert v index item) h = after (updateList v (·.insertAt i item)) h := by
  simp only [after,listInsert]
  generalize (if index.toInt < 0 then index.toInt + h.listCount v + 1 else index.toInt) = i
  by_cases outside : i < 0 ∨ i > h.listCount v
  · simp only [if_pos outside]
    cases h.listHandle v <;> exact Or.inl rfl
  · simp only [if_neg outside]
    exact Or.inr ⟨i.toNat,rfl⟩

theorem listClear_confines (v : Value) : Confines (listClear v) :=
  .edit (updateList_acts v _) fun _ => updateList_bytes v fun _ _ => rfl

theorem mapRemove_confines (v key : Value) : Confines (mapRemove v key) := by
  refine .edit (mapRemove_acts key fun _ _ => trivial) fun h => ?_
  simp only [after,mapRemove]
  cases h.writableMap v with
  | error e => rfl
  | ok r =>
      cases h.aliasOf? v key with
      | some register => rfl
      | none => cases h.findCell? v (h.hash key) key <;> rfl

theorem unassignAll_bytes (registers : List Nat) (h : Heap) : (registers.foldl unassign h).bytes = h.bytes := by
  induction registers generalizing h with
  | nil => rfl
  | cons register rest ih => exact ih (h.unassign register)

theorem mapClear_confines (v : Value) : Confines (mapClear v) := by
  refine .edit (mapClear_acts fun _ _ => trivial) fun h => ?_
  simp only [after,mapClear]
  cases h.writableMap v with
  | error e => rfl
  | ok r => exact unassignAll_bytes (h.aliasRegisters v) h

theorem reading_confines (read : Heap → Except Error α) : Confines (reading read) := by
  intro h
  simp only [after,reading]
  cases read h <;> exact .refl h

theorem expectItems_confines {make : Array Value → HeapM Value} (v : Value) (confines : ∀ items, Confines (make items)) :
    Confines fun h => match h.expectItems v with | .error e => .error e h | .ok items => make items h := by
  intro h
  simp only [after]
  cases h.expectItems v with
  | error e => exact .refl h
  | ok items => exact confines items h

theorem listConcat_confines (a b : Value) : Confines (listConcat a b) := by
  intro h
  simp only [after,listConcat]
  cases h.expectItems a with
  | error e => exact .refl h
  | ok items => exact newListOf_confines _ _ h

theorem mapKeys_confines (v : Value) : Confines (mapKeys v) := by
  intro h
  rw [after_mapKeys]
  exact newListOf_confines _ _ h

theorem mapValues_confines (v : Value) : Confines (mapValues v) := by
  intro h
  rw [after_mapValues]
  exact newListOf_confines _ _ h

theorem textOf_confines (v : Value) : Confines (textOf v) := reading_confines _

theorem stringConcat_confines (a b : Value) : Confines (stringConcat a b) := by
  refine (reading_confines _).bind fun left => (reading_confines _).bind fun right => ?_
  split
  · exact .pure a
  · split
    · exact .pure b
    · exact newString_confines _

theorem stringSubstring_confines (v : Value) (start count : Int32) : Confines (stringSubstring v start count) := by
  refine (reading_confines _).bind fun text => ?_
  dsimp only
  split
  · exact .pure v
  · exact newString_confines _

theorem stringSlice_confines (v : Value) (start stop : Int32) : Confines (stringSlice v start stop) := by
  refine .get_bind fun h => ?_
  dsimp only
  split
  · exact newString_confines _
  · exact stringSubstring_confines _ _ _

theorem stringReplace_confines (v old new : Value) : Confines (stringReplace v old new) := by
  refine (reading_confines _).bind fun text => (reading_confines _).bind fun pattern => (reading_confines _).bind fun replacement => ?_
  split
  · exact .pure v
  · exact newString_confines _

theorem mapText_confines (change : String → String) (v : Value) : Confines (mapText change v) := by
  refine (reading_confines _).bind fun text => ?_
  dsimp only
  split
  · exact .pure v
  · exact newString_confines _

theorem stringRepeat_confines (v : Value) (times : Double) : Confines (stringRepeat v times) := by
  unfold stringRepeat
  refine (textOf_confines v).bind fun text => ?_
  split
  · exact newString_confines _
  · split
    · exact .pure v
    · refine .get_bind fun h => ?_
      dsimp only
      split
      · exact newString_confines _
      · exact .throw _

theorem toStringValue_confines (v : Value) : Confines (toStringValue v) := by
  unfold toStringValue
  split
  · exact .pure v
  · exact .get_bind fun h => newString_confines _

theorem mult_confines (a b : Value) : Confines (mult a b) := by
  unfold mult
  split
  · exact .pure _
  · split
    · exact .pure _
    · split
      · exact stringRepeat_confines _ _
      · exact .pure _

theorem div_confines (a b : Value) : Confines (div a b) := by
  unfold div
  split
  · exact .pure _
  · split
    · exact mult_confines _ _
    · exact .pure _

end RegisterMachine.Heap
