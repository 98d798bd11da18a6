import RegisterMachine.Proofs.Heap.Limit
import RegisterMachine.Proofs.Heap.MethodBalance

namespace RegisterMachine.Heap

-- A later heap in which the registers below a bound are as they were.
structure Framed (b : Nat) (h h' : Heap) : Prop where
  intact : h'.Intact
  registers : ∀ i, i < b → h'.registers[i]? = h.registers[i]?

theorem Framed.refl {h : Heap} (intact : h.Intact) : Framed b h h := ⟨intact,fun _ _ => rfl⟩

theorem Framed.trans (first : Framed b h h') (second : Framed b h' h'') : Framed b h h'' :=
  ⟨second.intact,fun i below => (second.registers i below).trans (first.registers i below)⟩

theorem Framed.same (intact : h'.Intact) (registers : h'.registers = h.registers) : Framed b h h' := ⟨intact,fun i _ => by rw [registers]⟩

theorem Spared.framed (spared : Spared h h') : Framed b h h' := .same spared.intact spared.extension.registers

theorem Apart.framed (apart : Apart h h') (intact : h.Intact) (registers : h'.registers = h.registers) : Framed b h h' :=
  .same ((Step.apart apart).intact intact) registers

theorem Framed.modify {h : Heap} (intact : h.Intact) (above : b ≤ j) (change : Register → Register) :
    Framed b h { h with registers := h.registers.modify j change } where
  intact := (Step.apart (registers_apart h _)).intact intact
  registers := by
    intro i below
    rw [Array.getElem?_modify,if_neg (by omega)]

def Frames (b : Nat) (operation : HeapM α) : Prop := ∀ h : Heap, h.Intact → Framed b h (after operation h)

namespace Frames

theorem pure (a : α) : Frames b (Pure.pure a : HeapM α) := fun _ intact => .refl intact

theorem throw (e : Error) : Frames b (MonadExcept.throw e : HeapM α) := fun _ intact => .refl intact

theorem get_bind {rest : Heap → HeapM β} (follows : ∀ h, Frames b (rest h)) : Frames b (MonadState.get >>= rest) :=
  fun h intact => follows h h intact

theorem bind {first : HeapM α} {rest : α → HeapM β} (frames : Frames b first) (follows : ∀ a, Frames b (rest a)) :
    Frames b (first >>= rest) := by
  intro h intact
  have start := frames h intact
  rcases after_bind first rest h with stopped | ⟨a,_,next⟩
  · rw [stopped]
    exact start
  · rw [next]
    exact start.trans (follows a _ start.intact)

theorem map {operation : HeapM α} (f : α → β) (frames : Frames b operation) : Frames b (f <$> operation) := by
  intro h intact
  rw [after_map]
  exact frames h intact

theorem inScope {operation : HeapM α} (frames : Frames b operation) : Frames b (inScope operation) := by
  intro h intact
  have inside := frames h.pushScope (pushScope_intact intact)
  have opened : Framed b h (after operation h.pushScope) := ⟨inside.intact,inside.registers⟩
  rw [after_inScope]
  refine opened.trans ((popScope_apart _).framed inside.intact ?_)
  unfold popScope
  split <;> rfl

theorem of_spares {operation : HeapM α} (spares : Spares operation) : Frames b operation :=
  fun h intact => (spares h intact).after.framed

theorem edit {operation : HeapM α} (performs : Performs (fun _ => True) operation)
    (registers : ∀ h, (after operation h).registers = h.registers) : Frames b operation :=
  fun h intact => .same ((performs h (.all h)).intact intact) (registers h)

theorem of_conserves {operation : HeapM α} (performs : Performs (fun _ => True) operation) (conserves : Conserves operation) : Frames b operation :=
  .edit performs fun h => (conserves h).2

end Frames

theorem protecting_frames (v : Value) : Frames b (modify (·.protect v)) :=
  fun h intact => (protect_apart h v).framed intact rfl

theorem Framed.unprotect (framed : Framed b (h.protect v) s) : Framed b h s.unprotect.2 := by
  have opened : Framed b h s := ⟨framed.intact,framed.registers⟩
  refine opened.trans ((unprotect_apart s).framed framed.intact ?_)
  unfold Heap.unprotect
  repeat' split
  all_goals rfl

theorem newString_frames (text : String) : Frames b (newString text) := .of_spares (newString_spares text)

theorem newListOf_frames (items : Array Value) (capacity : Nat) : Frames b (newListOf items capacity) := .of_spares (newListOf_spares _ _)

theorem updateList_frames (v : Value) (change : ListObject → ListObject) : Frames b (updateList v change) := by
  refine .edit (updateList_acts v change) fun h => ?_
  simp only [after,updateList]
  cases h.writableList v with
  | error e => rfl
  | ok r =>
      simp only
      split
      · rfl
      · exact (recharge_roots _ r).registers

theorem listSet_frames (v : Value) (index : Int32) (item : Value) : Frames b (listSet v index item) :=
  .of_conserves (listSet_acts v index item) (listSet_conserves v index item)

theorem listPop_frames (v : Value) : Frames b (listPop v) := .of_conserves (listPop_acts v) (listPop_conserves v)

theorem listPull_frames (v : Value) : Frames b (listPull v) := .of_conserves (listPull_acts v) (listPull_conserves v)

theorem listInsert_frames (v : Value) (index : Int32) (item : Value) : Frames b (listInsert v index item) := by
  intro h intact
  rcases after_listInsert v index item h with same | ⟨i,inserted⟩
  · rw [same]
    exact .refl intact
  · rw [inserted]
    exact updateList_frames v _ h intact

theorem listRemove_frames (v : Value) (index : Int32) : Frames b (listRemove v index) :=
  .of_conserves (listRemove_acts v index) (listRemove_conserves v index)

theorem listSort_frames (v byKey : Value) : Frames b (listSort v byKey) :=
  .of_conserves (listSort_acts fun _ _ _ => trivial) (listSort_conserves v byKey)

theorem bindRegister_frames (v name : Value) (register : Nat) : Frames b (bindRegister v name register) := by
  refine .edit (bindRegister_acts v register (Value.named_all name)) fun h => ?_
  simp only [after,bindRegister]
  cases h.mapHandle v with
  | error e => rfl
  | ok r =>
      cases h.isAliasMap v && (h.aliasOf? v name).isNone with
      | true => exact (recharge_roots _ r).registers
      | false => rfl

theorem store_registers (h : Heap) (r : Handle) (key value : Value) : (h.store r key value).registers = h.registers := by
  unfold store
  simp only
  split
  · rfl
  · split
    · exact (recharge_roots _ r).registers
    · rfl

theorem storeAll_registers (entries : List (Value × Value)) (h : Heap) (r : Handle) : (h.storeAll r entries).registers = h.registers := by
  induction entries generalizing h with
  | nil => rfl
  | cons entry rest ih => exact (ih _).trans (store_registers h r entry.1 entry.2)

theorem gather_registers (v : Value) (h : Heap) : (after (gather v) h).registers = h.registers := by
  simp only [after,gather]
  cases h.mapHandle v with
  | error e => rfl
  | ok r =>
      simp only
      cases (h.table? v).bind Table.aliases with
      | none => rfl
      | some aliases => exact (recharge_roots _ r).registers.trans (storeAll_registers _ _ r)

-- No map of the heap has an alias of a register below a bound.
def AliasesFrom (b : Nat) (h : Heap) : Prop :=
  ∀ r table aliases, h.object? r = some (.map table) → table.aliases = some aliases → ∀ binding ∈ aliases.bindings, b ≤ binding.2

-- The aliases of a value, if it is a map over registers, name no register below a bound.
def Beyond (b : Nat) (h : Heap) (v : Value) : Prop :=
  ∀ table aliases, h.table? v = some table → table.aliases = some aliases → ∀ binding ∈ aliases.bindings, b ≤ binding.2

theorem AliasesFrom.beyond (above : AliasesFrom b h) (v : Value) : Beyond b h v := by
  intro table aliases found some
  obtain ⟨r,_,present⟩ := table?_object.mp found
  exact above r table aliases present some

-- The aliases of an object, if it is a map over registers.
def aliases? : Object → Option Aliases
  | .map table => table.aliases
  | _ => none

theorem aliasesFrom_slots : AliasesFrom b h ↔
    ∀ slot ∈ h.slots, ∀ aliases ∈ slot.object.bind aliases?, ∀ binding ∈ aliases.bindings, b ≤ binding.2 := by
  constructor
  · intro above slot member aliases bound
    obtain ⟨i,found⟩ := Array.getElem?_of_mem member
    obtain ⟨object,content,some⟩ := Option.bind_eq_some_iff.mp bound
    cases object with
    | map table => exact above ⟨i,slot.generation⟩ table aliases (object?_slot.mpr ⟨slot,found,rfl,content⟩) some
    | str | list | funcRef => cases some
  · intro each r table aliases present some
    obtain ⟨slot,found,_,content⟩ := object?_slot.mp present
    exact each slot (Array.mem_of_getElem? found) aliases (by rw [content]; exact some)

instance (b : Nat) (h : Heap) : Decidable (AliasesFrom b h) := decidable_of_iff' _ aliasesFrom_slots

theorem AliasesFrom.slots (above : AliasesFrom b h) (slots : h'.slots = h.slots) : AliasesFrom b h' :=
  fun r table aliases present => above r table aliases (by rwa [← object?_slots slots])

theorem Beyond.register {register : Nat} (beyond : Beyond b h v) (aliased : h.aliasOf? v key = some register) : b ≤ register := by
  unfold aliasOf? at aliased
  split at aliased
  · rename_i table found
    obtain ⟨aliases,some,named⟩ := Option.bind_eq_some_iff.mp aliased
    obtain ⟨binding,there,rfl⟩ := Option.map_eq_some_iff.mp named
    exact beyond table aliases found some binding (Array.mem_of_find?_eq_some there)
  · cases aliased

theorem mapSet_framed {h : Heap} (key value : Value) (intact : h.Intact) (beyond : Beyond b h v) :
    Framed b h (after (mapSet v key value) h) ∧ Beyond b (after (mapSet v key value) h) v := by
  simp only [after,mapSet]
  cases accepted : h.writableMap v with
  | error e => exact ⟨.refl intact,beyond⟩
  | ok r =>
      obtain ⟨rfl,table,present,_⟩ := writableMap_parts accepted
      simp only
      cases aliased : h.aliasOf? (.map r) key with
      | some register => exact ⟨.modify intact (beyond.register aliased) _,beyond⟩
      | none =>
          refine ⟨.same ((store_steps h r key value).intact intact) (store_registers h r key value),fun later aliases found some => ?_⟩
          obtain ⟨q,same,here⟩ := table?_object.mp found
          cases same
          rw [(store_touched key value present).here] at here
          cases here
          have kept := (@stored_parts h table key value (intact.table present)).2
          exact beyond table aliases (table?_object.mpr ⟨r,rfl,present⟩) (kept ▸ some)

theorem mapRemove_framed {h : Heap} (key : Value) (intact : h.Intact) (beyond : Beyond b h v) : Framed b h (after (mapRemove v key) h) := by
  have acts : Performs (fun _ => True) (mapRemove v key) := mapRemove_acts key fun _ _ => trivial
  have later := (acts h (.all h)).intact intact
  simp only [after,mapRemove] at later ⊢
  cases accepted : h.writableMap v with
  | error e => exact .refl intact
  | ok r =>
      simp only [accepted] at later ⊢
      cases aliased : h.aliasOf? v key with
      | some register => exact .modify intact (beyond.register aliased) _
      | none =>
          simp only [aliased] at later ⊢
          cases found : h.findCell? v (h.hash key) key with
          | none => exact .refl intact
          | some i =>
              simp only [found] at later
              exact .same later rfl

theorem takeFirstKey_framed {h : Heap} (intact : h.Intact) (beyond : Beyond b h v) : Framed b h (after (takeFirstKey v) h) := by
  simp only [after,takeFirstKey]
  cases h.nthEntry? v 0 with
  | none => exact .refl intact
  | some entry =>
      have removed : Framed b (h.protect entry.1) (after (mapRemove v entry.1) (h.protect entry.1)) :=
        mapRemove_framed entry.1 (protect_spared intact entry.1).intact beyond
      simp only [after] at removed ⊢
      cases result : mapRemove v entry.1 (h.protect entry.1) with
      | ok flag s | error e s =>
          rw [result] at removed
          exact removed.unprotect

theorem removeText_frames (v pattern : Value) : Frames b (removeText v pattern) := by
  unfold removeText
  apply Frames.get_bind
  intro h
  split
  · exact .pure v
  · apply Frames.inScope
    refine (Frames.of_spares (stringSubstring_spares _ _ _)).bind fun head => (protecting_frames head).bind fun _ => ?_
    refine (Frames.of_spares (stringSlice_spares _ _ _)).bind fun tail => (protecting_frames tail).bind fun _ => ?_
    exact .of_spares (stringConcat_spares head tail)

theorem removeFrom_framed {h : Heap} (key : Value) (intact : h.Intact) (beyond : Beyond b h v) : Framed b h (after (removeFrom v key) h) := by
  unfold removeFrom
  split
  · exact (listRemove_frames _ _).map _ h intact
  · rw [after_map]
    exact mapRemove_framed key intact beyond
  · exact removeText_frames _ _ h intact
  · exact removeText_frames _ _ h intact
  · exact .refl intact

theorem pushOnto_framed {h : Heap} (item : Value) (intact : h.Intact) (beyond : Beyond b h v) : Framed b h (after (pushOnto v item) h) := by
  unfold pushOnto
  split
  · exact (updateList_frames _ _).bind (fun _ => .pure _) h intact
  · have set := (mapSet_framed item (.ofBool true) intact beyond).1
    rename_i r
    rcases after_bind (mapSet (.map r) item (.ofBool true)) _ h with stopped | ⟨_,_,next⟩
    · rw [stopped]
      exact set
    · rw [next]
      exact set
  · exact .refl intact

theorem popFrom_framed {h : Heap} (intact : h.Intact) (beyond : Beyond b h v) : Framed b h (after (popFrom v) h) := by
  unfold popFrom
  split
  · exact listPop_frames _ h intact
  · exact takeFirstKey_framed intact beyond
  · exact .refl intact

theorem pullFrom_framed {h : Heap} (intact : h.Intact) (beyond : Beyond b h v) : Framed b h (after (pullFrom v) h) := by
  unfold pullFrom
  split
  · exact listPull_frames _ h intact
  · exact takeFirstKey_framed intact beyond
  · exact .refl intact

theorem insertText_frames (v index inserted : Value) : Frames b (insertText v index inserted) := by
  unfold insertText
  apply Frames.get_bind
  intro h
  simp only
  generalize (if index.asInt.toInt < 0 then index.asInt.toInt + h.stringLength v + 1 else index.asInt.toInt) = i
  split
  · exact .throw _
  · exact newString_frames _

theorem insertInto_frames (v index inserted : Value) : Frames b (insertInto v index inserted) := by
  unfold insertInto
  split
  · exact (listInsert_frames _ _ _).bind fun _ => .pure _
  · exact insertText_frames _ _ _
  · exact insertText_frames _ _ _
  · exact .throw _

theorem mapItems_frames (select : Value × Value → Value) (v : Value) :
    Frames b fun h => newListOf ((h.mapEntries v).map select).toArray (h.entryRoom v) h :=
  .get_bind fun h => newListOf_frames ((h.mapEntries v).map select).toArray (h.entryRoom v)

theorem indexesOf_frames (v : Value) : Frames b (indexesOf v) := by
  unfold indexesOf
  split
  · exact Frames.get_bind fun h => newListOf_frames _ _
  · exact Frames.get_bind fun h => newListOf_frames _ _
  · exact Frames.get_bind fun h => newListOf_frames _ _
  · exact mapItems_frames Prod.fst _
  · exact .throw _

theorem valuesOf_frames (v : Value) : Frames b (valuesOf v) := by
  unfold valuesOf
  split
  · exact mapItems_frames Prod.snd _
  · exact .of_spares (stringSplit_spares _ _)
  · exact .of_spares (stringSplit_spares _ _)
  · exact .pure _

theorem joinItems_frames (v delimiter : Value) : Frames b (joinItems v delimiter) := by
  unfold joinItems
  apply Frames.get_bind
  intro h
  split
  · exact .throw _
  · exact newString_frames _

theorem splitAt_frames (v delimiter : Value) : Frames b (splitAt v delimiter) := by
  unfold splitAt
  split
  · apply (Frames.of_spares (toStringValue_spares delimiter)).bind
    intro text h intact
    have pieces : Framed b (h.protect text) (after (stringSplit v text) (h.protect text)) :=
      Frames.of_spares (stringSplit_spares v text) _ (protect_spared intact text).intact
    simp only [after] at pieces ⊢
    cases result : stringSplit v text (h.protect text) with
    | ok out s | error e s =>
        rw [result] at pieces
        exact pieces.unprotect
  · exact .throw _

theorem replaceItems_frames (v old new : Value) (items : List (Value × Nat)) : Frames b (replaceItems v old new items) := by
  induction items with
  | nil => exact .pure ()
  | cons item rest ih =>
      unfold replaceItems
      apply Frames.get_bind
      intro h
      simp only
      split
      · exact (listSet_frames _ _ _).bind fun _ => ih
      · exact ih

-- The map has the aliases that it had, whatever has been set.
theorem replaceEntries_framed {h : Heap} (old new : Value) (entries : List (Value × Value)) (intact : h.Intact) (beyond : Beyond b h v) :
    Framed b h (after (replaceEntries v old new entries) h) := by
  induction entries generalizing h with
  | nil => exact .refl intact
  | cons entry rest ih =>
      obtain ⟨set,later⟩ := mapSet_framed entry.1 new intact beyond
      simp only [replaceEntries]
      cases same : h.equal entry.2 old with
      | false =>
          have skipped := ih intact beyond
          simp only [after,bind,EStateM.bind,get_ok,same] at skipped ⊢
          exact skipped
      | true =>
          simp only [after,bind,EStateM.bind,get_ok,same,if_true] at set later ⊢
          cases result : mapSet v entry.1 new h with
          | error e s =>
              rw [result] at set
              exact set
          | ok _ s =>
              rw [result] at set later
              exact set.trans (ih set.intact later)

theorem replaceIn_framed {h : Heap} (old new : Value) (intact : h.Intact) (beyond : Beyond b h v) : Framed b h (after (replaceIn v old new) h) := by
  have inText : Frames b (inScope do
      let old ← toStringValue old
      modify (·.protect old)
      let new ← toStringValue new
      modify (·.protect new)
      stringReplace v old new) :=
    ((Frames.of_spares (toStringValue_spares _)).bind fun _ => (protecting_frames _).bind fun _ =>
      (Frames.of_spares (toStringValue_spares _)).bind fun _ => (protecting_frames _).bind fun _ =>
        .of_spares (stringReplace_spares _ _ _)).inScope
  unfold replaceIn
  split
  · exact inText h intact
  · exact inText h intact
  · exact (replaceItems_frames _ _ _ _).bind (fun _ => .pure _) h intact
  · rename_i r
    have replaced := replaceEntries_framed old new (h.mapEntries (.map r)) intact beyond
    cases result : replaceEntries (.map r) old new (h.mapEntries (.map r)) h with
    | ok _ s | error e s =>
        simp only [after,bind,EStateM.bind,get_ok,result] at replaced ⊢
        exact replaced
  · exact .refl intact

theorem sliceOf_frames (v : Value) (start : Int32) (stop : Value) (refused : Heap → Error) : Frames b (sliceOf v start stop refused) := by
  unfold sliceOf
  apply Frames.get_bind
  intro h
  split
  · exact .of_spares (expectItems_spares _ fun items => newListOf_spares _ _)
  · exact .of_spares (stringSlice_spares _ _ _)
  · exact .of_spares (stringSlice_spares _ _ _)
  · exact .throw _

theorem freeze_framed {h : Heap} (v : Value) (intact : h.Intact) : Framed b h (h.freeze v) := .same ((freeze_steps h v).intact intact) rfl

theorem frozenCopy_frames (v : Value) : Frames b (frozenCopy v) := by
  refine .get_bind fun h => (Frames.inScope (.of_spares (copyDeep_spares _ v []))).bind fun copied => ?_
  have frozen : Frames b (modify (·.freeze copied.1) : HeapM PUnit) := fun s intact => freeze_framed copied.1 intact
  exact frozen.bind fun _ => .pure copied.1

-- A new map of some entries, filled in a scope of its own.
def newFilled (entries : List (Value × Value)) : HeapM Value := inScope do
  let out ← newMap 2
  modify (·.protect out)
  setAll out entries
  pure out

theorem newFilled_spares (entries : List (Value × Value)) : Spares (newFilled entries) := by
  apply Spares.inScope
  intro h intact
  refine (newMap_spared 2 intact).bind ?_
  rintro _ s spared ⟨r,rfl,present,fresh,_⟩
  have protected_ := spared.trans (protect_spared spared.intact (.map r))
  refine Concludes.modify_bind ((Blank.setAll (s := s.protect (.map r)) ⟨fresh,_,present,rfl,rfl⟩ entries protected_).bind ?_)
  exact fun _ t done _ => .pure done trivial

theorem newChild_filled (parent : Value) : Machine.newChild parent = newFilled [(isaKey,parent)] := by
  simp only [Machine.newChild,newFilled,setAll,bind_assoc,pure_bind]

theorem pair_filled (key value : Value) : (inScope do
    let pair ← newMap 2
    modify (·.protect pair)
    mapSet pair (.shortText "key") key
    mapSet pair (.shortText "value") value
    pure pair) = newFilled [(.shortText "key",key),(.shortText "value",value)] := by
  simp only [newFilled,setAll,bind_assoc,pure_bind]

theorem newChild_frames (parent : Value) : Frames b (Machine.newChild parent) := by
  rw [newChild_filled]
  exact .of_spares (newFilled_spares _)

theorem entryPair_frames (container : Value) (index : Int32) : Frames b (Machine.entryPair container index) := by
  unfold Machine.entryPair
  apply Frames.get_bind
  intro h
  split
  · exact .pure _
  · rw [pair_filled]
    exact .of_spares (newFilled_spares _)

end RegisterMachine.Heap
