import RegisterMachine.Proofs.Heap.Actions
import RegisterMachine.Proofs.Heap.Endings

namespace RegisterMachine.Heap

inductive Call where
  | protect (v : Value) | unprotect | pushScope | popScope
  | addRoot (v : Value) | setRoot (id : Nat) (v : Value) | removeRoot (id : Nat)
  | registerCallback (marked : List Value) | unregisterCallback (id : Nat)
  | collect | disable | enable | setStress (stress : Bool)
  | resizeRegisters (size : Nat) | setRegisterValue (i : Nat) (v : Value) | setRegisterName (i : Nat) (name : Value)
  | assignRegister (i : Nat) (name v : Value) | unassign (i : Nat)
  | intern (text : String) | newString (text : String) | newFuncRef (function : Nat) (outer : Value)
  | newList (capacity : Nat) | newListOf (items : Array Value) (capacity : Nat)
  | newMap (capacity : Table.Wanted) | newAliasMap (first count : Nat)
  | listSet (v : Value) (index : Int32) (item : Value) | listPush (v item : Value)
  | listPop (v : Value) | listPull (v : Value) | listInsert (v : Value) (index : Int32) (item : Value)
  | listRemove (v : Value) (index : Int32) | listClear (v : Value) | listSlice (v : Value) (start stop : Int32)
  | listConcat (a b : Value) | listCopy (v : Value) | listSort (v byKey : Value)
  | mapSet (v key value : Value) | mapRemove (v key : Value) | mapClear (v : Value)
  | mapKeys (v : Value) | mapValues (v : Value) | mapCopy (v : Value)
  | bindRegister (v name : Value) (register : Nat) | gather (v : Value)
  | freeze (v : Value) | frozenCopy (v : Value)
  | stringConcat (a b : Value) | stringSubstring (v : Value) (start count : Int32)
  | stringSlice (v : Value) (start stop : Int32) | stringReplace (v old new : Value)
  | stringSplit (v delimiter : Value) | mapText (change : String → String) (v : Value)
  | stringRepeat (v : Value) (times : Double) | toStringValue (v : Value)
  | add (a b : Value) | mult (a b : Value) | div (a b : Value)

-- The heap after a call.
def Call.run (h : Heap) : Call → Heap
  | protect v => h.protect v
  | unprotect => h.unprotect.2
  | pushScope => h.pushScope
  | popScope => h.popScope
  | addRoot v => (h.addRoot v).2
  | setRoot id v => h.setRoot id v
  | removeRoot id => h.removeRoot id
  | registerCallback marked => (h.registerCallback marked).2
  | unregisterCallback id => (h.unregisterCallback id).2
  | collect => h.collect.2
  | disable => h.disable
  | enable => h.enable
  | setStress stress => { h with config.stress := stress }
  | resizeRegisters size => h.resizeRegisters size
  | setRegisterValue i v => h.setRegisterValue i v
  | setRegisterName i name => h.setRegisterName i name
  | assignRegister i name v => h.assignRegister i name v
  | unassign i => h.unassign i
  | intern text => (h.intern text).2
  | newString text => after (Heap.newString text) h
  | newFuncRef function outer => after (Heap.newFuncRef function outer) h
  | newList capacity => after (Heap.newList capacity) h
  | newListOf items capacity => after (Heap.newListOf items capacity) h
  | newMap capacity => after (Heap.newMap capacity) h
  | newAliasMap first count => after (Heap.newAliasMap first count) h
  | listSet v index item => after (Heap.listSet v index item) h
  | listPush v item => after (Heap.listPush v item) h
  | listPop v => after (Heap.listPop v) h
  | listPull v => after (Heap.listPull v) h
  | listInsert v index item => after (Heap.listInsert v index item) h
  | listRemove v index => after (Heap.listRemove v index) h
  | listClear v => after (Heap.listClear v) h
  | listSlice v start stop => after (Heap.listSlice v start stop) h
  | listConcat a b => after (Heap.listConcat a b) h
  | listCopy v => after (Heap.listCopy v) h
  | listSort v byKey => after (Heap.listSort v byKey) h
  | mapSet v key value => after (Heap.mapSet v key value) h
  | mapRemove v key => after (Heap.mapRemove v key) h
  | mapClear v => after (Heap.mapClear v) h
  | mapKeys v => after (Heap.mapKeys v) h
  | mapValues v => after (Heap.mapValues v) h
  | mapCopy v => after (Heap.mapCopy v) h
  | bindRegister v name register => after (Heap.bindRegister v name register) h
  | gather v => after (Heap.gather v) h
  | freeze v => h.freeze v
  | frozenCopy v => after (Heap.frozenCopy v) h
  | stringConcat a b => after (Heap.stringConcat a b) h
  | stringSubstring v start count => after (Heap.stringSubstring v start count) h
  | stringSlice v start stop => after (Heap.stringSlice v start stop) h
  | stringReplace v old new => after (Heap.stringReplace v old new) h
  | stringSplit v delimiter => after (Heap.stringSplit v delimiter) h
  | mapText change v => after (Heap.mapText change v) h
  | stringRepeat v times => after (Heap.stringRepeat v times) h
  | toStringValue v => after (Heap.toStringValue v) h
  | add a b => after (Heap.add a b) h
  | mult a b => after (Heap.mult a b) h
  | div a b => after (Heap.div a b) h

inductive Reachable : Heap → Prop where
  | new (config : HeapConfig) : Reachable (Heap.new config)
  | call (call : Call) : Reachable h → Reachable (call.run h)

theorem addRoot_apart (h : Heap) (v : Value) : Apart h (h.addRoot v).2 := by
  unfold addRoot
  split <;> constructor <;> rfl

theorem removeRoot_apart (h : Heap) (id : Nat) : Apart h (h.removeRoot id) := by
  unfold removeRoot
  split <;> constructor <;> rfl

theorem unregisterCallback_apart (h : Heap) (id : Nat) : Apart h (h.unregisterCallback id).2 := by
  unfold unregisterCallback
  split <;> constructor <;> rfl

theorem unregisterCallback_registers (h : Heap) (id : Nat) : (h.unregisterCallback id).2.registers = h.registers := by
  unfold unregisterCallback
  split <;> rfl

-- A list that a call sorts by the keys of its items.
def Call.SortsByKey (call : Call) (r : Handle) : Prop := ∃ byKey, call = .listSort (.list r) byKey ∧ byKey.isNull = false

-- The values that a call may enter as keys, or give to registers or aliases as names, of its own accord.
def Call.names : Call → List Value
  | mapSet _ key _ => [key]
  | setRegisterName _ name | assignRegister _ name _ | bindRegister _ name _ => [name]
  | _ => []

-- The map that a call is made to set, to remove from or to clear.
def Call.Writes (call : Call) (r : Handle) : Prop :=
  match call with
  | mapSet v _ _ | mapRemove v _ | mapClear v => v = .map r
  | _ => False

-- A map over registers as it is made.
def aliasTable (aliases : Aliases) : Table := { Table.withCapacity 0 with aliases := some aliases }

-- A call leaves the slots alone, does what its operation does, or makes a map over registers.
inductive Course (named written loose : Handle → Prop) : Heap → Heap → Prop where
  | apart : Apart h h' → (∀ register ∈ h'.registers, register.name.Named named) → Course named written loose h h'
  | deeds : Deeds named written loose h h' → Course named written loose h h'
  | aliasMap {aliases : Aliases} : Deeds named written loose h s → (∀ binding ∈ aliases.bindings, binding.1.Named named) →
      s.exceedsLimit (Object.map (aliasTable aliases)).charge = false →
      Course named written loose h (s.allocated (.map (aliasTable aliases))).2

theorem sane_aliasTable (aliases : Aliases) : (Object.map (aliasTable aliases)).Sane :=
  sane_map ((Table.withCapacity_valid 0).of_same rfl rfl)

theorem Course.steps (course : Course named written loose h h') : Steps h h' := by
  cases course with
  | apart apart => exact .apart apart
  | deeds deeds => exact deeds.steps
  | aliasMap deeds _ room => exact deeds.steps.tail (.install (sane_aliasTable _) room)

theorem Course.names (course : Course named written loose h h') (names : h.Names named) : h'.Names named := by
  cases course with
  | apart apart registers =>
      exact ⟨fun r table present => names.tables r table (by rwa [← object?_slots apart.slots]),registers⟩
  | deeds deeds => exact deeds.names names
  | aliasMap deeds bindings =>
      refine (deeds.names names).carry (allocated_roots _ _).registers fun r table present => ?_
      rcases install_before present with same | before
      · cases same
        exact Or.inl ⟨(Table.Named.withCapacity 0).keys,fun _ some binding member => bindings binding (by cases some; exact member)⟩
      · exact Or.inr ⟨table,before,rfl,rfl⟩

theorem after_newAliasMap (first count : Nat) (h : Heap) :
    after (newAliasMap first count) h = after (allocate (.map (aliasTable (h.aliasesFor first count)))) h :=
  (after_read (fun s => Value.map <$> allocate (.map (aliasTable (s.aliasesFor first count)))) h).trans (after_map _ _ h)

theorem newAliasMap_course (first count : Nat) {h : Heap} (names : h.Names named) :
    Course named written loose h (after (newAliasMap first count) h) := by
  rw [after_newAliasMap]
  obtain ⟨s,swept,⟨_,failed⟩ | ⟨room,done⟩⟩ := allocate_parts (.map (aliasTable (h.aliasesFor first count))) h
  · simp only [after,failed]
    exact .deeds (Swept.acts swept)
  · simp only [after,done]
    refine .aliasMap (Swept.acts swept) (fun binding member => ?_) room
    rw [h.aliasesFor_names first count binding member]
    exact names.registerName binding.2

theorem resizeRegisters_names {h : Heap} (names : h.Names named) (size : Nat) :
    ∀ register ∈ (h.resizeRegisters size).registers, register.name.Named named := by
  intro register member
  rcases Array.mem_append.mp member with old | fresh
  · rw [Array.take_eq_extract,Array.mem_extract_iff_getElem] at old
    obtain ⟨i,_,rfl⟩ := old
    exact names.registers _ (Array.getElem_mem _)
  · rw [(Array.mem_replicate.mp fresh).2]
    exact Value.named_other rfl

theorem Does.course {operation : HeapM α} (does : Does named written loose operation) (names : h.Names named) :
    Course named written loose h (after operation h) :=
  .deeds (does h names)

theorem Call.course (call : Call) {h : Heap} (names : h.Names named) (granted : ∀ v ∈ call.names, v.Named named)
    (writes : ∀ r, call.Writes r → written r) (may : ∀ r, call.SortsByKey r → loose r) : Course named written loose h (call.run h) := by
  cases call with
  | protect v => exact .deeds (protect_acts h v)
  | unprotect => exact .deeds (unprotect_acts h)
  | pushScope => exact .deeds (pushScope_acts h)
  | popScope => exact .deeds (popScope_acts h)
  | addRoot v => exact .deeds (addRoot_acts h v)
  | setRoot => exact .deeds .reroot
  | removeRoot id => exact .deeds (removeRoot_acts h id)
  | registerCallback | disable | enable | setStress => exact .apart (by constructor <;> rfl) names.registers
  | unregisterCallback id =>
      refine .apart (unregisterCallback_apart h id) fun register member => names.registers register ?_
      rwa [← unregisterCallback_registers h id]
  | resizeRegisters size => exact .apart (registers_apart h _) (resizeRegisters_names names size)
  | setRegisterValue => exact .deeds (.register fun _ held => held)
  | setRegisterName _ name => exact .deeds (.register fun _ _ => granted name List.mem_cons_self)
  | assignRegister _ name => exact .deeds (.register fun _ _ => granted name List.mem_cons_self)
  | unassign i => exact .deeds (unassign_acts h i)
  | collect => exact .deeds .collect
  | intern text => exact .deeds .intern
  | newString text => exact (newString_acts text).course names
  | newFuncRef function outer => exact (newFuncRef_acts function outer).course names
  | newList capacity => exact (newListOf_acts #[] capacity).course names
  | newListOf items capacity => exact (newListOf_acts items capacity).course names
  | newMap capacity => exact (newMap_makes capacity).performs.course names
  | newAliasMap first count => exact newAliasMap_course first count names
  | listSet v index item => exact (listSet_acts v index item).course names
  | listPush v item => exact (updateList_acts v _).course names
  | listPop v => exact (listPop_acts v).course names
  | listPull v => exact (listPull_acts v).course names
  | listInsert v index item => exact (listInsert_acts v index item).course names
  | listRemove v index => exact (listRemove_acts v index).course names
  | listClear v => exact (updateList_acts v _).course names
  | listSlice v start stop => exact (listSlice_acts v start stop).course names
  | listConcat a b => exact (listConcat_acts a b).course names
  | listCopy v => exact (listCopy_acts v).course names
  | listSort v byKey => exact (listSort_acts fun keyed r same => may r ⟨byKey,by rw [same],keyed⟩).course names
  | mapSet v key value => exact (mapSet_acts value (granted key List.mem_cons_self) writes).course names
  | mapRemove v key => exact (mapRemove_acts key writes).course names
  | mapClear v => exact (mapClear_acts writes).course names
  | mapKeys v => exact (mapKeys_acts v).course names
  | mapValues v => exact (mapValues_acts v).course names
  | mapCopy v => exact (mapCopy_makes v).performs.course names
  | bindRegister v name register => exact (bindRegister_acts v register (granted name List.mem_cons_self)).course names
  | gather v => exact (gather_acts v).course names
  | freeze v => exact .deeds .freeze
  | frozenCopy v => exact (frozenCopy_acts v).course names
  | stringConcat a b => exact (stringConcat_acts a b).course names
  | stringSubstring v start count => exact (stringSubstring_acts v start count).course names
  | stringSlice v start stop => exact (stringSlice_acts v start stop).course names
  | stringReplace v old new => exact (stringReplace_acts v old new).course names
  | stringSplit v delimiter => exact (stringSplit_acts v delimiter).course names
  | mapText change v => exact (mapText_acts change v).course names
  | stringRepeat v times => exact (stringRepeat_acts v times).course names
  | toStringValue v => exact (toStringValue_acts v).course names
  | add a b => exact (add_acts a b).course names
  | mult a b => exact (mult_acts a b).course names
  | div a b => exact (div_acts a b).course names

theorem Call.runs (call : Call) (h : Heap) (writes : ∀ r, call.Writes r → written r) (may : ∀ r, call.SortsByKey r → loose r) :
    Course (fun _ => True) written loose h (call.run h) :=
  call.course (.all h) (fun v _ => v.named_all) writes may

theorem Call.steps (call : Call) (h : Heap) : Steps h (call.run h) := by
  have course : Course (fun _ => True) (fun _ => True) (fun _ => True) h (call.run h) := call.runs h (fun _ _ => trivial) fun _ _ => trivial
  exact course.steps

theorem Reachable.calls (calls : List Call) (reachable : Reachable h) : Reachable (calls.foldl Call.run h) := by
  induction calls generalizing h with
  | nil => exact reachable
  | cons call rest ih => exact ih (.call call reachable)

theorem Reachable.intact (reachable : Reachable h) : h.Intact := by
  induction reachable with
  | new config => exact new_intact config
  | call call _ ih => exact (call.steps _).intact ih

-- A collection keeps exactly what is immortal or reached.
theorem collect_exact {h : Heap} (reachable : Reachable h) (enabled : h.disabled = 0) :
    (∀ r object, h.collect.2.object? r = some object ↔ h.object? r = some object ∧ h.Survives r) ∧
      (∀ r, h.isLive r = true → ¬ h.Survives r → h.collect.2.isLive r = false) ∧
      (∀ mark ∈ h.collect.2.marks, mark = false) ∧ h.collect.2.work = [] ∧
      h.collect.1 = ((h.freedSlots h.collect.2).map fun i => (h.slots.getD i default).charge).sum := by
  have clean := reachable.intact.toClean
  have collected := collect_clean clean
  refine ⟨fun r object => collect_object clean enabled,?_,?_,collected.idle,collect_bytes enabled⟩
  · intro r _ gone
    rw [isLive,Option.isSome_eq_false_iff,Option.isNone_iff_eq_none,Option.eq_none_iff_forall_ne_some]
    intro object present
    exact gone ((collect_object clean enabled).mp present).2
  · intro mark member
    obtain ⟨i,inside,rfl⟩ := Array.mem_iff_getElem.mp member
    have unset := collected.unmarked i
    rwa [Array.getD_eq_getD_getElem?,Array.getElem?_eq_getElem inside] at unset

-- A list that only holds itself goes; what a protected list holds stays.
theorem collect_exact_cycle :
    ∃ h : Heap, h.Reachable ∧ h.disabled = 0 ∧ h.isLive ⟨0,0⟩ = true ∧ ¬ h.Survives ⟨0,0⟩ ∧ h.Survives ⟨2,0⟩ := by
  have reachable := Reachable.calls [.newList 0,.listPush (.list ⟨0,0⟩) (.list ⟨0,0⟩),.newList 1,.newMap 4,
    .listPush (.list ⟨1,0⟩) (.map ⟨2,0⟩),.protect (.list ⟨1,0⟩)] (.new {})
  obtain ⟨exact_,_⟩ := collect_exact reachable (by decide +kernel)
  refine ⟨_,reachable,by decide +kernel,by decide +kernel,?_,?_⟩
  · intro survives
    have stays := (exact_ ⟨0,0⟩ (.list ⟨#[.list ⟨0,0⟩],4,false⟩)).mpr ⟨by decide +kernel,survives⟩
    revert stays
    decide +kernel
  · exact ((exact_ ⟨2,0⟩ (.map (.withCapacity 4))).mp (by decide +kernel)).2

end RegisterMachine.Heap
