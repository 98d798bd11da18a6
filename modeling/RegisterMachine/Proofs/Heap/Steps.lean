import RegisterMachine.Heap.AliasMaps
import RegisterMachine.Heap.Arithmetic
import RegisterMachine.Heap.Freezing
import RegisterMachine.Proofs.Table.Invariant
import Mathlib.Logic.Relation

namespace RegisterMachine

-- An object changed in place: texts and functions stay, and the invariant of a table is kept.
inductive Object.Rewritten : Object → Object → Prop where
  | str : Rewritten (.str text) (.str text)
  | list : Rewritten (.list before) (.list after)
  | map : (before.Valid → after.Valid) → Rewritten (.map before) (.map after)
  | funcRef : Rewritten (.funcRef ref) (.funcRef ref)

theorem Object.Rewritten.refl (object : Object) : Rewritten object object := by
  cases object with
  | str text => exact .str
  | list list => exact .list
  | map table => exact .map id
  | funcRef ref => exact .funcRef

inductive Slot.Rewritten : Slot → Slot → Prop where
  | same : Rewritten slot slot
  | changed : slot.object = some before → before.Rewritten after →
      Rewritten slot { slot with object := some after }

theorem Slot.rewritten_map (slot : Slot) (change : Object → Object)
    (keeps : ∀ object, slot.object = some object → object.Rewritten (change object)) :
    slot.Rewritten { slot with object := slot.object.map change } := by
  obtain ⟨content,generation,charge,immortal⟩ := slot
  cases content with
  | none => exact .same
  | some object => exact .changed rfl (keeps object rfl)

-- An object that may be put into a slot: a table keeps its invariant, and a text is too long to be
-- interned.
structure Object.Sane (object : Object) : Prop where
  table : ∀ t, object = .map t → t.Valid
  text : ∀ text, object = .str text → Heap.internThreshold ≤ text.utf8ByteSize

namespace Heap

-- Two heaps that differ in roots, registers and switches only.
structure Apart (h h' : Heap) : Prop where
  slots : h'.slots = h.slots
  marks : h'.marks = h.marks
  work : h'.work = h.work
  free : h'.free = h.free
  live : h'.live = h.live
  bytes : h'.bytes = h.bytes
  threshold : h'.threshold = h.threshold
  history : h'.history = h.history
  interned : h'.interned = h.interned
  limit : h'.config.maxBytes = h.config.maxBytes

-- Two heaps with the same roots, registers included.
structure SameRoots (h h' : Heap) : Prop where
  shadow : h'.shadow = h.shadow
  scopes : h'.scopes = h.scopes
  roots : h'.roots = h.roots
  freeRoots : h'.freeRoots = h.freeRoots
  callbacks : h'.callbacks = h.callbacks
  registers : h'.registers = h.registers

theorem SameRoots.refl (h : Heap) : SameRoots h h := ⟨rfl,rfl,rfl,rfl,rfl,rfl⟩

theorem SameRoots.trans (first : SameRoots h h') (second : SameRoots h' h'') : SameRoots h h'' :=
  ⟨second.shadow.trans first.shadow,second.scopes.trans first.scopes,second.roots.trans first.roots,
    second.freeRoots.trans first.freeRoots,second.callbacks.trans first.callbacks,
    second.registers.trans first.registers⟩

-- The heap with the bytes of a new object counted, and the object put into a slot.
def allocated (h : Heap) (object : Object) : Handle × Heap :=
  { h with bytes := h.bytes + object.charge }.install object object.charge false

inductive Step : Heap → Heap → Prop where
  | apart : Apart h h' → Step h h'
  | rewrite {slots : Array Slot} : slots.size = h.slots.size →
      (∀ (i : Nat) (slot : Slot), h.slots[i]? = some slot → ∃ slot', slots[i]? = some slot' ∧ slot.Rewritten slot') →
      Step h { h with slots }
  | recharge : Step h (h.recharge r)
  | collect : Step h h.collect.2
  | install {object : Object} : object.Sane → h.exceedsLimit object.charge = false →
      Step h (h.allocated object).2
  | intern : Step h (h.intern text).2

abbrev Steps : Heap → Heap → Prop := Relation.ReflTransGen Step

-- The heap that an operation leaves, however it ends.
def after (operation : HeapM α) (h : Heap) : Heap :=
  match operation h with
  | .ok _ h => h
  | .error _ h => h

def Moves (operation : HeapM α) : Prop := ∀ h, Steps h (after operation h)

theorem Steps.apart (apart : Apart h h') : Steps h h' := .single (.apart apart)

theorem after_map (operation : HeapM α) (f : α → β) (h : Heap) : after (f <$> operation) h = after operation h := by
  cases result : operation h with
  | ok a s => simp only [after,Functor.map,EStateM.map,result]
  | error e s => simp only [after,Functor.map,EStateM.map,result]

theorem after_bind (first : HeapM α) (rest : α → HeapM β) (h : Heap) : after (first >>= rest) h = after first h ∨
    ∃ a, first h = .ok a (after first h) ∧ after (first >>= rest) h = after (rest a) (after first h) := by
  cases result : first h with
  | ok a s =>
      refine Or.inr ⟨a,?_,?_⟩
      · simp only [after,result]
      · simp only [after,bind,EStateM.bind,result]
  | error e s =>
      refine Or.inl ?_
      simp only [after,bind,EStateM.bind,result]

theorem after_read (make : Heap → HeapM α) (h : Heap) : after (fun s => make s s) h = after (make h) h := rfl

theorem after_inScope (operation : HeapM α) (h : Heap) : after (inScope operation) h = (after operation h.pushScope).popScope := by
  cases result : operation h.pushScope with
  | ok a s | error e s => simp only [after,inScope,result]

theorem Moves.map {operation : HeapM α} (f : α → β) (moves : Moves operation) : Moves (f <$> operation) := by
  intro h
  rw [after_map]
  exact moves h

theorem protect_apart (h : Heap) (v : Value) : Apart h (h.protect v) := by constructor <;> rfl

theorem pushScope_apart (h : Heap) : Apart h h.pushScope := by constructor <;> rfl

theorem popScope_apart (h : Heap) : Apart h h.popScope := by
  unfold popScope
  split <;> constructor <;> rfl

theorem unprotect_apart (h : Heap) : Apart h h.unprotect.2 := by
  unfold unprotect
  repeat' split
  all_goals constructor <;> rfl

theorem object?_slot {h : Heap} {r : Handle} {object : Object} :
    h.object? r = some object ↔
      ∃ slot, h.slots[r.index]? = some slot ∧ slot.generation = r.generation ∧ slot.object = some object := by
  unfold object?
  cases h.slots[r.index]? with
  | none => simp
  | some slot => simp

theorem modifyObject_step {h : Heap} {change : Object → Object}
    (keeps : ∀ slot object, h.slots[r.index]? = some slot → slot.object = some object →
      object.Rewritten (change object)) : Step h (h.modifyObject r change) := by
  refine .rewrite (by simp) ?_
  intro i slot present
  rw [Array.getElem?_modify,present]
  by_cases here : r.index = i
  · subst i
    exact ⟨_,by rw [if_pos rfl]; rfl,slot.rewritten_map change fun object => keeps slot object present⟩
  · exact ⟨slot,by simp [here],.same⟩

theorem modifyList_steps (h : Heap) (r : Handle) (change : ListObject → ListObject) :
    Steps h (h.modifyList r change) := by
  refine .single (modifyObject_step ?_)
  intro slot object _ _
  cases object with
  | list list => exact .list
  | str text => exact .str
  | map table => exact .map id
  | funcRef ref => exact .funcRef

theorem modifyTable_steps {h : Heap} {change : Table → Table}
    (keeps : ∀ slot table, h.slots[r.index]? = some slot → slot.object = some (.map table) →
      table.Valid → (change table).Valid) : Steps h (h.modifyTable r change) := by
  refine .single (modifyObject_step ?_)
  intro slot object present content
  cases object with
  | list list => exact .list
  | str text => exact .str
  | map table => exact .map (keeps slot table present content)
  | funcRef ref => exact .funcRef

theorem recharge_steps (h : Heap) (r : Handle) : Steps h (h.recharge r) := .single .recharge

theorem freezeObject_rewritten (object : Object) : object.Rewritten (freezeObject object) := by
  cases object with
  | list list => exact .list
  | str text => exact .str
  | map table => exact .map fun valid => valid.of_same rfl rfl
  | funcRef ref => exact .funcRef

theorem freeze_steps (h : Heap) (v : Value) : Steps h (h.freeze v) := by
  refine .single (.rewrite (by simp) ?_)
  intro i slot present
  rw [Array.getElem?_mapIdx,present]
  refine ⟨_,rfl,?_⟩
  split
  · exact slot.rewritten_map _ fun object _ => freezeObject_rewritten object
  · exact .same

theorem registers_apart (h : Heap) (registers : Array Register) : Apart h { h with registers } := by
  constructor <;> rfl

-- Some collections, one after the other.
abbrev Swept : Heap → Heap → Prop := Relation.ReflTransGen fun h h' => h' = h.collect.2

theorem Swept.steps (swept : Swept h h') : Steps h h' := by
  induction swept with
  | refl => exact .refl
  | tail _ last ih => subst last; exact ih.tail .collect

theorem collectIfDue_swept (h : Heap) : Swept h h.collectIfDue := by
  unfold collectIfDue
  split
  · exact .single rfl
  · exact .refl

theorem allocate_parts (object : Object) (h : Heap) :
    ∃ s, Swept h s ∧
      (s.exceedsLimit object.charge = true ∧ allocate object h = .error (.outOfMemory object.charge) s ∨
        s.exceedsLimit object.charge = false ∧
          allocate object h = .ok (s.allocated object).1 (s.allocated object).2) := by
  have forced : Swept h.collectIfDue
      (if h.collectIfDue.exceedsLimit object.charge then h.collectIfDue.collect.2 else h.collectIfDue) := by
    split
    · exact .single rfl
    · exact .refl
  refine ⟨_,(collectIfDue_swept h).trans forced,?_⟩
  simp only [allocate]
  generalize (if h.collectIfDue.exceedsLimit object.charge then h.collectIfDue.collect.2 else h.collectIfDue) = s
  cases exceeds : s.exceedsLimit object.charge with
  | true => exact Or.inl ⟨rfl,rfl⟩
  | false => exact Or.inr ⟨rfl,rfl⟩

theorem allocate_moves {object : Object} (sane : object.Sane) : Moves (allocate object) := by
  intro h
  obtain ⟨s,swept,⟨_,failed⟩ | ⟨room,made⟩⟩ := allocate_parts object h
  · simp only [after,failed]
    exact swept.steps
  · simp only [after,made]
    exact swept.steps.tail (.install sane room)

theorem sane_str {text : String} (long : internThreshold ≤ text.utf8ByteSize) : (Object.str text).Sane where
  table := fun t impossible => by cases impossible
  text := fun other same => by cases same; exact long

theorem sane_list (list : ListObject) : (Object.list list).Sane := by constructor <;> intro t impossible <;> cases impossible

theorem sane_funcRef (ref : FuncRef) : (Object.funcRef ref).Sane := by constructor <;> intro t impossible <;> cases impossible

theorem sane_map {table : Table} (valid : table.Valid) : (Object.map table).Sane where
  table := fun t same => by cases same; exact valid
  text := fun t impossible => by cases impossible

theorem newMap_moves (capacity : Nat) : Moves (newMap capacity) :=
  (allocate_moves (sane_map (Table.withCapacity_valid capacity))).map _

theorem newAliasMap_moves (first count : Nat) : Moves (newAliasMap first count) := by
  intro h
  have valid : { Table.withCapacity 0 with aliases := some (h.aliasesFor first count) }.Valid :=
    (Table.withCapacity_valid 0).of_same rfl rfl
  exact ((allocate_moves (sane_map valid)).map Value.map) h

end Heap

end RegisterMachine
