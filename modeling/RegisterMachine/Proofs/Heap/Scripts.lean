import RegisterMachine.Proofs.Heap.CopyLockstep

namespace RegisterMachine.Heap

-- What can be seen of values without their handles.
inductive Fact where
  | done
  | flag (b : Bool)
  | count (n : Option Int)
  | double (d : Double)
  | text (text : String)
  | order (order : Ordering)
  | kind (kind : Kind)
deriving DecidableEq

inductive Outcome where
  | fact (fact : Fact)
  | value (v : Value)
  | values (values : Option (List Value))
  | pairs (pairs : List (Value × Value))
  | function (ref : Option FuncRef)
  | error (e : Error)
deriving DecidableEq

namespace Outcome

def flag (b : Bool) : Outcome := .fact (.flag b)
def count (n : Nat) : Outcome := .fact (.count (some n))
def place (found : Option Nat) : Outcome := .fact (.count (found.map Int.ofNat))
def optional (found : Option Value) : Outcome := .values (found.map fun v => [v])

-- The values that later operations can take.
def mentions : Outcome → List Value
  | fact _ | error _ => []
  | value v => [v]
  | values listed => listed.getD []
  | pairs listed => listed.flatMap fun pair => [pair.1,pair.2]
  | function ref => (ref.map FuncRef.outer).toList

def rename (f : Handle → Handle) : Outcome → Outcome
  | value v => .value (v.rename f)
  | values listed => .values (listed.map (List.map (Value.rename f)))
  | pairs listed => .pairs (listed.map (renamePair f))
  | function ref => .function (ref.map (FuncRef.rename f))
  | fact shown => .fact shown
  | error e => .error e

def Within (known : Handle → Prop) (outcome : Outcome) : Prop := ∀ v ∈ outcome.mentions, v.Within known

end Outcome

-- Operations that make values.
inductive Making where
  | null | int (i : Int32) | double (d : Double) | newString (text : String) | intern (text : String)
  | newList (capacity : Nat) | listOf | newMap (capacity : Table.Wanted) | newAliasMap (first count : Nat) | newFuncRef (function : Nat)
  | add | mult | div
  | toStringValue | stringConcat | stringSubstring (start count : Int32) | stringSlice (start stop : Int32) | stringCharAt (index : Int32)
  | stringReplace | stringSplit | mapText (change : String → String) | stringRepeat (times : Double)
  | listGet (index : Int32) | listPop | listPull | listSlice (start stop : Int32) | listConcat | listCopy
  | mapKeys | mapValues | mapCopy
  | frozenCopy

def Making.perform (making : Making) (operands : List Value) : HeapM Value :=
  let a := operands.getD 0 .null
  let b := operands.getD 1 .null
  let c := operands.getD 2 .null
  match making with
  | null => pure .null
  | int i => pure (.int i)
  | double d => pure (.double d)
  | newString text => Heap.newString text
  | intern text => interning text
  | newList capacity => Heap.newList capacity
  | listOf => listOfItems operands.toArray
  | newMap capacity => Heap.newMap capacity
  | newAliasMap first count => Heap.newAliasMap first count
  | newFuncRef function => Heap.newFuncRef function a
  | add => Heap.add a b
  | mult => Heap.mult a b
  | div => Heap.div a b
  | toStringValue => Heap.toStringValue a
  | stringConcat => Heap.stringConcat a b
  | stringSubstring start count => Heap.stringSubstring a start count
  | stringSlice start stop => Heap.stringSlice a start stop
  | stringCharAt index => reading (·.stringCharAt a index)
  | stringReplace => Heap.stringReplace a b c
  | stringSplit => Heap.stringSplit a b
  | mapText change => Heap.mapText change a
  | stringRepeat times => Heap.stringRepeat a times
  | listGet index => reading (·.listGet a index)
  | listPop => Heap.listPop a
  | listPull => Heap.listPull a
  | listSlice start stop => Heap.listSlice a start stop
  | listConcat => Heap.listConcat a b
  | listCopy => Heap.listCopy a
  | mapKeys => Heap.mapKeys a
  | mapValues => Heap.mapValues a
  | mapCopy => Heap.mapCopy a
  | frozenCopy => Heap.frozenCopy a

-- Operations that change a list or a map.
inductive Editing where
  | listSet (index : Int32) | listPush | listInsert (index : Int32) | listRemove (index : Int32) | listClear | listSort
  | mapSet | mapRemove | mapClear | bindRegister (register : Nat) | gather

def Editing.perform (editing : Editing) (operands : List Value) : HeapM Fact :=
  let a := operands.getD 0 .null
  let b := operands.getD 1 .null
  let c := operands.getD 2 .null
  match editing with
  | listSet index => (fun _ => .done) <$> Heap.listSet a index b
  | listPush => (fun _ => .done) <$> Heap.listPush a b
  | listInsert index => (fun _ => .done) <$> Heap.listInsert a index b
  | listRemove index => .flag <$> Heap.listRemove a index
  | listClear => (fun _ => .done) <$> Heap.listClear a
  | listSort => (fun _ => .done) <$> Heap.listSort a b
  | mapSet => (fun _ => .done) <$> Heap.mapSet a b c
  | mapRemove => .flag <$> Heap.mapRemove a b
  | mapClear => (fun _ => .done) <$> Heap.mapClear a
  | bindRegister register => (fun _ => .done) <$> Heap.bindRegister a b register
  | gather => (fun _ => .done) <$> Heap.gather a

-- The operands that an edit takes as keys.
def Editing.keys (editing : Editing) (operands : List Value) : List Value :=
  match editing with
  | mapSet | mapRemove | listSort => [operands.getD 1 .null]
  | _ => []

-- Operations that look at values.
inductive Looking where
  | sub | mod | conjoin | disjoin | negate | toNumber
  | less | atMost | compareNatural | compareStrings | equal | identical | same
  | isTruthy | display | literal | kind | asInt | asDouble
  | stringLength | stringIndexOf (start : Nat)
  | listItems | listCount | listIndexOf (start : Nat) | listContains
  | mapCount | mapCapacity | mapResizes | mapTryGet | mapGet | mapHasKey | mapInherited | mapOrigin | mapEntries | mapNth (n : Nat)
  | isFrozen | isAliasMap | function
  | registerValue (i : Nat) | registerName (i : Nat) | registerCount | root (id : Nat)

def Looking.see (looking : Looking) (operands : List Value) (h : Heap) : Outcome :=
  let a := operands.getD 0 .null
  let b := operands.getD 1 .null
  match looking with
  | sub => .value (Heap.sub a b)
  | mod => .value (Heap.mod a b)
  | conjoin => .value (h.conjoin a b)
  | disjoin => .value (h.disjoin a b)
  | negate => .value (h.negate a)
  | toNumber => .value (h.toNumber a)
  | less => .flag (h.less a b)
  | atMost => .flag (h.atMost a b)
  | compareNatural => .fact (.order (h.compareNatural a b))
  | compareStrings => .fact (.order (h.compareStrings a b))
  | equal => .flag (h.equal a b)
  | identical => .flag (a == b)
  | same => .flag (a.same b)
  | isTruthy => .flag (h.isTruthy a)
  | display => .fact (.text (h.display a))
  | literal => .fact (.text (h.literal a))
  | kind => .fact (.kind a.kind)
  | asInt => .fact (.count (some a.asInt.toInt))
  | asDouble => .fact (.double a.asDouble)
  | stringLength => .count (h.stringLength a)
  | stringIndexOf start => .place (h.stringIndexOf? a b start)
  | listItems => .values ((h.items? a).map Array.toList)
  | listCount => .count (h.listCount a)
  | listIndexOf start => .place (h.listIndexOf? a b start)
  | listContains => .flag (h.listContains a b)
  | mapCount => .count (h.mapCount a)
  | mapCapacity => .count (h.mapCapacity a)
  | mapResizes => .count (h.mapResizes a)
  | mapTryGet => .optional (h.lookup? a b)
  | mapGet => .value (h.lookup a b)
  | mapHasKey => .flag (h.lookup? a b).isSome
  | mapInherited => .optional (h.lookupInherited? a b)
  | mapOrigin => .pairs (h.lookupWithOrigin? a b).toList
  | mapEntries => .pairs (h.mapEntries a)
  | mapNth n => .pairs (h.nthEntry? a n).toList
  | isFrozen => .flag (h.isFrozen a)
  | isAliasMap => .flag (h.isAliasMap a)
  | function => .function (h.funcRef? a)
  | registerValue i => .value (h.registerValue i)
  | registerName i => .value (h.registerName i)
  | registerCount => .count h.registers.size
  | root id => .value (h.root id)

def Looking.keys (looking : Looking) (operands : List Value) : List Value :=
  match looking with
  | mapTryGet | mapGet | mapHasKey | mapInherited | mapOrigin => [operands.getD 1 .null]
  | _ => []

-- Operations on roots, and freezing in place.
inductive Rooting where
  | protect | unprotect | pushScope | popScope
  | addRoot | setRoot (id : Nat) | removeRoot (id : Nat) | registerCallback | unregisterCallback (id : Nat)
  | resizeRegisters (size : Nat) | setRegisterValue (i : Nat) | setRegisterName (i : Nat)
  | freeze | disable | enable

def Rooting.apply (rooting : Rooting) (operands : List Value) (h : Heap) : Outcome × Heap :=
  let a := operands.getD 0 .null
  match rooting with
  | protect => (.fact .done,h.protect a)
  | unprotect => (.optional h.unprotect.1,h.unprotect.2)
  | pushScope => (.fact .done,h.pushScope)
  | popScope => (.fact .done,h.popScope)
  | addRoot => (.count (h.addRoot a).1,(h.addRoot a).2)
  | setRoot id => (.fact .done,h.setRoot id a)
  | removeRoot id => (.fact .done,h.removeRoot id)
  | registerCallback => (.count (h.registerCallback operands).1,(h.registerCallback operands).2)
  | unregisterCallback id => (.flag (h.unregisterCallback id).1,(h.unregisterCallback id).2)
  | resizeRegisters size => (.fact .done,h.resizeRegisters size)
  | setRegisterValue i => (.fact .done,h.setRegisterValue i a)
  | setRegisterName i => (.fact .done,h.setRegisterName i a)
  | freeze => (.fact .done,h.freeze a)
  | disable => (.fact .done,h.disable)
  | enable => (.fact .done,h.enable)

inductive Operation where
  | make (making : Making)
  | edit (editing : Editing)
  | look (looking : Looking)
  | root (rooting : Rooting)
  | collect

namespace Operation

def perform (operation : Operation) (operands : List Value) : HeapM Outcome :=
  match operation with
  | make making => .value <$> making.perform operands
  | edit editing => .fact <$> editing.perform operands
  | look looking => fun h => .ok (looking.see operands h) h
  | root rooting => fun h => .ok (rooting.apply operands h).1 (rooting.apply operands h).2
  | collect => fun h => .ok (.fact .done) h.collect.2

-- What an operation answers, an error included, and the heap that it leaves.
def answer (operation : Operation) (operands : List Value) (h : Heap) : Outcome × Heap :=
  match operation.perform operands h with
  | .ok outcome h => (outcome,h)
  | .error e h => (.error e,h)

def keys (operation : Operation) (operands : List Value) : List Value :=
  match operation with
  | edit editing => editing.keys operands
  | look looking => looking.keys operands
  | _ => []

end Operation

variable {f : Handle → Handle} {known : Handle → Prop} {clear : Value → Prop} {h k : Heap} {operands : List Value} {calm : Heap → Heap → Prop}

theorem operand_rename (operands : List Value) (i : Nat) : (operands.map (Value.rename f)).getD i .null = (operands.getD i .null).rename f := by
  simp only [List.getD_eq_getElem?_getD,List.getElem?_map]
  cases operands[i]? <;> rfl

theorem operand_within (within : ∀ v ∈ operands, v.Within known) (i : Nat) : (operands.getD i .null).Within known := by
  rw [List.getD_eq_getElem?_getD]
  cases found : operands[i]? with
  | none => exact Value.within_plain rfl
  | some v => exact within v (List.mem_of_getElem? found)

theorem reading_alike (read read' : Heap → Except Error Value) (mirrors : Mirrors f known h k)
    (same : read' k = (read h).map (Value.rename f)) (gives : Gives (read h) (Value.Within known)) :
    Tallies calm (Still f known) (Alike f known) (reading read h) (reading read' k) := by
  unfold reading
  rw [same]
  cases result : read h with
  | error e => exact .error mirrors.still
  | ok v => exact .ok (mirrors.alike (gives.ok result))

theorem plain_map {read : Except Error Value} (gives : Gives read fun v => v.handle? = none) : read.map (Value.rename f) = read := by
  cases result : read with
  | error e => rfl
  | ok v => exact congrArg Except.ok (Value.rename_plain (gives.ok result))

theorem interning_alike (mirrors : Mirrors f known h k) (text : String) :
    Tallies calm (Still f known) (Alike f known) (interning text h) (interning text k) := by
  obtain ⟨f',known',mirrors',grows,_,same,within⟩ := mirrors.intern text
  exact .ok ⟨f',known',mirrors',grows,same,within⟩

theorem Making.perform_alike (making : Making) (mirrors : Mirrors f known h k) (cleared : Clear known clear h)
    (within : ∀ v ∈ operands, v.Within known) :
    Tallies (Calm known h k) (Still f known) (Alike f known) (making.perform operands h)
      (making.perform (operands.map (Value.rename f)) k) := by
  have a := operand_within within 0
  have b := operand_within within 1
  have c := operand_within within 2
  simp only [perform,operand_rename]
  generalize operands.getD 0 .null = x at a
  generalize operands.getD 1 .null = y at b
  generalize operands.getD 2 .null = z at c
  cases making with
  | null | int | double => exact .pure (mirrors.plain rfl)
  | newString text => exact newString_alike mirrors text
  | intern text => exact interning_alike mirrors text
  | newList capacity =>
      have none : ∀ item ∈ (#[] : Array Value), item.Within known := fun item member => absurd member (Array.not_mem_empty item)
      have made := newListOf_alike mirrors none capacity
      rwa [Array.map_empty] at made
  | listOf =>
      have made := newListOf_alike mirrors (fun item member => within item (List.mem_toArray.mp member)) operands.length
      simpa only [listOfItems,List.size_toArray,List.length_map,List.map_toArray] using made
  | newMap capacity => exact newMap_alike mirrors capacity
  | newAliasMap first count => exact newAliasMap_alike mirrors first count
  | newFuncRef function => exact newFuncRef_alike mirrors a function
  | add => exact add_alike mirrors cleared a b
  | mult => exact mult_alike mirrors a
  | div => exact div_alike mirrors a
  | toStringValue => exact toStringValue_alike mirrors a
  | stringConcat => exact stringConcat_alike mirrors a b
  | stringSubstring start count => exact stringSubstring_alike mirrors a start count
  | stringSlice start stop => exact stringSlice_alike mirrors a start stop
  | stringCharAt index =>
      have plain := stringCharAt_gives h x index
      refine reading_alike (·.stringCharAt x index) (·.stringCharAt (x.rename f) index) mirrors ?_ (plain.imp fun _ => Value.within_plain)
      rw [mirrors.stringCharAt a,plain_map plain]
  | stringReplace => exact stringReplace_alike mirrors a b c
  | stringSplit => exact stringSplit_alike mirrors a b
  | mapText change => exact mapText_alike mirrors a change
  | stringRepeat times => exact stringRepeat_alike mirrors a times
  | listGet index =>
      exact reading_alike (·.listGet x index) (·.listGet (x.rename f) index) mirrors (mirrors.listGet a index) (mirrors.closed.listGet a index)
  | listPop => exact listPop_alike mirrors a
  | listPull => exact listPull_alike mirrors a
  | listSlice start stop => exact listSlice_alike mirrors a start stop
  | listConcat => exact listConcat_alike mirrors a b
  | listCopy => exact listCopy_alike mirrors a
  | mapKeys => exact mapKeys_alike mirrors a
  | mapValues => exact mapValues_alike mirrors a
  | mapCopy => exact mapCopy_alike mirrors cleared a
  | frozenCopy => exact frozenCopy_alike mirrors cleared a

theorem Same.map {a b : α} (same : Same f known a b s t) (g : α → β) : Same f known (g a) (g b) s t := ⟨congrArg g same.1,same.2⟩

theorem Editing.perform_same (editing : Editing) (mirrors : Mirrors f known h k) (cleared : Clear known clear h)
    (within : ∀ v ∈ operands, v.Within known) (free : ∀ key ∈ editing.keys operands, clear key) :
    Tallies calm (Still f known) (Same f known) (editing.perform operands h) (editing.perform (operands.map (Value.rename f)) k) := by
  have a := operand_within within 0
  have b := operand_within within 1
  have c := operand_within within 2
  have through : ∀ {α : Type} {operation operation' : HeapM α} (g : α → Fact),
      Tallies calm (Still f known) (Same f known) (operation h) (operation' k) →
      Tallies calm (Still f known) (Same f known) ((g <$> operation) h) ((g <$> operation') k) := fun g tallies =>
    .map (tallies.mono (fun _ _ => id) fun _ _ _ _ same => same.map g)
  simp only [perform,operand_rename]
  cases editing with
  | listSet index => exact through _ (listSet_same mirrors a b index)
  | listPush => exact through _ (listPush_same mirrors a b)
  | listInsert index => exact through _ (listInsert_same mirrors a b index)
  | listRemove index => exact through _ (listRemove_same mirrors a index)
  | listClear => exact through _ (listClear_same mirrors a)
  | listSort => exact through _ (listSort_same mirrors cleared a b (free _ List.mem_cons_self))
  | mapSet => exact through _ (mapSet_same mirrors cleared a b (free _ List.mem_cons_self) c)
  | mapRemove => exact through _ (mapRemove_same mirrors cleared a b (free _ List.mem_cons_self))
  | mapClear => exact through _ (mapClear_same mirrors a)
  | bindRegister register => exact through _ (bindRegister_same mirrors a b register)
  | gather => exact through _ (gather_same mirrors cleared a)

namespace Mirrors

theorem same_rename {v w : Value} (mirrors : Mirrors f known h k) (left : v.Within known) (right : w.Within known) :
    (v.rename f).same (w.rename f) = v.same w := by
  have alike := Value.rename_beq mirrors.apart left right
  cases v <;> cases w <;> first | rfl | exact alike

theorem listContains (mirrors : Mirrors f known h k) (cleared : Clear known clear h) (within : v.Within known) (sought : w.Within known) :
    k.listContains (v.rename f) (w.rename f) = h.listContains v w := by
  simp only [Heap.listContains,mirrors.listIndexOf? cleared within sought]

theorem mapCapacity (mirrors : Mirrors f known h k) (within : v.Within known) : k.mapCapacity (v.rename f) = h.mapCapacity v := by
  simp only [Heap.mapCapacity,mirrors.table within]
  cases h.table? v with
  | none => rfl
  | some table => exact table.rename_size

theorem mapResizes (mirrors : Mirrors f known h k) (within : v.Within known) : k.mapResizes (v.rename f) = h.mapResizes v := by
  simp only [Heap.mapResizes,mirrors.table within]
  cases h.table? v <;> rfl

theorem nthEntry? (mirrors : Mirrors f known h k) (within : v.Within known) (n : Nat) :
    k.nthEntry? (v.rename f) n = (h.nthEntry? v n).map (renamePair f) := by
  simp only [nthEntry?_entries,mirrors.mapEntries within,List.getElem?_map]

end Mirrors

theorem Outcome.within_fact (shown : Fact) : (Outcome.fact shown).Within known := fun _ none => absurd none List.not_mem_nil

theorem Outcome.within_value (within : v.Within known) : (Outcome.value v).Within known := fun w member => by
  rw [List.mem_singleton.mp member]
  exact within

theorem Outcome.within_plain (plain : v.handle? = none) : (Outcome.value v).Within known := Outcome.within_value (Value.within_plain plain)

theorem Outcome.within_optional (within : ∀ v, found = some v → v.Within known) : (Outcome.optional found).Within known := by
  cases found with
  | none => exact fun _ member => absurd member List.not_mem_nil
  | some v => exact fun w member => List.mem_singleton.mp member ▸ within v rfl

theorem Outcome.within_pairs {pairs : List (Value × Value)} (within : ∀ pair ∈ pairs, pair.1.Within known ∧ pair.2.Within known) :
    (Outcome.pairs pairs).Within known := by
  intro v member
  obtain ⟨pair,listed,either⟩ := List.mem_flatMap.mp member
  rcases List.mem_cons.mp either with rfl | second
  · exact (within pair listed).1
  · rw [List.mem_singleton.mp second]
    exact (within pair listed).2

theorem Outcome.plain_rename (same : w = v) (plain : v.handle? = none) : Outcome.value w = (Outcome.value v).rename f := by
  rw [same]
  exact congrArg Outcome.value (Value.rename_plain plain).symm

theorem Looking.see_rename (looking : Looking) (mirrors : Mirrors f known h k) (cleared : Clear known clear h)
    (within : ∀ v ∈ operands, v.Within known) (free : ∀ key ∈ looking.keys operands, clear key) :
    looking.see (operands.map (Value.rename f)) k = (looking.see operands h).rename f := by
  have a := operand_within within 0
  have b := operand_within within 1
  simp only [see,operand_rename]
  generalize operands.getD 0 .null = x at a
  cases looking with
  | sub => exact Outcome.plain_rename (sub_rename _ _).1 (sub_rename (f := f) _ _).2
  | mod => exact Outcome.plain_rename (mod_rename _ _).1 (mod_rename (f := f) _ _).2
  | conjoin => exact Outcome.plain_rename (by rw [Heap.conjoin,mirrors.degree a,mirrors.degree b]; rfl) (ofDegree_plain _)
  | disjoin => exact Outcome.plain_rename (by rw [Heap.disjoin,mirrors.degree a,mirrors.degree b]; rfl) (ofDegree_plain _)
  | negate => exact Outcome.plain_rename (by rw [Heap.negate,mirrors.degree a]; rfl) (ofDegree_plain _)
  | toNumber => exact Outcome.plain_rename (mirrors.toNumber a) (toNumber_plain _ _)
  | less => exact congrArg Outcome.flag (mirrors.less a b)
  | atMost => exact congrArg Outcome.flag (mirrors.atMost a b)
  | compareNatural => exact congrArg (Outcome.fact ∘ .order) (mirrors.compareNatural a b)
  | compareStrings => exact congrArg (Outcome.fact ∘ .order) (mirrors.compareStrings a b)
  | equal => exact congrArg Outcome.flag (mirrors.equal cleared a b)
  | identical => exact congrArg Outcome.flag (Value.rename_beq mirrors.apart a b)
  | same => exact congrArg Outcome.flag (mirrors.same_rename a b)
  | isTruthy => exact congrArg Outcome.flag (mirrors.isTruthy a)
  | display => exact congrArg (Outcome.fact ∘ .text) (mirrors.render _ _ a)
  | literal => exact congrArg (Outcome.fact ∘ .text) (mirrors.render _ _ a)
  | kind => exact congrArg (Outcome.fact ∘ .kind) (Value.rename_kind _)
  | asInt => exact congrArg (fun i : Int32 => Outcome.fact (.count (some i.toInt))) (Value.rename_asInt _)
  | asDouble => exact congrArg (Outcome.fact ∘ .double) (Value.rename_asDouble _)
  | stringLength => exact congrArg Outcome.count (mirrors.stringLength a)
  | stringIndexOf start => exact congrArg Outcome.place (mirrors.stringIndexOf? a b start)
  | listItems =>
      simp only [mirrors.items a]
      cases h.items? x with
      | none => rfl
      | some items => exact congrArg (Outcome.values ∘ some) Array.toList_map
  | listCount => exact congrArg Outcome.count (mirrors.listCount a)
  | listIndexOf start => exact congrArg Outcome.place (mirrors.listIndexOf? cleared a b start)
  | listContains => exact congrArg Outcome.flag (mirrors.listContains cleared a b)
  | mapCount => exact congrArg Outcome.count (mirrors.mapCount a)
  | mapCapacity => exact congrArg Outcome.count (mirrors.mapCapacity a)
  | mapResizes => exact congrArg Outcome.count (mirrors.mapResizes a)
  | mapTryGet =>
      simp only [mirrors.lookup? cleared a b (free _ List.mem_cons_self)]
      cases h.lookup? x (operands.getD 1 .null) <;> rfl
  | mapGet => exact congrArg Outcome.value (mirrors.lookup cleared a b (free _ List.mem_cons_self))
  | mapHasKey =>
      simp only [mirrors.lookup? cleared a b (free _ List.mem_cons_self),Option.isSome_map]
      rfl
  | mapInherited =>
      simp only [lookupInherited?,lookupWithOrigin?,mirrors.lookupAlong cleared b (free _ List.mem_cons_self) _ a]
      cases h.lookupAlong (operands.getD 1 .null) maxIsaDepth x <;> rfl
  | mapOrigin =>
      simp only [lookupWithOrigin?,mirrors.lookupAlong cleared b (free _ List.mem_cons_self) _ a]
      cases h.lookupAlong (operands.getD 1 .null) maxIsaDepth x <;> rfl
  | mapEntries => exact congrArg Outcome.pairs (mirrors.mapEntries a)
  | mapNth n =>
      simp only [mirrors.nthEntry? a]
      cases h.nthEntry? x n <;> rfl
  | isFrozen => exact congrArg Outcome.flag (mirrors.isFrozen a)
  | isAliasMap => exact congrArg Outcome.flag (mirrors.isAliasMap a)
  | function => exact congrArg Outcome.function (mirrors.funcRef a)
  | registerValue i => exact congrArg Outcome.value (mirrors.registerValue i)
  | registerName i => exact congrArg Outcome.value (mirrors.registerName i)
  | registerCount => exact congrArg Outcome.count (by rw [mirrors.registers,Array.size_map])
  | root id => exact congrArg Outcome.value (mirrors.persistent id)

theorem Looking.see_within (looking : Looking) (mirrors : Mirrors f known h k) (within : ∀ v ∈ operands, v.Within known) :
    (looking.see operands h).Within known := by
  have a := operand_within within 0
  have closed := mirrors.closed
  simp only [see]
  generalize operands.getD 0 .null = x at a
  cases looking with
  | sub => exact Outcome.within_plain (sub_rename (f := f) _ _).2
  | mod => exact Outcome.within_plain (mod_rename (f := f) _ _).2
  | conjoin | disjoin | negate => exact Outcome.within_plain (ofDegree_plain _)
  | toNumber => exact Outcome.within_plain (toNumber_plain _ _)
  | less | atMost | compareNatural | compareStrings | equal | identical | same | isTruthy | display | literal | kind | asInt | asDouble
  | stringLength | stringIndexOf | listCount | listIndexOf | listContains | mapCount | mapCapacity | mapResizes | mapHasKey | isFrozen
  | isAliasMap | registerCount => exact Outcome.within_fact _
  | listItems =>
      intro v member
      cases found : h.items? x with
      | none =>
          rw [found] at member
          cases member
      | some items =>
          rw [found] at member
          exact closed.items a found v (Array.mem_toList_iff.mp member)
  | mapTryGet => exact Outcome.within_optional fun v found => closed.lookup? a found
  | mapGet => exact Outcome.within_value (closed.lookup a _)
  | mapInherited => exact Outcome.within_optional fun v found => closed.lookupInherited? a found
  | mapOrigin => exact Outcome.within_pairs fun pair found => closed.lookupAlong a (Option.mem_toList.mp found)
  | mapEntries => exact Outcome.within_pairs fun pair listed => closed.entries a listed
  | mapNth n => exact Outcome.within_pairs fun pair found => closed.nthEntry? a (Option.mem_toList.mp found)
  | function =>
      intro v member
      obtain ⟨ref,found,rfl⟩ := Option.map_eq_some_iff.mp (Option.mem_toList.mp member)
      exact closed.outer a found
  | registerValue i => exact Outcome.within_value (closed.registerValue i)
  | registerName i => exact Outcome.within_value (closed.registerName i)
  | root id => exact Outcome.within_value (closed.persistent id)

theorem Mirrors.setRegisterValue (mirrors : Mirrors f known h k) (i : Nat) (within : v.Within known) :
    Mirrors f known (h.setRegisterValue i v) (k.setRegisterValue i (v.rename f)) :=
  mirrors.modifyRegister i (fun _ => rfl) fun old member => ⟨within,show old.name.Within known from mirrors.rooted _ (.name member)⟩

theorem Mirrors.disabling (mirrors : Mirrors f known h k) (n m : Nat) : Mirrors f known { h with disabled := n } { k with disabled := m } := by
  refine mirrors.reroot ⟨rfl,rfl,rfl,rfl,rfl,rfl,rfl,rfl,rfl,rfl⟩ ⟨rfl,rfl,rfl,rfl,rfl,rfl,rfl,rfl,rfl,rfl⟩ mirrors.shadow mirrors.scopes
    mirrors.roots mirrors.freeRoots mirrors.callbacks mirrors.registers fun v root => mirrors.rooted v ?_
  cases root with
  | shadow member => exact .shadow member
  | persistent member => exact .persistent member
  | register member => exact .register member
  | name member => exact .name member
  | callback member marked => exact .callback member marked

theorem Rooting.apply_mirrors (rooting : Rooting) (mirrors : Mirrors f known h k) (within : ∀ v ∈ operands, v.Within known) :
    Mirrors f known (rooting.apply operands h).2 (rooting.apply (operands.map (Value.rename f)) k).2 ∧
      (rooting.apply (operands.map (Value.rename f)) k).1 = (rooting.apply operands h).1.rename f ∧
      (rooting.apply operands h).1.Within known := by
  have a := operand_within within 0
  simp only [apply,operand_rename]
  generalize operands.getD 0 .null = x at a
  have silent : (Outcome.fact .done).Within known := Outcome.within_fact _
  cases rooting with
  | protect => exact ⟨mirrors.protect a,rfl,silent⟩
  | unprotect =>
      obtain ⟨popped,same,held⟩ := mirrors.unprotect
      refine ⟨popped,?_,Outcome.within_optional held⟩
      simp only [same]
      cases h.unprotect.1 <;> rfl
  | pushScope => exact ⟨mirrors.pushScope,rfl,silent⟩
  | popScope => exact ⟨mirrors.popScope,rfl,silent⟩
  | addRoot => exact ⟨(mirrors.addRoot a).2,congrArg Outcome.count (mirrors.addRoot a).1,Outcome.within_fact _⟩
  | setRoot id => exact ⟨mirrors.setRoot a id mirrors.freeRoots,rfl,silent⟩
  | removeRoot id => exact ⟨mirrors.removeRoot id,rfl,silent⟩
  | registerCallback =>
      exact ⟨(mirrors.registerCallback within).2,congrArg Outcome.count (mirrors.registerCallback within).1,Outcome.within_fact _⟩
  | unregisterCallback id =>
      exact ⟨(mirrors.unregisterCallback id).2,congrArg Outcome.flag (mirrors.unregisterCallback id).1,Outcome.within_fact _⟩
  | resizeRegisters size => exact ⟨mirrors.resizeRegisters size,rfl,silent⟩
  | setRegisterValue i => exact ⟨mirrors.setRegisterValue i a,rfl,silent⟩
  | setRegisterName i => exact ⟨mirrors.setRegisterName i a,rfl,silent⟩
  | freeze => exact ⟨mirrors.freeze a,rfl,silent⟩
  | disable | enable => exact ⟨mirrors.disabling _ _,rfl,silent⟩

def Matching (f : Handle → Handle) (known : Handle → Prop) (outcome outcome' : Outcome) (s t : Heap) : Prop :=
  ∃ f' known', Mirrors f' known' s t ∧ (∀ r, known r → known' r ∧ f' r = f r) ∧ outcome' = outcome.rename f' ∧ outcome.Within known'

theorem collect_quiet {h : Heap} (quiet : h.collect.2.history.size ≤ h.history.size) : h.collect.2 = h := by
  by_cases enabled : h.disabled = 0
  · rw [collect_history enabled] at quiet
    omega
  · rw [collect_disabled enabled]

theorem Mirrors.collected (mirrors : Mirrors f known h k) (calm : Calm known h k h.collect.2 k.collect.2) :
    Mirrors f known h.collect.2 k.collect.2 := by
  rcases calm with kept | ⟨left,right⟩
  · have survives : ∀ r, known r → h.collect.2.Survives r := fun r here => (collect_extends mirrors.intact).survives (kept r here)
    exact (mirrors.collect_left kept).collect_right survives
  · rw [collect_quiet left,collect_quiet right]
    exact mirrors

theorem Operation.keys_within (operation : Operation) (within : ∀ v ∈ operands, v.Within known) :
    ∀ key ∈ operation.keys operands, key.Within known := by
  intro key member
  have second : key = operands.getD 1 .null := by
    cases operation with
    | make | root | collect => cases member
    | edit editing => cases editing <;> first | exact List.mem_singleton.mp member | cases member
    | look looking => cases looking <;> first | exact List.mem_singleton.mp member | cases member
  rw [second]
  exact operand_within within 1

theorem Operation.perform_tallies (operation : Operation) (mirrors : Mirrors f known h k) (cleared : Clear known clear h)
    (within : ∀ v ∈ operands, v.Within known) (free : ∀ key ∈ operation.keys operands, clear key) :
    Tallies (Calm known h k) (Still f known) (Matching f known) (operation.perform operands h)
      (operation.perform (operands.map (Value.rename f)) k) := by
  cases operation with
  | make making =>
      refine .map ((making.perform_alike mirrors cleared within).mono (fun _ _ => id) fun v w s t alike => ?_)
      obtain ⟨f',known',mirrors',grows,rfl,inside⟩ := alike
      exact ⟨f',known',mirrors',grows,rfl,Outcome.within_value inside⟩
  | edit editing =>
      refine .map ((editing.perform_same mirrors cleared within free).mono (fun _ _ => id) fun shown other s t same => ?_)
      obtain ⟨rfl,f',known',mirrors',grows⟩ := same
      exact ⟨f',known',mirrors',grows,rfl,Outcome.within_fact _⟩
  | look looking =>
      exact .ok ⟨f,known,mirrors,fun _ here => ⟨here,rfl⟩,looking.see_rename mirrors cleared within free,looking.see_within mirrors within⟩
  | root rooting =>
      obtain ⟨mirrors',same,inside⟩ := rooting.apply_mirrors mirrors within
      exact .ok ⟨f,known,mirrors',fun _ here => ⟨here,rfl⟩,same,inside⟩
  | collect => exact fun calm => ⟨f,known,mirrors.collected calm,fun _ here => ⟨here,rfl⟩,rfl,Outcome.within_fact _⟩

theorem Operation.answer_matches (operation : Operation) (mirrors : Mirrors f known h k) (cleared : Clear known clear h)
    (within : ∀ v ∈ operands, v.Within known) (free : ∀ key ∈ operation.keys operands, clear key)
    (calm : Calm known h k (operation.answer operands h).2 (operation.answer (operands.map (Value.rename f)) k).2) :
    Matching f known (operation.answer operands h).1 (operation.answer (operands.map (Value.rename f)) k).1
      (operation.answer operands h).2 (operation.answer (operands.map (Value.rename f)) k).2 := by
  have tallies := operation.perform_tallies mirrors cleared within free
  unfold answer at calm ⊢
  cases first : operation.perform operands h with
  | ok outcome s =>
      cases second : operation.perform (operands.map (Value.rename f)) k with
      | ok outcome' t =>
          rw [first,second] at tallies
          simp only [first,second] at calm ⊢
          exact tallies calm
      | error e' t =>
          rw [first,second] at tallies
          simp only [first,second] at calm
          exact absurd calm tallies
  | error e s =>
      cases second : operation.perform (operands.map (Value.rename f)) k with
      | ok outcome' t =>
          rw [first,second] at tallies
          simp only [first,second] at calm
          exact absurd calm tallies
      | error e' t =>
          rw [first,second] at tallies
          simp only [first,second] at calm ⊢
          obtain ⟨rfl,f',known',mirrors',grows⟩ := tallies calm
          exact ⟨f',known',mirrors',grows,rfl,fun v member => absurd member List.not_mem_nil⟩

theorem Outcome.mentions_rename (outcome : Outcome) : (outcome.rename f).mentions = outcome.mentions.map (Value.rename f) := by
  cases outcome with
  | fact | value | error => rfl
  | values listed => cases listed <;> rfl
  | pairs listed =>
      simp only [rename,mentions,List.flatMap_map,List.map_flatMap]
      rfl
  | function ref => cases ref <;> rfl

end RegisterMachine.Heap
