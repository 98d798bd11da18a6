import RegisterMachine.Proofs.Heap.Scripts

namespace RegisterMachine

def Object.keys : Object → List Value
  | .map table => table.entries.map Entry.key ++ table.aliases.elim [] fun aliases => aliases.bindings.toList.map Prod.fst
  | .str _ | .list _ | .funcRef _ => []

namespace Heap

-- No function: not the value itself, and nothing in it.
def Functionless (h : Heap) (v : Value) : Prop := v.isFuncRef = false ∧ ∀ r, Contains h v r → ∀ w ∈ h.contents r, w.isFuncRef = false

-- No function is part of a key, or of the name of an alias.
def DataKeys (h : Heap) : Prop := ∀ r object, h.object? r = some object → ∀ key ∈ object.keys, h.Functionless key

section

variable {f : Handle → Handle} {known : Handle → Prop} {h k : Heap}

theorem contents_live (member : w ∈ h.contents r) : h.isLive r = true := by
  unfold Heap.contents at member
  split at member
  · rename_i present
    rw [isLive,present]
    rfl
  · rename_i present
    rw [isLive,present]
    rfl
  · cases member

theorem Contains.inside (handle : v.handle? = some r) (member : w ∈ h.contents r) (contains : Contains h w q) : Contains h v q := by
  have start : Contains h v r := .self handle (contents_live member)
  induction contains with
  | self held live => exact .part start member held live
  | part _ listed held live ih => exact .part ih listed held live

theorem functionless_plain (plain : v.handle? = none) (h : Heap) : h.Functionless v := by
  refine ⟨?_,fun r contains => ?_⟩
  · cases v with
    | funcRef => cases plain
    | null | int | double | short | str | list | map => rfl
  · -- A value without a handle contains nothing.
    have empty : ∀ r, ¬ Contains h v r := by
      intro r contains
      induction contains with
      | self handle =>
          rw [plain] at handle
          cases handle
      | part _ _ _ _ ih => exact ih
    exact absurd contains (empty r)

theorem Mirrors.clear (mirrors : Mirrors f known h k) (data : h.DataKeys) : Clear known (fun v => v.Within known ∧ h.Functionless v) h where
  plain := fun v plain => ⟨Value.within_plain plain,functionless_plain plain h⟩
  within := fun _ => And.left
  data := fun _ clear => clear.2.1
  kinds := by
    rintro v w r ⟨within,_,inner⟩ handle handle' plain
    refine ⟨fun q held => ?_,plain,fun q contains => inner q ?_⟩
    · rw [handle'] at held
      exact within q (handle.trans held)
    · induction contains with
      | self held live =>
          rw [handle'] at held
          exact .self (handle.trans held) live
      | part _ member held live ih => exact .part ih member held live
  contents := by
    rintro v r ⟨within,_,inner⟩ handle w member
    refine ⟨(mirrors.contents (within r handle)).2 w member,inner r (.self handle (contents_live member)) w member,fun q contains => ?_⟩
    exact inner q (contains.inside handle member)
  keys := by
    intro r table here present entry member
    exact ⟨(mirrors.entry here present member).1,data r _ present _ (List.mem_append_left _ (List.mem_map_of_mem member))⟩
  names := by
    intro r table aliases here present bound binding member
    refine ⟨mirrors.refers here present (.aliased bound member),data r _ present _ (List.mem_append_right _ ?_)⟩
    rw [bound]
    exact List.mem_map_of_mem (Array.mem_toList_iff.mpr member)

theorem dataKeys_plain (plain : ∀ slot ∈ h.slots, ∀ object ∈ slot.object, ∀ key ∈ object.keys, key.handle? = none) : h.DataKeys := by
  intro r object present key member
  obtain ⟨slot,found,_,content⟩ := object?_slot.mp present
  exact functionless_plain (plain slot (Array.mem_of_getElem? found) object content key member) h

end

-- A step of a script: an operation on values among those given before, or a collection that only one run makes.
inductive Turn where
  | perform (operation : Operation) (operands : List Nat)
  | extra

def Turn.takes : Turn → List Nat
  | perform _ operands => operands
  | extra => []

structure Stage where
  heap : Heap
  -- The values that the host was given so far.
  given : List Value

namespace Stage

def start (config : HeapConfig) : Stage := ⟨.new config,[]⟩

def value (stage : Stage) (n : Nat) : Value := stage.given.getD n .null

def outcome (stage : Stage) (operation : Operation) (operands : List Nat) : Outcome :=
  (operation.answer (operands.map stage.value) stage.heap).1

def next (collects : Bool) (stage : Stage) : Turn → Stage
  | .perform operation operands => {
      heap := (operation.answer (operands.map stage.value) stage.heap).2
      given := stage.given ++ (stage.outcome operation operands).mentions }
  | .extra => if collects then { stage with heap := stage.heap.collect.2 } else stage

def run (collects : Bool) (stage : Stage) (turns : List Turn) : Stage := turns.foldl (next collects) stage

-- A collection keeps every value that is used from then on.
def Spares (stage : Stage) (turns : List Turn) : Prop :=
  ∀ n ∈ turns.flatMap Turn.takes, ∀ r, (stage.value n).handle? = some r → stage.heap.Survives r

-- Turns that collect find everything reachable that is used from then on.
def Careful (collects : Bool) : Stage → List Turn → Prop
  | _,[] => True
  | stage,turn :: rest =>
    (stage.heap.history.size < (stage.next collects turn).heap.history.size → stage.Spares (turn :: rest)) ∧
      Careful collects (stage.next collects turn) rest

def keys (stage : Stage) : Turn → List Value
  | .perform operation operands => operation.keys (operands.map stage.value)
  | .extra => []

-- No function is part of a key all along.
def Keyed (collects : Bool) : Stage → List Turn → Prop
  | _,[] => True
  | stage,turn :: rest =>
    (stage.heap.DataKeys ∧ ∀ key ∈ stage.keys turn, stage.heap.Functionless key) ∧ Keyed collects (stage.next collects turn) rest

def held (stage : Stage) (n : Nat) : Bool := match (stage.value n).handle? with
  | some r => stage.value n ∈ stage.heap.shadow ∧ stage.heap.isLive r
  | none => true

def guarded (collects : Bool) : Stage → List Turn → Bool
  | _,[] => true
  | stage,turn :: rest =>
    (stage.heap.history.size == (stage.next collects turn).heap.history.size || ((turn :: rest).flatMap Turn.takes).all stage.held) &&
      guarded collects (stage.next collects turn) rest

def plainlyKeyed (collects : Bool) : Stage → List Turn → Bool
  | _,[] => true
  | stage,turn :: rest =>
    stage.heap.slots.all (fun slot => slot.object.all fun object => object.keys.all (·.handle?.isNone)) &&
      (stage.keys turn).all (·.handle?.isNone) && plainlyKeyed collects (stage.next collects turn) rest

theorem spares_held {stage : Stage} {turns : List Turn} (kept : (turns.flatMap Turn.takes).all stage.held = true) : stage.Spares turns := by
  intro n taken r handle
  have here := List.all_eq_true.mp kept n taken
  simp only [held,handle,decide_eq_true_eq] at here
  exact Or.inr (.root (.shadow here.1) handle here.2)

theorem careful_guarded {collects : Bool} {stage : Stage} {turns : List Turn} (guarded : stage.guarded collects turns = true) :
    stage.Careful collects turns := by
  induction turns generalizing stage with
  | nil => trivial
  | cons turn rest ih =>
      obtain ⟨either,later⟩ := Bool.and_eq_true_iff.mp guarded
      refine ⟨fun grown => ?_,ih later⟩
      rcases Bool.or_eq_true_iff.mp either with quiet | kept
      · rw [beq_iff_eq] at quiet
        omega
      · exact spares_held kept

theorem keyed_plainly {collects : Bool} {stage : Stage} {turns : List Turn} (plain : stage.plainlyKeyed collects turns = true) :
    stage.Keyed collects turns := by
  induction turns generalizing stage with
  | nil => trivial
  | cons turn rest ih =>
      simp only [plainlyKeyed,Bool.and_eq_true,Array.all_eq_true_iff_forall_mem,Option.all_eq_true,List.all_eq_true,Option.isNone_iff_eq_none] at plain
      obtain ⟨⟨slots,keys⟩,later⟩ := plain
      exact ⟨⟨dataKeys_plain slots,fun key member => functionless_plain (keys key member) _⟩,ih later⟩

-- Two runs of a script before the same turns: what is used from then on is mirrored.
structure Parallel (f : Handle → Handle) (known : Handle → Prop) (turns : List Turn) (s t : Stage) : Prop where
  mirrors : Mirrors f known s.heap t.heap
  given : t.given.length = s.given.length
  values : ∀ n ∈ turns.flatMap Turn.takes, (s.value n).Within known ∧ t.value n = (s.value n).rename f

-- How two answers agree: but for handles, and these are apart and are the same as in every value used from then on.
structure Agrees (f : Handle → Handle) (known : Handle → Prop) (turns : List Turn) (s t : Stage) (outcome outcome' : Outcome) : Prop where
  apart : ∀ r q, known r → known q → f r = f q → r = q
  values : ∀ n ∈ turns.flatMap Turn.takes, (s.value n).Within known ∧ t.value n = (s.value n).rename f
  within : outcome.Within known
  same : outcome' = outcome.rename f

variable {f f' : Handle → Handle} {known known' : Handle → Prop} {h k : Heap} {turns rest : List Turn} {s t : Stage}

theorem Parallel.spares_back (parallel : Parallel f known turns s t) (spares : t.Spares turns) : s.Spares turns := by
  intro n taken r handle
  obtain ⟨within,same⟩ := parallel.values n taken
  refine (parallel.mirrors.survives (within r handle)).mp (spares n taken (f r) ?_)
  rw [same,Value.rename_handle,handle,Option.map_some]

-- Before a collection what it frees is forgotten.
theorem Parallel.survivors (parallel : Parallel f known turns s t) (spares : s.Spares turns) :
    Parallel f (fun r => known r ∧ s.heap.Survives r) turns s t where
  mirrors := parallel.mirrors.survivors
  given := parallel.given
  values := fun n taken => ⟨fun r handle => ⟨(parallel.values n taken).1 r handle,spares n taken r handle⟩,(parallel.values n taken).2⟩

-- If a turn collects in one of the runs, all that is known survives.
theorem Parallel.calm (parallel : Parallel f known turns s t) (grown : s.heap.history.size < h.history.size → s.Spares turns)
    (grown' : t.heap.history.size < k.history.size → t.Spares turns) :
    ∃ known', Parallel f known' turns s t ∧ Calm known' s.heap t.heap h k := by
  by_cases collected : s.heap.history.size < h.history.size ∨ t.heap.history.size < k.history.size
  · have spares : s.Spares turns := collected.elim grown fun later => parallel.spares_back (grown' later)
    exact ⟨_,parallel.survivors spares,Or.inl fun _ => And.right⟩
  · rw [not_or,Nat.not_lt,Nat.not_lt] at collected
    exact ⟨known,parallel,Or.inr collected⟩

theorem Parallel.taken {operation : Operation} {operands : List Nat} (parallel : Parallel f known (.perform operation operands :: rest) s t) :
    operands.map t.value = (operands.map s.value).map (Value.rename f) ∧ ∀ v ∈ operands.map s.value, v.Within known := by
  have taken : ∀ n ∈ operands, n ∈ (Turn.perform operation operands :: rest).flatMap Turn.takes := fun n member =>
    List.mem_flatMap.mpr ⟨_,List.mem_cons_self,member⟩
  constructor
  · rw [List.map_map]
    exact List.map_congr_left fun n member => (parallel.values n (taken n member)).2
  · intro v member
    obtain ⟨n,here,rfl⟩ := List.mem_map.mp member
    exact (parallel.values n (taken n here)).1

theorem value_append (h : Heap) (given more : List Value) (n : Nat) :
    (Stage.mk h (given ++ more)).value n = if n < given.length then given.getD n .null else more.getD (n - given.length) .null := by
  simp only [value,List.getD_eq_getElem?_getD,List.getElem?_append]
  split <;> rfl

theorem Parallel.later (parallel : Parallel f known turns s t) (grows : ∀ r, known r → known' r ∧ f' r = f r) :
    ∀ n ∈ turns.flatMap Turn.takes, (s.value n).Within known' ∧ t.value n = (s.value n).rename f' := by
  intro n taken
  obtain ⟨within,same⟩ := parallel.values n taken
  exact ⟨within.mono fun r here => (grows r here).1,same.trans (Mirrors.rename_within (fun r here => (grows r here).2) within).symm⟩

theorem Parallel.answered {outcome : Outcome} (parallel : Parallel f known (turn :: rest) s t) (mirrors : Mirrors f' known' h k)
    (grows : ∀ r, known r → known' r ∧ f' r = f r) (within : outcome.Within known') :
    Parallel f' known' rest ⟨h,s.given ++ outcome.mentions⟩ ⟨k,t.given ++ (outcome.rename f').mentions⟩ where
  mirrors := mirrors
  given := by simp only [List.length_append,parallel.given,Outcome.mentions_rename,List.length_map]
  values := by
    intro n taken
    rw [value_append,value_append,parallel.given,Outcome.mentions_rename,operand_rename]
    split
    · exact parallel.later grows n (List.mem_append_right _ taken)
    · exact ⟨operand_within within _,rfl⟩

theorem Parallel.perform {operation : Operation} {operands : List Nat} (parallel : Parallel f known (.perform operation operands :: rest) s t)
    (grown : s.heap.history.size < (s.next false (.perform operation operands)).heap.history.size → s.Spares (.perform operation operands :: rest))
    (grown' : t.heap.history.size < (t.next true (.perform operation operands)).heap.history.size → t.Spares (.perform operation operands :: rest))
    (data : s.heap.DataKeys) (keys : ∀ key ∈ s.keys (.perform operation operands), s.heap.Functionless key) :
    ∃ f' known', Parallel f' known' rest (s.next false (.perform operation operands)) (t.next true (.perform operation operands)) ∧
      Agrees f' known' (.perform operation operands :: rest) s t (s.outcome operation operands) (t.outcome operation operands) := by
  obtain ⟨known',parallel',calm⟩ := parallel.calm grown grown'
  obtain ⟨same,within⟩ := parallel'.taken
  have cleared := parallel'.mirrors.clear data
  have free : ∀ key ∈ operation.keys (operands.map s.value), key.Within known' ∧ s.heap.Functionless key := fun key member =>
    ⟨operation.keys_within within key member,keys key member⟩
  simp only [next,same] at calm
  obtain ⟨f'',known'',mirrors,grows,renamed,inside⟩ := operation.answer_matches parallel'.mirrors cleared within free calm
  rw [← same] at renamed
  refine ⟨f'',known'',?_,mirrors.apart,parallel'.later grows,inside,renamed⟩
  have answered := parallel'.answered mirrors grows inside
  rw [← renamed] at answered
  rwa [← same] at answered

theorem Parallel.extra (parallel : Parallel f known (.extra :: rest) s t)
    (grown : t.heap.history.size < (t.next true .extra).heap.history.size → t.Spares (.extra :: rest)) :
    ∃ known', Parallel f known' rest (s.next false .extra) (t.next true .extra) := by
  obtain ⟨known',parallel',calm⟩ := parallel.calm (h := s.heap) (fun later => absurd later (Nat.lt_irrefl _)) grown
  refine ⟨known',?_,parallel'.given,parallel'.values⟩
  rcases calm with kept | ⟨_,quiet⟩
  · exact parallel'.mirrors.collect_right kept
  · show Mirrors f known' s.heap t.heap.collect.2
    rw [collect_quiet quiet]
    exact parallel'.mirrors

theorem Parallel.start {config config' : HeapConfig} (turns : List Turn) (unlimited : config.maxBytes = none) (unlimited' : config'.maxBytes = none) :
    Parallel id (fun _ => False) turns (start config) (start config') where
  mirrors := {
    intact := new_intact config
    image := new_intact config'
    apart := fun _ _ none => none.elim
    objects := fun _ none => none.elim
    immortal := fun _ none => none.elim
    shadow := rfl
    scopes := rfl
    roots := Array.map_empty.symm
    freeRoots := rfl
    callbacks := Array.map_empty.symm
    registers := Array.map_empty.symm
    rooted := by
      intro v root
      cases root with
      | shadow member => cases member
      | persistent member => exact absurd member (Array.not_mem_empty _)
      | register member => exact absurd member (Array.not_mem_empty _)
      | name member => exact absurd member (Array.not_mem_empty _)
      | callback member _ => exact absurd member (Array.not_mem_empty _)
    interned := fun _ => rfl
    words := fun text r listed => by cases listed
    unlimited := ⟨unlimited,unlimited'⟩ }
  given := rfl
  values := fun _ _ => ⟨Value.within_plain rfl,rfl⟩

theorem Parallel.run (before : List Turn) (parallel : Parallel f known (before ++ rest) s t) (careful : s.Careful false (before ++ rest))
    (careful' : t.Careful true (before ++ rest)) (keyed : s.Keyed false (before ++ rest)) :
    ∃ f' known', Parallel f' known' rest (s.run false before) (t.run true before) ∧
      (s.run false before).Careful false rest ∧ (t.run true before).Careful true rest ∧ (s.run false before).Keyed false rest := by
  induction before generalizing f known s t with
  | nil => exact ⟨f,known,parallel,careful,careful',keyed⟩
  | cons turn before ih =>
      obtain ⟨spared,careful⟩ := careful
      obtain ⟨spared',careful'⟩ := careful'
      obtain ⟨⟨data,keys⟩,keyed⟩ := keyed
      cases turn with
      | perform operation operands =>
          obtain ⟨f',known',parallel',_⟩ := parallel.perform spared spared' data keys
          exact ih parallel' careful careful' keyed
      | extra =>
          obtain ⟨known',parallel'⟩ := parallel.extra spared'
          exact ih parallel' careful careful' keyed

end Stage

-- Whenever the second run collects besides, and whenever either run collects of itself, each operation of a script answers the
-- same. The renaming of its answer is that of its operands and of all that is used later.
theorem timing_unseen {config config' : HeapConfig} {script : List Turn} (unlimited : config.maxBytes = none)
    (unlimited' : config'.maxBytes = none) (careful : (Stage.start config).Careful false script)
    (careful' : (Stage.start config').Careful true script) (keyed : (Stage.start config).Keyed false script) :
    ∀ before operation operands rest, script = before ++ .perform operation operands :: rest →
      ∃ f known, Stage.Agrees f known (.perform operation operands :: rest) ((Stage.start config).run false before)
        ((Stage.start config').run true before) (((Stage.start config).run false before).outcome operation operands)
        (((Stage.start config').run true before).outcome operation operands) := by
  rintro before operation operands rest rfl
  have start := Stage.Parallel.start (before ++ .perform operation operands :: rest) unlimited unlimited'
  obtain ⟨f,known,parallel,⟨spared,_⟩,⟨spared',_⟩,⟨data,keys⟩,_⟩ := start.run before careful careful' keyed
  obtain ⟨f',known',_,agrees⟩ := parallel.perform spared spared' data keys
  exact ⟨f',known',agrees⟩

-- A map with an entry, made after a list that is used no more.
def filledMap : List Turn := [.perform (.make (.newList 0)) [],.extra,.perform (.make (.newMap 0)) [],.perform (.root .protect) [1],
  .perform (.make (.int 3)) [],.perform (.edit .mapSet) [1,2,2],.extra]

-- The second run has the map where the list was.
theorem timing_unseen_filledMap : ∃ f known, Stage.Agrees f known [.perform (.look .mapEntries) [1]] ((Stage.start {}).run false filledMap)
      ((Stage.start {}).run true filledMap) (.pairs [(.int 3,.int 3)]) (.pairs [(.int 3,.int 3)]) ∧
    ((Stage.start {}).run false filledMap).value 1 = .map ⟨1,0⟩ ∧ ((Stage.start {}).run true filledMap).value 1 = .map ⟨0,1⟩ := by
  have careful : (Stage.start {}).Careful false (filledMap ++ [.perform (.look .mapEntries) [1]]) :=
    Stage.careful_guarded (by decide +kernel)
  have careful' : (Stage.start {}).Careful true (filledMap ++ [.perform (.look .mapEntries) [1]]) :=
    Stage.careful_guarded (by decide +kernel)
  obtain ⟨f,known,agrees⟩ := timing_unseen rfl rfl careful careful' (Stage.keyed_plainly (by decide +kernel)) filledMap (.look .mapEntries) [1] [] rfl
  have shown : ((Stage.start {}).run false filledMap).outcome (.look .mapEntries) [1] = .pairs [(.int 3,.int 3)] := by decide +kernel
  have shown' : ((Stage.start {}).run true filledMap).outcome (.look .mapEntries) [1] = .pairs [(.int 3,.int 3)] := by decide +kernel
  rw [shown,shown'] at agrees
  exact ⟨f,known,agrees,by decide +kernel,by decide +kernel⟩

-- Two functions as keys of a map, made after a list that is used no more.
def functionKeys : List Turn := [.perform (.make (.newList 0)) [],.extra,.perform (.make (.newMap 0)) [],.perform (.root .protect) [1],
  .perform (.make (.newFuncRef 0)) [],.perform (.make (.int 0)) [],.perform (.edit .mapSet) [1,2,3],
  .perform (.make (.newFuncRef 1)) [],.perform (.make (.int 1)) [],.perform (.edit .mapSet) [1,4,5]]

-- A heap that collects before a third list.
def tightStart : Stage := .start { initialThreshold := 250 }

def looseLists : List Turn := [.perform (.make (.newList 8)) [],.extra,.perform (.make (.newList 0)) [],.perform (.make (.newList 0)) []]

-- Functions are hashed by their slots, so that the order of keys shows where they lie. And where an extra collection has made
-- room a later one is put off, which would have freed what is still used.
theorem timing_seen :
    ((Stage.start {}).Careful false (functionKeys ++ [.perform (.look .mapEntries) [1]]) ∧
      (Stage.start {}).Careful true (functionKeys ++ [.perform (.look .mapEntries) [1]]) ∧
      ∀ f, ((Stage.start {}).run true functionKeys).outcome (.look .mapEntries) [1] ≠
        (((Stage.start {}).run false functionKeys).outcome (.look .mapEntries) [1]).rename f) ∧
    ((tightStart.run true (looseLists.take 1)).Spares (looseLists.drop 1 ++ [.perform (.edit .listPush) [1,2]]) ∧
      tightStart.Keyed false (looseLists ++ [.perform (.edit .listPush) [1,2]]) ∧
      ∀ f, (tightStart.run true looseLists).outcome (.edit .listPush) [1,2] ≠
        ((tightStart.run false looseLists).outcome (.edit .listPush) [1,2]).rename f) := by
  refine ⟨⟨Stage.careful_guarded (by decide +kernel),Stage.careful_guarded (by decide +kernel),fun f same => ?_⟩,
    Stage.spares_held (by decide +kernel),Stage.keyed_plainly (by decide +kernel),fun f same => ?_⟩
  · have listed : ((Stage.start {}).run false functionKeys).outcome (.look .mapEntries) [1] =
        .pairs [(.funcRef ⟨2,0⟩,.int 0),(.funcRef ⟨3,0⟩,.int 1)] := by decide +kernel
    have listed' : ((Stage.start {}).run true functionKeys).outcome (.look .mapEntries) [1] =
        .pairs [(.funcRef ⟨2,0⟩,.int 1),(.funcRef ⟨1,0⟩,.int 0)] := by decide +kernel
    rw [listed,listed'] at same
    simp [Outcome.rename,Value.rename] at same
  · have stale : (tightStart.run false looseLists).outcome (.edit .listPush) [1,2] =
        .error .staleReference := by decide +kernel
    have done : (tightStart.run true looseLists).outcome (.edit .listPush) [1,2] = .fact .done := by
      decide +kernel
    rw [stale,done] at same
    cases same

end Heap

end RegisterMachine
