import RegisterMachine.Proofs.Heap.Iteration
import RegisterMachine.Proofs.Machine.Places
import RegisterMachine.Proofs.Machine.Reachable

namespace RegisterMachine.Machine

variable {m : Machine} {turn get : Word} {elements : List Element}

-- The two instructions of a loop. The destination is neither the index register nor that of the container.
structure LoopWords (turn get : Word) : Prop where
  turns : turn.opcode? = some .next
  gets : get.opcode? = some .iterGet
  container : get.b = turn.b
  index : get.c = turn.a
  apart : get.a ≠ turn.a ∧ get.a ≠ turn.b

-- A machine in a loop over a container that has these elements, with the index at this position. The registers
-- that the loop writes hold no variables of the container.
structure Looping (turn get : Word) (c : Value) (elements : List Element) (position : Int) (m : Machine) : Prop where
  kind : c.isList = true ∨ c.isString = true ∨ c.isMap = true
  index : ∃ i : Int32, m.heap.registerValue (m.base + turn.a) = .int i ∧ i.toInt = position
  container : m.heap.registerValue (m.base + turn.b) = c
  elements : m.heap.elements c = elements
  room : m.base + get.a < m.heap.registers.size
  apart : ¬ m.heap.Backs c (m.base + turn.a) ∧ ¬ m.heap.Backs c (m.base + get.a)

-- What can happen between the instructions of a loop: other instructions, new input and whole runs.
inductive Later : Machine → Machine → Prop where
  | refl {m : Machine} : Later m m
  | feed {m m' : Machine} (inputs : List String) : Later m m' → Later m { m' with inputs }
  | step {m m' : Machine} : Later m m' → Later m (left (step m'))
  | run {m m' : Machine} (budget : Nat) : Later m m' → Later m (m'.run budget).2

-- A loop that has gone round some times, with the machines before and after each element was got. What is
-- executed in between leaves the container, its elements and the index as they are.
inductive Looped (turn get : Word) (c : Value) (elements : List Element) : List (Machine × Machine) → Machine → Prop where
  | start {m : Machine} : m.Reachable → Looping turn get c elements (-1) m → Looped turn get c elements [] m
  | turn {turns : List (Machine × Machine)} {m m₁ m₂ m₃ m₄ : Machine} : Looped turn get c elements turns m →
      m.nextWord? = some turn → step m = .ok .next m₁ → m₁.pc = m.pc + 2 →
      Later m₁ m₂ → Looping turn get c elements turns.length m₂ →
      m₂.nextWord? = some get → step m₂ = .ok .next m₃ →
      Later m₃ m₄ → Looping turn get c elements turns.length m₄ → Looped turn get c elements (turns ++ [(m₂,m₃)]) m₄

theorem Later.reachable (later : Later m m') (reachable : m.Reachable) : m'.Reachable := by
  induction later with
  | refl => exact reachable
  | feed inputs _ ih => exact .feed inputs ih
  | step _ ih => exact .step ih
  | run budget _ ih => exact .run budget ih

theorem Later.stepped (later : Later m₁ m₂) (reachable : m.Reachable) (stepped : Machine.step m = .ok progress m₁) : m₂.Reachable := by
  have after := reachable.step
  rw [stepped] at after
  exact later.reachable after

theorem next_steps {index : Int32} {h : Heap} (next : m.nextWord? = some word) (known : word.opcode? = some .next)
    (moved : nextIndex (m.heap.registerValue (m.base + word.a)) = index)
    (heap : m.heap.setRegisterValue (m.base + word.a) (.int index) = h) :
    ∃ m', step m = .ok .next m' ∧ m'.heap = h ∧ m'.base = m.base ∧ m'.pc = m.pc +
      if 0 ≤ index.toInt ∧ index.toInt < ((h.length? (h.registerValue (m.base + word.b))).getD 0 : Nat) then 2 else 1 := by
  obtain ⟨log,dispatched,_⟩ := step_dispatches next
  rw [dispatched]
  simp only [dispatch,known,perform,bind,EStateM.bind,reg,setReg,modifyHeap,get_ok,moved,heap,skipNext]
  by_cases inside : 0 ≤ index.toInt ∧ index.toInt < ((h.length? (h.registerValue (m.base + word.b))).getD 0 : Nat)
  · simp only [if_pos inside]
    exact ⟨_,rfl,rfl,rfl,rfl⟩
  · simp only [if_neg inside]
    exact ⟨_,rfl,rfl,rfl,rfl⟩

theorem iterGet_steps (next : m.nextWord? = some word) (known : word.opcode? = some .iterGet) :
    ∃ log, step m = match iterated (m.heap.registerValue (m.base + word.b)) (m.heap.registerValue (m.base + word.c)).asInt
        { m with pc := m.pc + 1,log } with
      | .ok v s => .ok .next { s with heap := s.heap.setRegisterValue (s.base + word.a) v }
      | .error e s => .error e s := by
  obtain ⟨log,dispatched,_⟩ := step_dispatches next
  refine ⟨log,?_⟩
  rw [dispatched]
  simp only [dispatch,known,perform,bind,EStateM.bind,reg,setReg,modifyHeap]
  cases iterated (m.heap.registerValue (m.base + word.b)) (m.heap.registerValue (m.base + word.c)).asInt { m with pc := m.pc + 1,log } <;> rfl

theorem nextIndex_toInt {index : Int32} (below : index.toInt + 1 < 2 ^ 31) : (nextIndex (.int index)).toInt = index.toInt + 1 := by
  have high : index ≠ Int32.maxValue := by
    rintro rfl
    exact absurd below (by decide)
  have low := index.le_toInt
  change (if index = Int32.maxValue then Int32.maxValue else index + 1).toInt = index.toInt + 1
  rw [if_neg high,Int32.toInt_add]
  exact Int.bmod_eq_of_le (by simp; omega) (by simp; omega)

theorem iterated_element {index : Int32} {k : Nat} (intact : m.heap.Intact) (kind : c.isList = true ∨ c.isString = true ∨ c.isMap = true)
    (there : (m.heap.elements c)[k]? = some e) (at_ : index.toInt = k) :
    (∃ v h, iterated c index m = .ok v { m with heap := h } ∧ Heap.Spared m.heap h ∧ m.heap.Shows h e v) ∨
      ∃ bytes m', iterated c index m = .error (.outOfMemory bytes) m' ∧ m.heap.config.maxBytes ≠ none := by
  have string : c.isString = true → ∃ v h, readHeap (·.stringCharAt c index) m = .ok v { m with heap := h } ∧ Heap.Spared m.heap h ∧
      m.heap.Shows h e v := by
    intro string
    obtain ⟨v,got,shows⟩ := Heap.stringCharAt_element string there at_
    exact ⟨v,m.heap,by simp only [readHeap,got],.refl intact,shows⟩
  cases c with
  | null | int | double | funcRef => rcases kind with kind | kind | kind <;> cases kind
  | short | str => exact Or.inl (string rfl)
  | list r =>
      obtain ⟨v,got,shows⟩ := Heap.listGet_element there at_
      exact Or.inl ⟨v,m.heap,by simp only [iterated,readHeap,got],.refl intact,shows⟩
  | map r =>
      rcases Heap.entryPair_element intact there at_ with ⟨v,h,made,spared,shows⟩ | ⟨bytes,h,refused,limited⟩
      · exact Or.inl ⟨v,h,by simp only [iterated,onHeap,made],spared,shows⟩
      · exact Or.inr ⟨bytes,{ m with heap := h },by simp only [iterated,onHeap,refused],limited⟩

variable {c : Value} {k : Nat}

theorem Looping.distinct (looping : Looping turn get c elements position m) : turn.a ≠ turn.b := by
  intro same
  obtain ⟨i,held,_⟩ := looping.index
  rw [same,looping.container] at held
  subst held
  rcases looping.kind with kind | kind | kind <;> cases kind

theorem Looping.stores {m' : Machine} {h : Heap} (looping : Looping turn get c elements position m) (reachable : m.Reachable)
    (spared : Heap.Spared m.heap h) (base : m'.base = m.base) (heap : m'.heap = h.setRegisterValue (m.base + r) v)
    (apart : r ≠ turn.b) (unbacked : ¬ m.heap.Backs c (m.base + r))
    (index : ∃ i : Int32, m'.heap.registerValue (m'.base + turn.a) = .int i ∧ i.toInt = position') : Looping turn get c elements position' m' := by
  have kept := (looping.container ▸ reachable.secure.register (m.base + turn.b)).2
  have backs : ∀ j, m'.heap.Backs c j ↔ m.heap.Backs c j := fun j => by rw [heap,Heap.backs_set,spared.backs kept]
  refine ⟨looping.kind,index,?_,?_,?_,?_⟩
  · rw [heap,base,Heap.registerValue_set,if_neg fun same => apart (Nat.add_left_cancel same.1),Heap.registerValue,spared.extension.registers]
    exact looping.container
  · rw [heap,Heap.elements_set v fun bound => unbacked ((spared.backs kept).mp bound),spared.elements kept]
    exact looping.elements
  · rw [heap,base,Heap.setRegisterValue,Array.size_modify,spared.extension.registers]
    exact looping.room
  · simp only [backs,base]
    exact looping.apart

theorem Looping.moves (words : LoopWords turn get) (few : elements.length < 2 ^ 31) (reachable : m.Reachable)
    (looping : Looping turn get c elements (k - 1 : Int) m) (bounded : k ≤ elements.length) (next : m.nextWord? = some turn) :
    ∃ m', step m = .ok .next m' ∧ m'.pc = m.pc + (if k < elements.length then 2 else 1) ∧ Looping turn get c elements k m' := by
  obtain ⟨i,held,at_⟩ := looping.index
  have inside : m.base + turn.a < m.heap.registers.size := Heap.registerValue_inside held (by simp)
  generalize moved : nextIndex (m.heap.registerValue (m.base + turn.a)) = index
  have there : index.toInt = k := by
    rw [← moved,held,nextIndex_toInt (by omega)]
    omega
  generalize heap : m.heap.setRegisterValue (m.base + turn.a) (.int index) = h
  obtain ⟨m',stepped,rfl,base,pc⟩ := next_steps next words.turns moved heap
  have holds : m'.heap.registerValue (m'.base + turn.a) = .int index := by
    rw [base,← heap,Heap.registerValue_set,if_pos ⟨rfl,inside⟩]
  have spared := Heap.Spared.refl reachable.secure.safe.toIntact
  have after := looping.stores reachable spared base heap.symm looping.distinct looping.apart.1 ⟨index,holds,there⟩
  refine ⟨m',stepped,?_,after⟩
  have stored := reachable.step
  rw [stepped] at stored
  have length : (m'.heap.length? c).getD 0 = elements.length :=
    (Heap.length?_elements stored.secure.safe.toIntact c).trans (congrArg List.length after.elements)
  have more : (0 ≤ index.toInt ∧ index.toInt < (elements.length : Int)) ↔ k < elements.length := by omega
  rw [pc,← base,after.container,length]
  simp only [more]

theorem Looping.gets (words : LoopWords turn get) (reachable : m.Reachable) (looping : Looping turn get c elements k m)
    (there : elements[k]? = some e) (next : m.nextWord? = some get) :
    (∃ m', step m = .ok .next m' ∧ m.heap.Shows m'.heap e (m'.heap.registerValue (m'.base + get.a)) ∧ Looping turn get c elements k m') ∨
      ∃ bytes m', step m = .error (.outOfMemory bytes) m' ∧ m.heap.config.maxBytes ≠ none := by
  obtain ⟨i,held,at_⟩ := looping.index
  obtain ⟨log,stepped⟩ := iterGet_steps next words.gets
  rw [words.container,words.index,looping.container,held,Value.asInt] at stepped
  have intact := reachable.secure.safe.toIntact
  rcases @iterated_element { m with pc := m.pc + 1,log } c e i k intact looping.kind (looping.elements ▸ there) at_ with
    ⟨v,h,got,spared,shows⟩ | ⟨bytes,m',refused,limited⟩
  · rw [got] at stepped
    have room : m.base + get.a < h.registers.size := spared.extension.registers ▸ looping.room
    have holds : (h.setRegisterValue (m.base + get.a) v).registerValue (m.base + turn.a) = .int i := by
      rw [Heap.registerValue_set,if_neg fun same => words.apart.1 (Nat.add_left_cancel same.1),Heap.registerValue,spared.extension.registers]
      exact held
    refine Or.inl ⟨_,stepped,?_,looping.stores reachable spared rfl rfl words.apart.2 looping.apart.2 ⟨i,holds,at_⟩⟩
    simp only [Heap.registerValue_set,true_and,if_pos room]
    exact shows.set _ _
  · rw [refused] at stepped
    exact Or.inr ⟨bytes,m',stepped,limited⟩

theorem Looped.looping (looped : Looped turn get c elements turns m) : m.Reachable ∧ Looping turn get c elements (turns.length - 1 : Int) m := by
  induction looped with
  | start reachable looping => exact ⟨reachable,looping⟩
  | turn _ _ moved _ between _ _ got after looping ih =>
      refine ⟨after.stepped (between.stepped ih.1 moved) got,?_⟩
      rw [List.length_append,List.length_singleton,Nat.cast_add,Nat.cast_one,add_sub_cancel_right]
      exact looping

theorem Looped.bounded (words : LoopWords turn get) (few : elements.length < 2 ^ 31) (looped : Looped turn get c elements turns m) :
    turns.length ≤ elements.length := by
  induction looped with
  | start => exact Nat.zero_le _
  | turn looped next moved skipped _ _ _ _ _ _ ih =>
      obtain ⟨reachable,looping⟩ := looped.looping
      obtain ⟨_,stepped,pc,_⟩ := looping.moves words few reachable ih next
      cases stepped.symm.trans moved
      split at pc
      · rw [List.length_append,List.length_singleton]
        assumption
      · omega

theorem Looped.shown (words : LoopWords turn get) (few : elements.length < 2 ^ 31) (looped : Looped turn get c elements turns m)
    (member : turns[k]? = some (before,after)) :
    ∃ e, elements[k]? = some e ∧ before.heap.Shows after.heap e (after.heap.registerValue (after.base + get.a)) := by
  induction looped generalizing k with
  | start => cases member
  | @turn turns m m₁ m₂ m₃ m₄ looped next moved skipped between inside asks got later again ih =>
      have bounded := (Looped.turn looped next moved skipped between inside asks got later again).bounded words few
      rw [List.length_append,List.length_singleton] at bounded
      by_cases earlier : k < turns.length
      · rw [List.getElem?_append_left earlier] at member
        exact ih member
      · have last : k = turns.length := by
          have listed := (List.getElem?_eq_some_iff.mp member).1
          rw [List.length_append,List.length_singleton] at listed
          omega
        subst last
        rw [List.getElem?_concat_length] at member
        cases member
        have there : elements[turns.length]? = some elements[turns.length] := List.getElem?_eq_getElem bounded
        refine ⟨_,there,?_⟩
        rcases inside.gets words (between.stepped looped.looping.1 moved) there asks with ⟨_,stepped,shows,_⟩ | ⟨_,_,refused,_⟩
        · cases stepped.symm.trans got
          exact shows
        · cases refused.symm.trans got

-- A loop gets every element once, in order, and then ends, unless memory runs out; and the count of a map and
-- the entry at each place are those of the listed entries.
theorem loop_visits :
    (∀ m : Machine, m.Reachable → ∀ v, m.heap.mapCount v = (m.heap.mapEntries v).length ∧
      ∀ n, m.heap.nthEntry? v n = (m.heap.mapEntries v)[n]?) ∧
    (∀ h : Heap, h.Reachable → ∀ v, h.mapCount v = (h.mapEntries v).length ∧ ∀ n, h.nthEntry? v n = (h.mapEntries v)[n]?) ∧
    ∀ turn get, LoopWords turn get → ∀ c elements turns (m : Machine), elements.length < 2 ^ 31 → Looped turn get c elements turns m →
      turns.length ≤ elements.length ∧
      (∀ (k : Nat) (before after : Machine), turns[k]? = some (before,after) →
        ∃ e, elements[k]? = some e ∧ before.heap.Shows after.heap e (after.heap.registerValue (after.base + get.a))) ∧
      (m.nextWord? = some turn → ∃ m', step m = .ok .next m' ∧ m'.pc = m.pc + (if turns.length < elements.length then 2 else 1) ∧
        Looping turn get c elements turns.length m' ∧
        ∀ e, elements[turns.length]? = some e → ∀ before, Later m' before → Looping turn get c elements turns.length before →
          before.nextWord? = some get →
          (∃ after, step before = .ok .next after ∧ before.heap.Shows after.heap e (after.heap.registerValue (after.base + get.a)) ∧
            Looping turn get c elements turns.length after) ∨
          ∃ bytes after, step before = .error (.outOfMemory bytes) after ∧ before.heap.config.maxBytes ≠ none) := by
  have agree : ∀ h : Heap, h.Intact → ∀ v, h.mapCount v = (h.mapEntries v).length ∧ ∀ n, h.nthEntry? v n = (h.mapEntries v)[n]? :=
    fun h intact v => ⟨Heap.mapCount_entries intact v,fun n => Heap.nthEntry?_entries h v n⟩
  refine ⟨fun m reachable => agree _ reachable.secure.safe.toIntact,fun h reachable => agree h reachable.intact,?_⟩
  intro turn get words c elements turns m few looped
  refine ⟨looped.bounded words few,fun k before after member => looped.shown words few member,fun next => ?_⟩
  obtain ⟨reachable,looping⟩ := looped.looping
  obtain ⟨m',moved,pc,inside⟩ := looping.moves words few reachable (looped.bounded words few) next
  refine ⟨m',moved,pc,inside,fun e there before between again asks => ?_⟩
  exact again.gets words (between.stepped reachable moved) there asks

-- A loop over the variables of a function, of which there is one: it goes round once.
def loopOverVariables : Program where
  functions := [
    { name := "@main",registers := some 5,parameters := [],constants := [.string "x"]
      code := [.named "LOAD_rA_iBC" [1,7],.named "NAME_rA_kBC" [1,0],.named "LOCALS_rA" [2],.named "LOAD_rA_iBC" [3,-1],
        .named "NEXT_rA_rB" [3,2],.named "JUMP_iABC" [2],.named "ITERGET_rA_rB_rC" [4,2,3],.named "JUMP_iABC" [-4],.named "RETURN" []] }]

theorem loop_visits_variable : ∃ (turn get : Word) (c : Value) (before after m : Machine), LoopWords turn get ∧
    Looped turn get c [.entry (.shortText "x") (.int 7)] [(before,after)] m ∧
    (∃ r table, after.heap.registerValue (after.base + get.a) = .map r ∧
      after.heap.Models r table (Heap.pairMap (.shortText "x") (.int 7))) ∧
    ∃ m', step m = .ok .next m' ∧ m'.pc = m.pc + 1 := by
  obtain ⟨m,reachable,whole⟩ : ∃ m, m.Reachable ∧ m = ((Machine.load (.new { stackSlots := 5 }) loopOverVariables true).run 4).2 :=
    ⟨_,.run 4 (.load loopOverVariables true (.new { stackSlots := 5 })),rfl⟩
  generalize shape : [Element.entry (.shortText "x") (.int 7)] = elements
  generalize moving : Instruction.encodeUnchecked .next [3,2] = turn
  generalize getting : Instruction.encodeUnchecked .iterGet [4,2,3] = get
  generalize container : m.heap.registerValue 2 = c
  have words : LoopWords turn get := by
    rw [← moving,← getting]
    exact ⟨by decide,by decide,by decide,by decide,by decide⟩
  have facts : c.isMap = true ∧ m.nextWord? = some turn ∧ (left (step m)).nextWord? = some get ∧
      (left (step m)).heap.config.maxBytes = none ∧ (left (step (left (step (left (step m)))))).nextWord? = some turn ∧
      ∀ p ∈ [(m,(-1 : Int32)),(left (step (left (step (left (step m))))),0)],
        p.1.heap.registerValue (p.1.base + turn.a) = .int p.2 ∧ p.1.heap.registerValue (p.1.base + turn.b) = c ∧
        p.1.heap.elements c = elements ∧ p.1.base + get.a < p.1.heap.registers.size ∧
        p.1.heap.assigned? (p.1.base + turn.a) = none ∧ p.1.heap.assigned? (p.1.base + get.a) = none := by
    rw [← container,← shape,← moving,← getting,whole]
    decide +kernel
  obtain ⟨map,next,asks,unlimited,again,held⟩ := facts
  have looping : ∀ p ∈ [(m,(-1 : Int32)),(left (step (left (step (left (step m))))),0)],
      Looping turn get c elements p.2.toInt p.1 := by
    intro p member
    obtain ⟨index,holds,listed,room,apart,apart'⟩ := held p member
    exact ⟨Or.inr (Or.inr map),⟨p.2,index,rfl⟩,holds,listed,room,Heap.not_backs apart,Heap.not_backs apart'⟩
  have few : elements.length < 2 ^ 31 := by
    rw [← shape]
    decide
  have start : Looped turn get c elements [] m := .start reachable (looping (m,-1) (by simp))
  obtain ⟨_,_,first⟩ := loop_visits.2.2 turn get words c elements [] m few start
  obtain ⟨m₁,moved,pc,inside,shows⟩ := first next
  rw [moved] at asks unlimited again
  have there : elements[([] : List (Machine × Machine)).length]? = some (.entry (.shortText "x") (.int 7)) := by
    rw [← shape]
    rfl
  rcases shows _ there m₁ .refl inside asks with ⟨m₂,got,_⟩ | ⟨_,_,_,limited⟩
  · have back := looping (left (step (left (step (left (step m))))),0) (by simp)
    rw [moved,left,got] at back
    have looped : Looped turn get c elements [(m₁,m₂)] (left (step m₂)) :=
      .turn start next moved (by rw [pc,← shape]; rfl) .refl inside asks got (.step .refl) back
    obtain ⟨_,shown,ends⟩ := loop_visits.2.2 turn get words c elements [(m₁,m₂)] _ few looped
    obtain ⟨e,same,shows⟩ := shown 0 m₁ m₂ rfl
    cases there.symm.trans same
    rw [left,got] at again
    obtain ⟨m',stops,pc,_⟩ := ends again
    obtain ⟨r,table,map,_,models⟩ := shows
    rw [← shape] at pc
    exact ⟨turn,get,c,m₁,m₂,_,words,looped,⟨r,table,map,models⟩,m',stops,pc⟩
  · exact absurd unlimited limited

end RegisterMachine.Machine
