import RegisterMachine.Proofs.Heap.Endings
import RegisterMachine.Proofs.Machine.CallStack

namespace RegisterMachine.Machine

inductive Failure where
  | error (e : Error)
  | outOfRange

abbrev StrictM := EStateM Failure Machine

-- An operation that reads no table directly.
def plainly (operation : MachineM α) : StrictM α := fun m =>
  match operation m with
  | .ok a m => .ok a m
  | .error e m => .error (.error e) m

def element (table : Array α) (i : Nat) : StrictM α :=
  match table[i]? with
  | some a => pure a
  | none => throw .outOfRange

def oneLess (n : Nat) : StrictM Nat := if n = 0 then throw .outOfRange else pure (n - 1)

def currentFunction : StrictM Function := do
  let m ← get
  element m.functions m.function

def strictParameters (callee : Function) (base : Nat) : Nat → List Value → StrictM Unit
  | _, [] => pure ()
  | p, v :: rest => do
    let parameter ← element callee.parameters p
    plainly (modifyHeap (·.assignRegister (base + 1 + p) parameter.name v))
    strictParameters callee base (p + 1) rest

def strictDefaults (callee : Function) (base : Nat) : List Nat → StrictM Unit
  | [] => pure ()
  | p :: rest => do
    let parameter ← element callee.parameters p
    plainly (modifyHeap (·.assignRegister (base + 1 + p) parameter.name parameter.default))
    strictDefaults callee base rest

def strictPass (index count first base : Nat) : StrictM Unit := do
  let m ← get
  let callee ← element m.functions index
  let expected := callee.parameters.size - first
  if count > expected then throw (.error (.tooManyArguments count expected))
  let caller ← currentFunction
  match argumentValues m caller.code count m.pc with
  | .error e => throw (.error e)
  | .ok values =>
    strictParameters callee base first values
    strictDefaults callee base (List.range' (first + count) (callee.parameters.size - (first + count)))
    plainly (modifyHeap (clearWindow callee base))

def strictEnter (request : CallRequest) : StrictM Unit := do
  let m ← get
  match m.functions[request.function]? with
  | none => throw (.error (.invalidFunction request.function))
  | some callee =>
    let binds := m.bindsReceiver callee
    if callee.native.isNone && m.frames.size ≥ m.config.callSlots then throw (.error .callStackOverflow)
    plainly (ensureWindow request.base callee.registers)
    match request.arguments with
    | some count => strictPass request.function count (if binds then 1 else 0) request.base
    | none => pure ()
    plainly (greet request callee binds m.pending)

def strictAbove (f : FuncRef) (destination : Nat) : StrictM Unit := do
  let current ← currentFunction
  let m ← get
  strictEnter (m.refRequest f (m.base + current.registers) destination)

def strictBlock (count : Int) : StrictM Unit := do
  if count < 0 then throw (.error (.sequencing "ARGBLK: negative argument count"))
  let current ← currentFunction
  let m ← get
  let callPc := m.pc + count.toNat
  match current.code[callPc]? with
  | none => throw (.error (.sequencing "ARGBLK: CALL instruction out of range"))
  | some word =>
    if word.opcode? ≠ some .call then throw (.error (.sequencing "ARGBLK must be followed by CALL"))
    let target := m.heap.registerValue (m.base + word.c)
    match m.heap.funcRef? target with
    | none => throw (.error (.typeMismatch "funcRef" target.kindName))
    | some f =>
      strictEnter
        { function := f.function, outer := f.outer, base := m.base + word.b
          arguments := some count.toNat, destination := some word.a, returnPc := callPc + 1 }

def strictLocals (index : Nat) : StrictM Value := do
  let m ← get
  match m.frames[index]? with
  | none => pure .null
  | some frame =>
    if !frame.locals.value.isNull then pure frame.locals.value
    else
      let map ← plainly (onHeap (m.localsMap frame))
      let _ ← element (← get).frames index
      plainly (modify (·.setFrameLocals index map))
      pure map

def strictCurrentLocals : StrictM Value := do
  strictLocals (← oneLess (← get).frames.size)

def strictOuter : StrictM Value := do
  let m ← get
  match m.topFrame? with
  | some frame =>
    if !frame.outer.value.isNull && m.frames.size > 1 then pure frame.outer.value
    else strictLocals 0
  | none => strictLocals 0

def strictPerform (op : Opcode) (word : Word) : StrictM Unit := do
  match op with
  | .loadCall =>
    let v ← plainly (namedRegister word.b word.c)
    match (← get).heap.funcRef? v with
    | some f => strictAbove f word.a
    | none => plainly (setReg word.a v)
  | .funcRef =>
    let locals ← strictCurrentLocals
    plainly (do setReg word.a (← onHeap (Heap.newFuncRef word.bc locals)))
  | .locals =>
    let map ← strictCurrentLocals
    plainly (do setReg word.a map; setRegName word.a .null)
  | .outer =>
    let map ← strictOuter
    plainly (do setReg word.a map; setRegName word.a .null)
  | .globals =>
    let map ← strictLocals 0
    plainly (do setReg word.a map; setRegName word.a .null)
  | .argumentBlock => strictBlock word.abcSigned
  | .callFunction =>
    let m ← get
    strictEnter
      { function := word.bc, outer := .null, base := m.base + word.a, arguments := none
        destination := none, returnPc := m.pc }
  | .callNamed =>
    let name ← plainly (constant word.bc)
    let m ← get
    let name := m.heap.display name
    match m.functionIndex? name with
    | none => throw (.error (.unknownFunction name))
    | some function =>
      strictEnter
        { function, outer := .null, base := m.base + word.a, arguments := none
          destination := none, returnPc := m.pc }
  | .call =>
    let target ← plainly (reg word.c)
    let m ← get
    match m.heap.funcRef? target with
    | some f => strictEnter (m.refRequest f (m.base + word.b) word.a)
    | none => plainly (do modify (·.setPending none); setReg word.a target)
  | .callIfRef =>
    let v ← plainly (reg word.a)
    let m ← get
    match m.heap.funcRef? v, m.pending with
    | some f, some _ => strictAbove f word.a
    | _, _ => plainly (modify (·.setPending none))
  | op => plainly (perform op word)

-- The line of the trace counts back from the counter that was moved on.
def strictFetch : StrictM Word := do
  let m ← get
  match m.functions[m.function]? with
  | none => throw (.error (.invalidFunction m.function))
  | some f => match f.code[m.pc]? with
    | none => throw (.error (.pcOutOfBounds f.name))
    | some word =>
      modify fun m => { m with pc := m.pc + 1 }
      if m.config.trace then
        let line ← oneLess (← get).pc
        modify fun m => m.addLog .trace (m.traceLine f.name line word)
      pure word

def strictStep : StrictM Progress := do
  let word ← strictFetch
  match word.opcode? with
  | none => throw (.error (.unknownOpcode word.opcodeByte))
  | some .ret =>
    match ← plainly leave with
    | some result => pure (.finished result)
    | none => pure .next
  | some op =>
    strictPerform op word
    pure .next

variable {m : Machine}

def Agrees (strict : StrictM α) (operation : MachineM α) (m : Machine) : Prop := strict m = plainly operation m

theorem Agrees.bind {first : StrictM α} {rest : α → StrictM β} {first' : MachineM α} {rest' : α → MachineM β}
    (agrees : Agrees first first' m) (follows : ∀ a m', first' m = .ok a m' → Agrees (rest a) (rest' a) m') :
    Agrees (first >>= rest) (first' >>= rest') m := by
  unfold Agrees plainly at agrees follows ⊢
  simp only [Bind.bind,EStateM.bind]
  rw [agrees]
  cases result : first' m with
  | ok a m' => exact follows a m' result
  | error e m' => rfl

theorem Agrees.plainly_bind {rest : α → StrictM β} {first : MachineM α} {rest' : α → MachineM β}
    (follows : ∀ a m', first m = .ok a m' → Agrees (rest a) (rest' a) m') :
    Agrees (plainly first >>= rest) (first >>= rest') m := by
  have same : Agrees (plainly first) first m := rfl
  exact same.bind follows

theorem Agrees.get_bind {rest : Machine → StrictM β} {rest' : Machine → MachineM β} (follows : Agrees (rest m) (rest' m) m) :
    Agrees (get >>= rest) (get >>= rest') m := follows

theorem Agrees.of_get {rest : Machine → StrictM β} {operation : MachineM β} (follows : Agrees (rest m) operation m) :
    Agrees (get >>= rest) operation m := follows

theorem element_reads {table : Array α} (found : table[i]? = some a) : element table i m = .ok a m := by
  simp only [element,found]
  rfl

theorem currentFunction_reads {f : Function} (found : m.functions[m.function]? = some f) : currentFunction m = .ok f m := element_reads found

theorem strict_bind {first : StrictM α} {rest : α → StrictM β} (done : first m = .ok a m') : (first >>= rest) m = rest a m' := by
  simp only [bind,EStateM.bind,done]

theorem Agrees.read {read : StrictM α} {rest : α → StrictM β} {operation : MachineM β} (reads : read m = .ok a m)
    (follows : Agrees (rest a) operation m) : Agrees (read >>= rest) operation m := by
  rw [Agrees,strict_bind reads]
  exact follows

theorem argumentValues_length (m : Machine) (code : Array Word) (count pc : Nat) (values : List Value)
    (read : argumentValues m code count pc = .ok values) : values.length = count := by
  induction count generalizing pc values with
  | zero =>
      cases read
      rfl
  | succ count ih =>
      simp only [argumentValues] at read
      split at read
      · cases read
      · rename_i word _
        cases first : argumentValue m word with
        | error e =>
            rw [first] at read
            cases read
        | ok v =>
            cases others : argumentValues m code count (pc + 1) with
            | error e =>
                rw [first,others] at read
                cases read
            | ok rest =>
                rw [first,others] at read
                cases read
                rw [List.length_cons,ih (pc + 1) rest others]

theorem parameter_found {callee : Function} {p : Nat} (inside : p < callee.parameters.size) :
    callee.parameters[p]? = some (callee.parameters.getD p default) := by
  simp [inside]

theorem strictParameters_fills (callee : Function) (base first : Nat) (values : List Value) (m : Machine)
    (inside : first + values.length ≤ callee.parameters.size) :
    strictParameters callee base first values m = .ok () { m with heap := fillParameters callee base first values m.heap } := by
  induction values generalizing first m with
  | nil => rfl
  | cons v rest ih =>
      rw [List.length_cons] at inside
      have here := parameter_found (by omega : first < callee.parameters.size)
      simp only [strictParameters,bind,EStateM.bind,element_reads here,plainly,modifyHeap]
      exact (ih (first + 1) _ (by omega)).trans rfl

theorem strictDefaults_fills (callee : Function) (base : Nat) (places : List Nat) (m : Machine)
    (inside : ∀ p ∈ places, p < callee.parameters.size) :
    strictDefaults callee base places m = .ok () { m with heap := places.foldl (fun h p =>
      h.assignRegister (base + 1 + p) (callee.parameters.getD p default).name (callee.parameters.getD p default).default) m.heap } := by
  induction places generalizing m with
  | nil => rfl
  | cons p rest ih =>
      have here := parameter_found (inside p List.mem_cons_self)
      simp only [strictDefaults,bind,EStateM.bind,element_reads here,plainly,modifyHeap]
      exact (ih _ fun q member => inside q (List.mem_cons_of_mem _ member)).trans rfl

theorem bindsReceiver_first (m : Machine) (callee : Function) : (if m.bindsReceiver callee then 1 else 0) ≤ callee.parameters.size := by
  by_cases binds : m.bindsReceiver callee = true
  · rw [if_pos binds]
    unfold bindsReceiver at binds
    cases first : callee.parameters[0]? with
    | none => simp [first] at binds
    | some parameter => exact (Array.getElem?_eq_some_iff.mp first).1
  · rw [if_neg binds]
    exact Nat.zero_le _

theorem strictPass_agrees {callee f : Function} (found : m.functions[index]? = some callee) (current : m.functions[m.function]? = some f)
    (count base : Nat) {first : Nat} (inside : first ≤ callee.parameters.size) :
    Agrees (strictPass index count first base) (passArguments callee count first base) m := by
  refine Agrees.of_get (.read (element_reads found) ?_)
  simp only
  split
  · rename_i many
    simp only [Agrees,plainly,passArguments,if_pos many]
    rfl
  · rename_i few
    refine .read (currentFunction_reads current) ?_
    simp only [Agrees,plainly,passArguments,if_neg few,current]
    cases read : argumentValues m f.code count m.pc with
    | error e => rfl
    | ok values =>
        have length := argumentValues_length m f.code count m.pc values read
        have places : ∀ p ∈ List.range' (first + count) (callee.parameters.size - (first + count)), p < callee.parameters.size := by
          intro p member
          simp only [List.mem_range'_1] at member
          omega
        simp only [strict_bind (strictParameters_fills callee base first values m (by omega)),
          strict_bind (strictDefaults_fills callee base _ _ places)]
        rfl

theorem ensureWindow_same {base size : Nat} (checked : ensureWindow base size m = .ok () m') : m' = m := by
  simp only [ensureWindow] at checked
  split at checked
  · cases checked
  · cases checked
    rfl

theorem strictEnter_agrees {f : Function} (current : m.functions[m.function]? = some f) (request : CallRequest) :
    Agrees (strictEnter request) (enter request) m := by
  rw [enter_parts]
  refine Agrees.get_bind ?_
  cases found : m.functions[request.function]? with
  | none => rfl
  | some callee =>
      simp only
      split
      · rfl
      · refine Agrees.plainly_bind fun _ m' checked => ?_
        cases ensureWindow_same checked
        cases request.arguments with
        | none => rfl
        | some count =>
            exact (strictPass_agrees found current count request.base (bindsReceiver_first m callee)).bind fun _ _ _ => rfl

theorem strictAbove_agrees {f : Function} (current : m.functions[m.function]? = some f) (ref : FuncRef) (destination : Nat) :
    Agrees (strictAbove ref destination) (callAbove ref destination) m := by
  refine .read (currentFunction_reads current) (Agrees.get_bind ?_)
  have size : m.windowSize m.function = f.registers := by simp only [windowSize,current]
  simp only [size]
  exact strictEnter_agrees current _

theorem strictBlock_agrees {f : Function} (current : m.functions[m.function]? = some f) (count : Int) :
    Agrees (strictBlock count) (argumentBlock count) m := by
  unfold strictBlock argumentBlock
  simp only
  split
  · rfl
  · refine .read (currentFunction_reads current) (Agrees.get_bind ?_)
    simp only [current,Option.bind_some]
    cases f.code[m.pc + count.toNat]? with
    | none => rfl
    | some word =>
        simp only
        split
        · rfl
        · cases m.heap.funcRef? (m.heap.registerValue (m.base + word.c)) with
          | none => rfl
          | some ref => exact strictEnter_agrees current _

theorem onHeap_frames {operation : HeapM α} (done : onHeap operation m = .ok a m') : m'.frames = m.frames := by
  unfold onHeap at done
  simp only at done
  split at done
  · cases done
    rfl
  · cases done

theorem strictLocals_agrees (index : Nat) : Agrees (strictLocals index) (frameLocals index) m := by
  refine Agrees.get_bind ?_
  cases found : m.frames[index]? with
  | none => rfl
  | some frame =>
      simp only
      split
      · rfl
      · refine Agrees.plainly_bind fun map m' made => .of_get ?_
        have still : m'.frames[index]? = some frame := by
          rw [onHeap_frames made]
          exact found
        exact .read (element_reads still) rfl

theorem strictCurrentLocals_agrees (nonempty : 0 < m.frames.size) : Agrees strictCurrentLocals currentLocals m := by
  have counted : oneLess m.frames.size m = .ok (m.frames.size - 1) m := by
    unfold oneLess
    rw [if_neg (Nat.pos_iff_ne_zero.mp nonempty)]
    rfl
  exact .of_get (.read counted (strictLocals_agrees _))

theorem strictOuter_agrees : Agrees strictOuter outerVariables m := by
  refine Agrees.get_bind ?_
  cases m.topFrame? with
  | none => exact strictLocals_agrees 0
  | some frame =>
      simp only
      split
      · rfl
      · exact strictLocals_agrees 0

theorem strictPerform_agrees (stacked : m.Stacked) (op : Opcode) (word : Word) : Agrees (strictPerform op word) (perform op word) m := by
  obtain ⟨f,current⟩ := stacked.function
  cases op with
  | loadCall =>
      refine Agrees.plainly_bind fun v m' read => ?_
      cases namedRegister_same read
      refine Agrees.get_bind ?_
      cases m.heap.funcRef? v with
      | none => rfl
      | some ref => exact strictAbove_agrees current ref word.a
  | funcRef | locals => exact (strictCurrentLocals_agrees stacked.nonempty).bind fun _ _ _ => rfl
  | outer => exact strictOuter_agrees.bind fun _ _ _ => rfl
  | globals => exact (strictLocals_agrees 0).bind fun _ _ _ => rfl
  | argumentBlock => exact strictBlock_agrees current _
  | callFunction => exact Agrees.get_bind (strictEnter_agrees current _)
  | callNamed =>
      refine Agrees.plainly_bind fun name m' read => ?_
      cases constant_same read
      refine Agrees.get_bind ?_
      simp only
      cases m.functionIndex? (m.heap.display name) with
      | none => rfl
      | some index => exact strictEnter_agrees current _
  | call =>
      refine Agrees.plainly_bind fun target m' read => ?_
      cases read
      refine Agrees.get_bind ?_
      cases m.heap.funcRef? (m.heap.registerValue (m.base + word.c)) with
      | none => rfl
      | some ref => exact strictEnter_agrees current _
  | callIfRef =>
      refine Agrees.plainly_bind fun v m' read => ?_
      cases read
      refine Agrees.get_bind ?_
      cases m.heap.funcRef? (m.heap.registerValue (m.base + word.a)) with
      | none => rfl
      | some ref =>
          cases m.pending with
          | none => rfl
          | some pair => exact strictAbove_agrees current ref word.a
  | _ => rfl

theorem strictFetch_agrees : Agrees strictFetch fetch m := by
  refine Agrees.of_get ?_
  simp only [Agrees,plainly,fetch]
  cases m.functions[m.function]? with
  | none => rfl
  | some f =>
      simp only
      cases f.code[m.pc]? with
      | none => rfl
      | some word => cases m.config.trace <;> rfl

theorem strictStep_agrees (stacked : m.Stacked) : Agrees strictStep step m := by
  refine strictFetch_agrees.bind fun word s fetched => ?_
  have works : Works (fun _ => False) fetch m := fetch_works
  rw [Works,fetched] at works
  have still := stacked.aside works
  cases word.opcode? with
  | none => rfl
  | some op =>
      cases op with
      | ret =>
          refine Agrees.plainly_bind fun result s' _ => ?_
          cases result <;> rfl
      | _ => exact (strictPerform_agrees still _ word).bind fun _ _ _ => rfl

theorem ongoing_stacked (ongoing : m.Ongoing) (running : m.isRunning = true) :
    m.Stacked ∧ ((∃ progress m', strictStep m = .ok progress m' ∧ step m = .ok progress m') ∨
      ∃ e m', strictStep m = .error (.error e) m' ∧ step m = .error e m') ∧
      (m.heap.FlatKeys → ∀ a b, (m.heap.equal? a b).isSome = true) := by
  have stacked := ongoing.stacked running
  refine ⟨stacked,?_,Heap.equal?_flat⟩
  have agrees : strictStep m = plainly step m := strictStep_agrees stacked
  rw [agrees,plainly]
  cases result : step m with
  | ok progress m' => exact Or.inl ⟨progress,m',rfl,rfl⟩
  | error e m' => exact Or.inr ⟨e,m',rfl,rfl⟩

theorem reset_accepted {functions : Array Function} {m : Machine} (accepted : (match reset functions m with
      | .ok _ _ => true
      | .error _ _ => false) = true) : reset functions m = .ok () (left (reset functions m)) := by
  split at accepted
  · rename_i done
    rw [done,left]
  · cases accepted

-- A call into a function whose code is no instruction.
def garbled : Array Function :=
  #[{ name := "@main",code := #[Instruction.encodeUnchecked .callFunction [1,1]],registers := 2 },
    { name := "inner",code := #[0xffffffff],registers := 3 }]

theorem ongoing_stacked_garbled :
    ∃ m : Machine, m.Ongoing ∧ m.state = .suspended ∧ m.frames.size = 2 ∧ m.Stacked ∧
      ∃ m', strictStep m = .error (.error (.unknownOpcode 255)) m' := by
  obtain ⟨m,done⟩ : ∃ m, reset garbled (Machine.new { stackSlots := 4,callSlots := 2 }) = .ok () m :=
    ⟨_,reset_accepted (by decide +kernel)⟩
  have facts : (m.run 1).2.state = .suspended ∧ (m.run 1).2.frames.size = 2 ∧ (match step (m.run 1).2 with
      | .error e _ => some e
      | .ok _ _ => none) = some (.unknownOpcode 255) := by
    have whole : m = left (reset garbled (Machine.new { stackSlots := 4,callSlots := 2 })) := by rw [done]; rfl
    rw [whole]
    decide +kernel
  obtain ⟨suspended,deep,unknown⟩ := facts
  have ongoing := Ongoing.run 1 (.reset done)
  obtain ⟨stacked,ends,_⟩ := ongoing_stacked ongoing (by rw [isRunning,suspended]; rfl)
  refine ⟨_,ongoing,suspended,deep,stacked,?_⟩
  rcases ends with ⟨progress,m',_,result⟩ | ⟨e,m',strict,result⟩
  · rw [result] at unknown
    cases unknown
  · rw [result] at unknown
    cases unknown
    exact ⟨m',strict⟩

-- Two maps that have lists as keys in which the maps themselves lie, and an instruction that compares them.
def knotted : Array Function :=
  #[{ name := "@main",registers := 4
      code := #[Instruction.encodeUnchecked .callFunction [1,1],Instruction.encodeUnchecked .callFunction [2,1],
        Instruction.encodeUnchecked (.test (.eq false)) [0,1,2],Instruction.encodeUnchecked .ret []] },
    { name := "knot",registers := 6
      code := #[Instruction.encodeUnchecked .map [1,0],Instruction.encodeUnchecked .list [2,1],Instruction.encodeUnchecked .loadNull [3],
          Instruction.encodeUnchecked .push [2,3],Instruction.encodeUnchecked .setIndex [1,2,3],Instruction.encodeUnchecked .copy [4,1]] ++
        (Array.replicate 15 #[Instruction.encodeUnchecked .list [5,1],Instruction.encodeUnchecked .push [5,4],
          Instruction.encodeUnchecked .copy [4,5]]).flatten ++
        #[Instruction.encodeUnchecked .setIndex [1,4,3],Instruction.encodeUnchecked .callFunction [0,7],
          Instruction.encodeUnchecked .copy [0,1],Instruction.encodeUnchecked .ret []] }]

-- The comparison goes on as long as there is room for the comparisons of keys that wait.
theorem ongoing_endless : ∃ m : Machine, m.Ongoing ∧ m.isRunning = true ∧
    (m.functions[m.function]?.bind (·.code[m.pc]?)) = some (Instruction.encodeUnchecked (.test (.eq false)) [0,1,2]) ∧
    ∀ nesting, m.heap.decideNested nesting (m.heap.registerValue (m.base + 1)) (m.heap.registerValue (m.base + 2)) = none := by
  have done : reset knotted (Machine.new { stackSlots := 16 }) = .ok () (left (reset knotted (Machine.new { stackSlots := 16 }))) :=
    reset_accepted (by decide +kernel)
  have ongoing : (((left (reset knotted (Machine.new { stackSlots := 16 }))).run 112).2).Ongoing := .run 112 (.reset done)
  obtain ⟨m,whole⟩ : ∃ m, m = ((left (reset knotted (Machine.new { stackSlots := 16 }))).run 112).2 := ⟨_,rfl⟩
  have facts : m.isRunning = true ∧
      (m.functions[m.function]?.bind (·.code[m.pc]?)) = some (Instruction.encodeUnchecked (.test (.eq false)) [0,1,2]) ∧
      m.heap.registerValue (m.base + 1) = .map ⟨50,0⟩ ∧ m.heap.registerValue (m.base + 2) = .map ⟨67,0⟩ ∧
      m.heap.Tangled ⟨50,0⟩ ⟨67,0⟩ (.list ⟨66,0⟩) (.list ⟨83,0⟩) ∧ m.heap.Tangled ⟨67,0⟩ ⟨50,0⟩ (.list ⟨83,0⟩) (.list ⟨66,0⟩) := by
    rw [whole]
    decide +kernel
  obtain ⟨running,next,first,second,one,other⟩ := facts
  rw [← whole] at ongoing
  refine ⟨m,ongoing,running,next,fun nesting => ?_⟩
  rw [first,second]
  exact one.endless other nesting

end RegisterMachine.Machine
