import RegisterMachine.Proofs.Machine.Blocks
import RegisterMachine.Proofs.Machine.Windows

namespace RegisterMachine

namespace Heap

variable {h : Heap}

theorem assignRegister_getElem (h : Heap) (i j : Nat) (name value : Value) : (h.assignRegister j name value).registers[i]? =
    if j = i then h.registers[i]?.map fun _ => { value,name } else h.registers[i]? :=
  Array.getElem?_modify

theorem assignAll_getElem (start length base : Nat) (name value : Nat → Value) (h : Heap) (i : Nat) :
    ((List.range' start length).foldl (fun h p => h.assignRegister (base + p) (name p) (value p)) h).registers[i]? =
      if base + start ≤ i ∧ i < base + start + length then
        h.registers[i]?.map fun _ => { value := value (i - base),name := name (i - base) }
      else h.registers[i]? := by
  induction length generalizing start h with
  | zero => rw [if_neg (by omega)]; rfl
  | succ length ih =>
      simp only [List.range'_succ,List.foldl_cons,ih,assignRegister_getElem]
      by_cases here : base + start = i
      · rw [if_neg (by omega),if_pos here,if_pos (by omega)]
        subst here
        simp only [Nat.add_sub_cancel_left]
      · rw [if_neg here]
        exact if_congr (by omega) rfl rfl

theorem sameName_slots {h h' : Heap} (slots : h'.slots = h.slots) (a b : Value) : h'.sameName a b = h.sameName a b := by
  have texts : ∀ v, h'.text? v = h.text? v := by
    intro v
    cases v <;> simp only [text?,object?_slots slots]
  simp only [sameName,sameText,texts]

theorem sameName_refl (h : Heap) (a : Value) : h.sameName a a = true := by
  simp only [sameName,beq_self_eq_true,Bool.true_or]

theorem sameName_short {a : Value} (same : h.sameName a (.short text) = true) (plain : a.handle? = none) : .short text = a := by
  cases a with
  | str r => cases plain
  | short t =>
      simp only [sameName,sameText,Bool.or_eq_true,Bool.and_eq_true,beq_iff_eq,Value.short.injEq] at same
      rcases same with same | ⟨_,same⟩ <;> rw [same]
  | _ => simp [sameName,Value.isString] at same

end Heap

namespace Machine

variable {m m' : Machine} {request : CallRequest} {callee : Function} {operands : List Value} {base first : Nat}

-- The operand in an argument word.
inductive Operand (m : Machine) (word : Word) : Value → Prop where
  | register : word.opcode? = some .argument → Operand m word (m.heap.registerValue (m.base + word.a))
  | number : word.opcode? = some .argumentInt → Operand m word (intValue word.abcSigned)

-- The operands in the words after the next one.
def Operands (m : Machine) (operands : List Value) : Prop :=
  ∀ i v, operands[i]? = some v → ∃ word, { m with pc := m.pc + 1 + i }.nextWord? = some word ∧ m.Operand word v

theorem argumentValue_operand : argumentValue m word = .ok v ↔ m.Operand word v := by
  unfold argumentValue
  constructor
  · intro read
    split at read
    · rename_i opcode
      cases read
      exact .register opcode
    · rename_i opcode
      cases read
      exact .number opcode
    · cases read
  · intro operand
    cases operand with
    | register opcode => rw [opcode]
    | number opcode =>
        rw [opcode]
        rfl

theorem argumentValues_cons {code : Array Word} {pc : Nat} : argumentValues m code (count + 1) pc = .ok operands ↔
    ∃ word v rest, code[pc]? = some word ∧ argumentValue m word = .ok v ∧ argumentValues m code count (pc + 1) = .ok rest ∧
      operands = v :: rest := by
  simp only [argumentValues]
  cases read : code[pc]? with
  | none => simp only [reduceCtorEq,false_and,exists_false]
  | some word =>
      cases first : argumentValue m word with
      | error e => simp [first,bind,Except.bind]
      | ok v =>
          cases others : argumentValues m code count (pc + 1) with
          | error e => simp [first,bind,Except.bind]
          | ok rest => simp [first,bind,Except.bind,eq_comm]

theorem argumentValues_operands {code : Array Word} {pc : Nat} : argumentValues m code count pc = .ok operands ↔
    operands.length = count ∧ ∀ i v, operands[i]? = some v → ∃ word, code[pc + i]? = some word ∧ m.Operand word v := by
  induction count generalizing pc operands with
  | zero =>
      simp only [argumentValues,Except.ok.injEq,List.length_eq_zero_iff]
      constructor
      · rintro rfl
        refine ⟨rfl,fun i v found => ?_⟩
        cases found
      · exact fun empty => empty.1.symm
  | succ count ih =>
      rw [argumentValues_cons]
      constructor
      · rintro ⟨word,v,rest,read,value,others,rfl⟩
        obtain ⟨length,each⟩ := ih.mp others
        refine ⟨by rw [List.length_cons,length],fun i w found => ?_⟩
        cases i with
        | zero =>
            cases found
            exact ⟨word,read,argumentValue_operand.mp value⟩
        | succ i =>
            rw [Nat.add_comm i 1,← Nat.add_assoc]
            exact each i w found
      · rintro ⟨length,each⟩
        obtain ⟨v,rest,rfl⟩ := List.exists_cons_of_length_eq_add_one length
        obtain ⟨word,read,operand⟩ := each 0 v rfl
        refine ⟨word,v,rest,read,argumentValue_operand.mpr operand,ih.mpr ⟨Nat.succ.inj length,fun i w found => ?_⟩,rfl⟩
        rw [Nat.add_assoc,Nat.add_comm 1 i]
        exact each (i + 1) w found

theorem fillParameters_getElem (callee : Function) (base p : Nat) (operands : List Value) (h : Heap) (i : Nat) :
    (fillParameters callee base p operands h).registers[i]? =
      if base + 1 + p ≤ i ∧ i < base + 1 + p + operands.length then
        h.registers[i]?.map fun _ =>
          { value := operands.getD (i - (base + 1 + p)) .null,name := (callee.parameters.getD (i - (base + 1)) default).name }
      else h.registers[i]? := by
  induction operands generalizing p h with
  | nil => rw [if_neg (by simp only [List.length_nil]; omega)]; rfl
  | cons v rest ih =>
      simp only [fillParameters,ih,Heap.assignRegister_getElem,List.length_cons]
      by_cases here : base + 1 + p = i
      · rw [if_neg (by omega),if_pos here,if_pos (by omega)]
        subst here
        simp only [Nat.sub_self,List.getD_cons_zero,Nat.add_sub_cancel_left]
      · rw [if_neg here]
        by_cases later : base + 1 + (p + 1) ≤ i ∧ i < base + 1 + (p + 1) + rest.length
        · rw [if_pos later,if_pos (by omega),show i - (base + 1 + p) = i - (base + 1 + (p + 1)) + 1 by omega,List.getD_cons_succ]
        · rw [if_neg later,if_neg (by omega)]

theorem fillDefaults_getElem (callee : Function) (filled base : Nat) (h : Heap) (i : Nat) :
    (fillDefaults callee filled base h).registers[i]? =
      if base + 1 + filled ≤ i ∧ i < base + 1 + callee.parameters.size then
        h.registers[i]?.map fun _ =>
          { value := (callee.parameters.getD (i - (base + 1)) default).default,name := (callee.parameters.getD (i - (base + 1)) default).name }
      else h.registers[i]? := by
  simp only [fillDefaults,Heap.assignAll_getElem]
  exact if_congr (by omega) rfl rfl

theorem clearWindow_getElem (callee : Function) (base : Nat) (h : Heap) (i : Nat) :
    (clearWindow callee base h).registers[i]? =
      if base = i ∨ base + callee.parameters.size < i ∧ i < base + callee.registers then h.registers[i]?.map fun _ => {}
      else h.registers[i]? := by
  simp only [clearWindow,Heap.assignAll_getElem,Heap.assignRegister_getElem]
  by_cases result : base = i
  · rw [if_neg (by omega),if_pos result,if_pos (Or.inl result)]
  · rw [if_neg result]
    exact if_congr (by omega) rfl rfl

-- The window of a callee: operands from a parameter on, and defaults after them.
def fillWindow (callee : Function) (base first : Nat) (operands : List Value) (h : Heap) : Heap :=
  clearWindow callee base (fillDefaults callee (first + operands.length) base (fillParameters callee base first operands h))

variable {h : Heap} {i p r : Nat}

theorem fillWindow_others (roomy : callee.parameters.size < callee.registers) (few : first + operands.length ≤ callee.parameters.size)
    (other : i < base ∨ base < i ∧ i ≤ base + first ∨ base + callee.registers ≤ i) :
    (fillWindow callee base first operands h).registers[i]? = h.registers[i]? := by
  rw [fillWindow,clearWindow_getElem,if_neg (by omega),fillDefaults_getElem,if_neg (by omega),fillParameters_getElem,if_neg (by omega)]

theorem fillWindow_cleared (few : first + operands.length ≤ callee.parameters.size) (fits : base + callee.registers ≤ h.registers.size)
    (rest : r = 0 ∨ callee.parameters.size < r) (inside : r < callee.registers) :
    (fillWindow callee base first operands h).registers[base + r]? = some {} := by
  have present : h.registers[base + r]? = some h.registers[base + r] := Array.getElem?_eq_getElem (by omega)
  rw [fillWindow,clearWindow_getElem,if_pos (by omega),fillDefaults_getElem,if_neg (by omega),fillParameters_getElem,if_neg (by omega),present]
  rfl

theorem fillWindow_parameter (roomy : callee.parameters.size < callee.registers) (fits : base + callee.registers ≤ h.registers.size)
    (found : callee.parameters[p]? = some parameter) (after : first ≤ p) :
    (fillWindow callee base first operands h).registers[base + 1 + p]? =
      some { value := operands.getD (p - first) parameter.default,name := parameter.name } := by
  have below : p < callee.parameters.size := (Array.getElem?_eq_some_iff.mp found).1
  have present : h.registers[base + 1 + p]? = some h.registers[base + 1 + p] := Array.getElem?_eq_getElem (by omega)
  have named : callee.parameters.getD p default = parameter := by rw [Array.getD_eq_getD_getElem?,found,Option.getD_some]
  rw [fillWindow,clearWindow_getElem,if_neg (by omega),fillDefaults_getElem]
  by_cases given : p < first + operands.length
  · have inside : p - first < operands.length := by omega
    rw [if_neg (by omega),fillParameters_getElem,if_pos (by omega),present,Option.map_some,Nat.add_sub_cancel_left,named,
      show base + 1 + p - (base + 1 + first) = p - first by omega]
    simp only [List.getD_eq_getElem?_getD,List.getElem?_eq_getElem inside,Option.getD_some]
  · have beyond : operands.length ≤ p - first := by omega
    rw [if_pos (by omega),fillParameters_getElem,if_neg (by omega),present,Option.map_some,Nat.add_sub_cancel_left,named]
    rw [List.getD_eq_getElem?_getD,List.getElem?_eq_none beyond,Option.getD_none]

-- How many parameters the pending receiver takes.
def offset (m : Machine) (callee : Function) : Nat := if m.bindsReceiver callee then 1 else 0

def currentCode (m : Machine) : Array Word :=
  match m.functions[m.function]? with
  | some f => f.code
  | none => #[]

theorem currentCode_getElem (m : Machine) (pc : Nat) : m.currentCode[pc]? = { m with pc }.nextWord? := by
  simp only [currentCode,nextWord?]
  cases m.functions[m.function]? <;> rfl

theorem passArguments_fills (callee : Function) (count first base : Nat) (m : Machine) : passArguments callee count first base m =
    if count > callee.parameters.size - first then .error (.tooManyArguments count (callee.parameters.size - first)) m
    else match argumentValues m m.currentCode count m.pc with
      | .error e => .error e m
      | .ok operands => .ok () { m with heap := fillWindow callee base first operands m.heap } := by
  change (if _ then _ else match argumentValues m m.currentCode count m.pc with
    | .error e => _
    | .ok operands => _) = _
  cases read : argumentValues m m.currentCode count m.pc with
  | error e => rfl
  | ok operands =>
      rw [← argumentValues_length m _ count m.pc operands read]
      rfl

-- A machine whose callee has its window.
def seated (m : Machine) (request : CallRequest) (callee : Function) (operands : List Value) : Machine :=
  let filled := ({ m with heap := fillWindow callee request.base (m.offset callee) operands m.heap }.setPending none).heap
  let heap := match m.bindsReceiver callee,m.pending with
    | true,some (receiver,_) => filled.assignRegister (request.base + 1) selfName receiver
    | _,_ => filled
  { m with heap,pending := none }

-- The operands for which a window is filled, or why it is not.
def seatable (m : Machine) (request : CallRequest) (callee : Function) (count : Nat) : Except Error (List Value) :=
  if request.base + callee.registers > m.heap.registers.size then
    .error (.stackOverflow (request.base + callee.registers) m.heap.registers.size)
  else if count > callee.parameters.size - m.offset callee then .error (.tooManyArguments count (callee.parameters.size - m.offset callee))
  else argumentValues m m.currentCode count m.pc

theorem seat_fills (given : request.arguments = some count) (m : Machine) : seat request callee (m.bindsReceiver callee) m.pending m =
    match m.seatable request callee count with
    | .error e => .error e m
    | .ok operands => .ok () (m.seated request callee operands) := by
  have passes : seatArguments request callee (m.bindsReceiver callee) = passArguments callee count (m.offset callee) request.base := by
    unfold seatArguments
    rw [given]
    rfl
  simp only [seat,bind,EStateM.bind,ensureWindow,passes,seatable]
  by_cases beyond : request.base + callee.registers > m.heap.registers.size
  · simp only [if_pos beyond]
  simp only [if_neg beyond,passArguments_fills]
  by_cases many : count > callee.parameters.size - m.offset callee
  · simp only [if_pos many]
  simp only [if_neg many]
  cases argumentValues m m.currentCode count m.pc with
  | error e => rfl
  | ok operands =>
      simp only [seatReceiver,seated,modify_ok]
      cases m.bindsReceiver callee with
      | false => rfl
      | true => cases m.pending <;> rfl

theorem offset_receiver (takes : m.offset callee ≠ 0) : m.offset callee = 1 ∧ m.bindsReceiver callee = true ∧ ∃ receiver parent parameter,
    m.pending = some (receiver,parent) ∧ callee.parameters[0]? = some parameter ∧ m.heap.sameName parameter.name selfName = true := by
  have binds : m.bindsReceiver callee = true := by
    by_contra misses
    exact takes (if_neg misses)
  refine ⟨if_pos binds,binds,?_⟩
  obtain ⟨waits,named⟩ := Bool.and_eq_true_iff.mp binds
  obtain ⟨⟨receiver,parent⟩,pending⟩ := Option.isSome_iff_exists.mp waits
  split at named
  · rename_i parameter found
    exact ⟨receiver,parent,parameter,pending,found,named⟩
  · cases named

theorem setPending_registers (m : Machine) (pending : Option (Value × Value)) : (m.setPending pending).heap.registers = m.heap.registers := rfl

theorem seated_others (m : Machine) (request : CallRequest) (callee : Function) (operands : List Value)
    (other : m.offset callee = 0 ∨ i ≠ request.base + 1) : (m.seated request callee operands).heap.registers[i]? =
      (fillWindow callee request.base (m.offset callee) operands m.heap).registers[i]? := by
  unfold seated
  simp only
  split
  · rename_i receiver _ binds _
    have elsewhere : ¬ request.base + 1 = i := by
      rcases other with free | elsewhere
      · simp only [offset,binds,if_true] at free
        omega
      · exact fun same => elsewhere same.symm
    rw [Heap.assignRegister_getElem,if_neg elsewhere,setPending_registers]
  · rw [setPending_registers]

theorem seated_receiver (binds : m.bindsReceiver callee = true) (pending : m.pending = some (receiver,parent)) :
    (m.seated request callee operands).heap.registers[request.base + 1]? =
      (fillWindow callee request.base (m.offset callee) operands m.heap).registers[request.base + 1]?.map fun _ =>
        { value := receiver,name := selfName } := by
  simp only [seated,binds,pending,Heap.assignRegister_getElem,if_true,setPending_registers]

theorem seated_slots (m : Machine) (request : CallRequest) (callee : Function) (operands : List Value) :
    (m.seated request callee operands).heap.slots = m.heap.slots := by
  have filled : (fillWindow callee request.base (m.offset callee) operands m.heap).slots = m.heap.slots :=
    (((fillParameters_refilled callee (Nat.zero_le _) _ operands m.heap).trans (fillDefaults_refilled callee (Nat.zero_le _) _ _)).trans
      (clearWindow_refilled callee (Nat.zero_le _) _)).slots
  unfold seated
  generalize fillWindow callee request.base (m.offset callee) operands m.heap = window at filled ⊢
  simp only
  split <;> exact filled

theorem pushFrame_frames (m : Machine) (frame : Frame) (outer : Value) (pending : Option (Value × Value)) : ∃ pushed,
    (m.pushFrame frame outer pending).frames = m.frames.push pushed ∧ pushed.function = frame.function ∧ pushed.base = frame.base ∧
      pushed.call = frame.call ∧ pushed.locals = frame.locals ∧ pushed.outer.value = outer ∧
      (pushed.receiver.value,pushed.parent.value) = pending.getD (frame.receiver.value,frame.parent.value) := by
  cases pending with
  | none => exact ⟨{ frame with outer := _ },rfl,rfl,rfl,rfl,rfl,frame.outer.set_value _ _,rfl⟩
  | some pair =>
      exact ⟨{ frame with outer := _,receiver := _,parent := _ },rfl,rfl,rfl,rfl,rfl,frame.outer.set_value _ _,
        Prod.ext (frame.receiver.set_value _ _) (frame.parent.set_value _ _)⟩

-- What a parameter receives: the pending receiver, an operand, or its default.
def received (m : Machine) (callee : Function) (operands : List Value) (p : Nat) (parameter : Parameter) : Value :=
  if p < m.offset callee then (m.pending.map Prod.fst).getD .null else operands.getD (p - m.offset callee) parameter.default

-- A machine that has entered a compiled function with an argument list.
structure Entered (m : Machine) (request : CallRequest) (callee : Function) (operands : List Value) (m' : Machine) : Prop where
  parameters : ∀ p parameter, callee.parameters[p]? = some parameter → ∃ name,
    m'.heap.registers[request.base + 1 + p]? = some { value := m.received callee operands p parameter,name } ∧
      m'.heap.sameName parameter.name name = true ∧ (m.offset callee ≤ p ∨ parameter.name.handle? = none → name = parameter.name)
  cleared : ∀ r, r = 0 ∨ callee.parameters.size < r → r < callee.registers → m'.heap.registers[request.base + r]? = some {}
  others : ∀ i, i < request.base ∨ request.base + callee.registers ≤ i → m'.heap.registers[i]? = m.heap.registers[i]?
  pending : m'.pending = none
  frame : ∃ frame, m'.frames = m.frames.push frame ∧ frame.function = request.function ∧ frame.base = request.base ∧
    frame.call = { returnPc := request.returnPc,returnBase := m.base,returnFunction := m.function,destination := request.destination } ∧
    frame.locals = {} ∧ frame.outer.value = request.outer ∧ (frame.receiver.value,frame.parent.value) = m.pending.getD (.null,.null)
  place : m'.pc = 0 ∧ m'.base = request.base ∧ m'.function = request.function

def begun (m : Machine) (request : CallRequest) (callee : Function) (operands : List Value) : Machine :=
  (m.seated request callee operands).pushFrame
    { function := request.function,base := request.base
      call := { returnPc := request.returnPc,returnBase := m.base,returnFunction := m.function,destination := request.destination } }
    request.outer m.pending

theorem begun_registers (m : Machine) (request : CallRequest) (callee : Function) (operands : List Value) :
    (m.begun request callee operands).heap.registers = (m.seated request callee operands).heap.registers := pushFrame_registers _ _ _ _

theorem begun_slots (m : Machine) (request : CallRequest) (callee : Function) (operands : List Value) :
    (m.begun request callee operands).heap.slots = m.heap.slots :=
  (pushFrame_apart _ _ _ _).slots.trans (m.seated_slots request callee operands)

-- The operands with which a call goes ahead, or why it does not.
def admitted (m : Machine) (request : CallRequest) (callee : Function) (count : Nat) : Except Error (List Value) :=
  if m.frames.size ≥ m.config.callSlots then .error .callStackOverflow else m.seatable request callee count

theorem enter_begins (found : m.functions[request.function]? = some callee) (compiled : callee.native = none)
    (given : request.arguments = some count) : enter request m =
      match m.admitted request callee count with
      | .error e => .error e m
      | .ok operands => .ok () (m.begun request callee operands) := by
  rw [enter_seats]
  simp only [bind,EStateM.bind,get_ok,found,compiled,Option.isNone_none,Bool.true_and,decide_eq_true_eq,admitted]
  by_cases full : m.frames.size ≥ m.config.callSlots
  · rw [if_pos full,if_pos full]
    rfl
  rw [if_neg full,if_neg full]
  simp only [EStateM.bind,seat_fills given,launch,compiled]
  cases m.seatable request callee count <;> rfl

theorem admitted_ok (admits : m.admitted request callee count = .ok operands) :
    request.base + callee.registers ≤ m.heap.registers.size ∧ count ≤ callee.parameters.size - m.offset callee ∧
      argumentValues m m.currentCode count m.pc = .ok operands := by
  unfold admitted seatable at admits
  split at admits
  · cases admits
  · split at admits
    · cases admits
    · split at admits
      · cases admits
      · exact ⟨by omega,by omega,admits⟩

section

variable (room : m.frames.size < m.config.callSlots) (fits : request.base + callee.registers ≤ m.heap.registers.size)
include room fits

theorem admitted_few (few : count ≤ callee.parameters.size - m.offset callee) :
    m.admitted request callee count = argumentValues m m.currentCode count m.pc := by
  rw [admitted,if_neg (by omega),seatable,if_neg (by omega),if_neg (by omega)]

theorem admitted_many : m.admitted request callee count = .error (.tooManyArguments got expected) ↔
    callee.parameters.size - m.offset callee < count ∧ got = count ∧ expected = callee.parameters.size - m.offset callee := by
  by_cases few : count ≤ callee.parameters.size - m.offset callee
  · rw [admitted_few room fits few]
    refine ⟨fun refused => ?_,fun many => absurd few (by omega)⟩
    obtain ⟨text,same⟩ := argumentValues_sequencing refused
    cases same
  · rw [admitted,if_neg (by omega),seatable,if_neg (by omega),if_pos (by omega)]
    simp only [Except.error.injEq,Error.tooManyArguments.injEq,Nat.lt_of_not_le few,true_and,eq_comm]

end

section

variable (roomy : callee.parameters.size < callee.registers) (few : m.offset callee + operands.length ≤ callee.parameters.size)
  (fits : request.base + callee.registers ≤ m.heap.registers.size)
include roomy few fits

theorem seated_parameter (found : callee.parameters[p]? = some parameter) : ∃ name,
    (m.seated request callee operands).heap.registers[request.base + 1 + p]? =
      some { value := m.received callee operands p parameter,name } ∧
      m.heap.sameName parameter.name name = true ∧ (m.offset callee ≤ p ∨ parameter.name.handle? = none → name = parameter.name) := by
  by_cases after : m.offset callee ≤ p
  · -- Past the receiver, a parameter has what the window was filled with.
    refine ⟨parameter.name,?_,m.heap.sameName_refl _,fun _ => rfl⟩
    rw [seated_others m request callee operands (by omega),fillWindow_parameter roomy fits found after,received,if_neg (by omega)]
  · -- The receiver goes under its own name, which denotes the same variable.
    have takes : m.offset callee ≠ 0 := by omega
    obtain ⟨one,binds,receiver,parent,first,pending,parameter_first,named⟩ := offset_receiver takes
    obtain rfl : p = 0 := by omega
    rw [found] at parameter_first
    cases parameter_first
    have present : m.heap.registers[request.base + 1]? = some m.heap.registers[request.base + 1] := Array.getElem?_eq_getElem (by omega)
    refine ⟨selfName,?_,named,fun plain => ?_⟩
    · rw [Nat.add_zero,seated_receiver binds pending,fillWindow_others roomy few (by omega),present,received,if_pos (by omega),pending]
      rfl
    · exact Heap.sameName_short named (plain.resolve_left after)

theorem begun_entered : m.Entered request callee operands (m.begun request callee operands) where
  parameters p parameter found := by
    obtain ⟨name,value,named,plain⟩ := seated_parameter roomy few fits found
    refine ⟨name,?_,?_,plain⟩
    · rw [begun_registers]
      exact value
    · rw [Heap.sameName_slots (begun_slots m request callee operands)]
      exact named
  cleared r rest inside := by
    have elsewhere : m.offset callee = 0 ∨ request.base + r ≠ request.base + 1 := by omega
    rw [begun_registers,seated_others m request callee operands elsewhere]
    exact fillWindow_cleared few fits rest inside
  others i outside := by
    rw [begun_registers,seated_others m request callee operands (by omega)]
    exact fillWindow_others roomy few (by omega)
  pending := by
    unfold begun
    cases m.pending <;> rfl
  frame := pushFrame_frames _ _ _ _
  place := by
    unfold begun
    cases m.pending <;> exact ⟨rfl,rfl,rfl⟩

end

-- Calls that bring an argument list: an argument block up to its call, and the calls without a block.
inductive Asks (m : Machine) : CallRequest → Prop where
  | block {word call : Word} {count : Nat} : m.nextWord? = some word → word.opcode? = some .argumentBlock → word.abcSigned = count →
      { m with pc := m.pc + 1 + count }.nextWord? = some call → call.opcode? = some .call →
      m.heap.funcRef? (m.heap.registerValue (m.base + call.c)) = some f → Asks m ({ m with pc := m.pc + 1 }.blockRequest count call f)
  | direct {request : CallRequest} : m.nextWord? = some word → word.opcode? = some op → op ≠ .argumentBlock →
      Calls { m with pc := m.pc + 1 } word op request → request.arguments = some 0 → Asks m request

theorem namedRegister_there (read : namedRegister r k m = .ok v m) (log : Array LogLine) :
    namedRegister r k { m with log } = .ok v { m with log } := by
  simp only [namedRegister,constant,bind,EStateM.bind] at read ⊢
  cases found : m.functions[m.function]?.bind (·.constants[k]?) with
  | none =>
      simp only [found] at read
      cases read
  | some name =>
      simp only [found] at read ⊢
      by_cases named : m.heap.sameName name (m.heap.registerName (m.base + r)) = true
      · rw [if_pos named] at read ⊢
        cases read
        rfl
      · rw [if_neg named] at read ⊢
        have same : ({ m with log } : Machine).lookupVariable name = m.lookupVariable name := rfl
        rw [same]
        cases looked : m.lookupVariable name with
        | ok w =>
            rw [looked] at read
            cases read
            rfl
        | error e =>
            rw [looked] at read
            cases read

theorem asks_calling (asks : m.Asks request) : ∃ log, step m = calling request { m with pc := m.pc + 1,log } := by
  cases asks with
  | block next opcode counts last calls live =>
      obtain ⟨log,stepped,_⟩ := block_calling next opcode counts last calls live
      exact ⟨log,stepped⟩
  | direct next opcode other calls bare =>
      cases calls with
      | argumentBlock => exact absurd rfl other
      | callFunction | callNamed => cases bare
      | call live =>
          obtain ⟨log,stepped,_⟩ := call_calling next opcode live
          exact ⟨log,stepped⟩
      | loadCall read live =>
          obtain ⟨log,dispatched,_⟩ := step_dispatches next
          refine ⟨log,?_⟩
          rw [dispatched]
          simp only [dispatch,opcode,perform,calling,bind,EStateM.bind,namedRegister_there read log,get_ok,live]
          rfl
      | callIfRef live waits =>
          obtain ⟨log,dispatched,_⟩ := step_dispatches next
          obtain ⟨pair,pending⟩ := Option.isSome_iff_exists.mp waits
          have pending : m.pending = some pair := pending
          refine ⟨log,?_⟩
          rw [dispatched]
          simp only [dispatch,opcode,perform,calling,bind,EStateM.bind,reg,get_ok,live,pending]
          rfl

theorem asks_arguments (asks : m.Asks request) : ∃ count, request.arguments = some count := by
  cases asks with
  | block => exact ⟨_,rfl⟩
  | direct _ _ _ _ bare => exact ⟨0,bare⟩

theorem block_asks (next : m.nextWord? = some word) (blocks : word.opcode? = some .argumentBlock) (done : step m = .ok progress m') :
    ∃ request, m.Asks request := by
  obtain ⟨log,dispatched,_⟩ := step_dispatches next
  rw [dispatched] at done
  simp only [dispatch,blocks,perform] at done
  obtain ⟨_,s,passed,_⟩ := bind_ok done
  by_cases negative : word.abcSigned < 0
  · simp only [argumentBlock,if_pos negative] at passed
    cases passed
  · obtain ⟨count,counts⟩ := Int.eq_ofNat_of_zero_le (Int.not_lt.mp negative)
    rw [counts,argumentBlock_parts] at passed
    split at passed
    · cases passed
    · rename_i call last
      split at passed
      · cases passed
      · rename_i calls
        split at passed
        · cases passed
        · rename_i f live
          exact ⟨_,.block next blocks counts last (not_not.mp calls) live⟩

theorem asks_reads (m : Machine) (log : Array LogLine) (count : Nat) (operands : List Value) :
    argumentValues { m with pc := m.pc + 1,log } { m with pc := m.pc + 1,log }.currentCode count (m.pc + 1) = .ok operands ↔
      operands.length = count ∧ m.Operands operands := by
  simp only [argumentValues_operands,currentCode_getElem,← argumentValue_operand]
  simp only [Operands,← argumentValue_operand]
  rfl

theorem Entered.before {pc : Nat} {log : Array LogLine} (entered : { m with pc,log }.Entered request callee operands m') :
    m.Entered request callee operands m' :=
  ⟨entered.parameters,entered.cleared,entered.others,entered.pending,entered.frame,entered.place⟩

section

variable (asks : m.Asks request) (found : m.functions[request.function]? = some callee) (compiled : callee.native = none)
  (given : request.arguments = some count)
include asks found compiled given

theorem asks_begins : ∃ log : Array LogLine, step m = match { m with pc := m.pc + 1,log }.admitted request callee count with
    | .error e => .error e { m with pc := m.pc + 1,log }
    | .ok operands => .ok .next ({ m with pc := m.pc + 1,log }.begun request callee operands) := by
  obtain ⟨log,called⟩ := asks_calling asks
  have begins := @enter_begins { m with pc := m.pc + 1,log } request callee count found compiled given
  refine ⟨log,?_⟩
  rw [called]
  simp only [calling,bind,EStateM.bind,begins]
  cases { m with pc := m.pc + 1,log }.admitted request callee count <;> rfl

theorem asks_entered (roomy : callee.parameters.size < callee.registers) (done : step m = .ok progress m') :
    ∃ operands, operands.length = count ∧ m.Operands operands ∧ m.Entered request callee operands m' := by
  obtain ⟨log,begins⟩ := asks_begins asks found compiled given
  rw [begins] at done
  cases admits : { m with pc := m.pc + 1,log }.admitted request callee count with
  | error e =>
      rw [admits] at done
      cases done
  | ok operands =>
      rw [admits] at done
      cases done
      obtain ⟨fits,few,values⟩ := admitted_ok admits
      obtain ⟨length,read⟩ := (m.asks_reads log count operands).mp values
      have taken : m.offset callee ≤ callee.parameters.size := bindsReceiver_first m callee
      have few : m.offset callee + operands.length ≤ callee.parameters.size := by
        rw [length]
        exact Nat.add_le_of_le_sub' taken few
      exact ⟨operands,length,read,(begun_entered (m := { m with pc := m.pc + 1,log }) roomy few fits).before⟩

variable (room : m.frames.size < m.config.callSlots) (fits : request.base + callee.registers ≤ m.heap.registers.size)
include room fits

theorem asks_many : (∃ s, step m = .error (.tooManyArguments got expected) s) ↔
    callee.parameters.size - m.offset callee < count ∧ got = count ∧ expected = callee.parameters.size - m.offset callee := by
  obtain ⟨log,begins⟩ := asks_begins asks found compiled given
  refine Iff.trans ?_ (admitted_many (m := { m with pc := m.pc + 1,log }) room fits)
  rw [begins]
  cases { m with pc := m.pc + 1,log }.admitted request callee count with
  | error e => simp
  | ok operands => simp

theorem asks_next (few : count ≤ callee.parameters.size - m.offset callee) (length : operands.length = count) (read : m.Operands operands) :
    ∃ m', step m = .ok .next m' := by
  obtain ⟨log,begins⟩ := asks_begins asks found compiled given
  have admits : { m with pc := m.pc + 1,log }.admitted request callee count = .ok operands :=
    (admitted_few (m := { m with pc := m.pc + 1,log }) room fits few).trans ((m.asks_reads log count operands).mpr ⟨length,read⟩)
  rw [begins,admits]
  exact ⟨_,rfl⟩

end

-- A call with an argument list leaves the machine at the start of its callee, in a window filled from the
-- registers before it.
theorem call_fills_window (m : Machine) :
    (∀ word progress m', m.nextWord? = some word → word.opcode? = some .argumentBlock → step m = .ok progress m' → ∃ request, m.Asks request) ∧
    ∀ request callee, m.Asks request → m.functions[request.function]? = some callee → callee.native = none →
      callee.parameters.size < callee.registers → ∃ count, request.arguments = some count ∧
        (∀ progress m', step m = .ok progress m' →
          ∃ operands, operands.length = count ∧ m.Operands operands ∧ m.Entered request callee operands m') ∧
        (m.frames.size < m.config.callSlots → request.base + callee.registers ≤ m.heap.registers.size →
          (∀ got expected, (∃ s, step m = .error (.tooManyArguments got expected) s) ↔
            callee.parameters.size - m.offset callee < count ∧ got = count ∧ expected = callee.parameters.size - m.offset callee) ∧
          ∀ operands, operands.length = count → m.Operands operands → count ≤ callee.parameters.size - m.offset callee →
            ∃ m', step m = .ok .next m') := by
  refine ⟨fun word progress m' next blocks done => block_asks next blocks done,fun request callee asks found compiled roomy => ?_⟩
  obtain ⟨count,given⟩ := asks_arguments asks
  refine ⟨count,given,fun progress m' done => asks_entered asks found compiled given roomy done,fun room fits => ⟨fun got expected => ?_,?_⟩⟩
  · exact asks_many asks found compiled given room fits
  · exact fun operands length read few => asks_next asks found compiled given room fits few length read

-- A method with a receiver, two arguments and a default. The receiver goes where the second argument was.
def overlappingBlock : Program where
  functions := [
    { name := "@main",registers := some 5,parameters := [],constants := []
      code := [.named "LOAD_rA_iBC" [1,3],.named "LOAD_rA_iBC" [2,7],.named "LOAD_rA_iBC" [3,8],.named "FUNCREF_iA_iBC" [4,1],
        .named "SETSELF_rA" [1],.named "ARGBLK_iABC" [2],.named "ARG_rA" [3],.named "ARG_rA" [2],.named "CALL_rA_rB_rC" [0,1,4],
        .named "RETURN" []] },
    { name := "method",registers := some 6,parameters := [⟨"self",.null⟩,⟨"a",.null⟩,⟨"b",.null⟩,⟨"c",.int 9⟩],constants := []
      code := [.named "RETURN" []] }]

theorem call_fills_window_overlapping : ∃ (m m' : Machine) (request : CallRequest) (callee : Function) (operands : List Value),
    m.Reachable ∧ m.pending = some (.int 3,.null) ∧ m.Operands operands ∧ step m = .ok .next m' ∧ m.Entered request callee operands m' ∧
      (List.range' 1 3).map m.heap.registerValue = [.int 3,.int 7,.int 8] ∧
      (List.range' 1 6).map m'.heap.registerValue = [.null,.int 3,.int 8,.int 7,.int 9,.null] := by
  obtain ⟨m,reachable,whole⟩ : ∃ m, m.Reachable ∧ m = ((Machine.load (.new { stackSlots := 8 }) overlappingBlock true).run 5).2 :=
    ⟨_,.run 5 (.load overlappingBlock true (.new { stackSlots := 8 })),rfl⟩
  obtain ⟨s,moved⟩ : ∃ s, s = { m with pc := m.pc + 1,log := m.log } := ⟨_,rfl⟩
  have facts : ((m.nextWord?.map fun word => (word.opcode?,word.abcSigned)) = some (some .argumentBlock,2) ∧
      (({ m with pc := m.pc + 1 + 2 } : Machine).nextWord?.map fun call =>
        ((call.opcode?,m.base + call.b),(m.heap.funcRef? (m.heap.registerValue (m.base + call.c))).map fun f =>
          m.functions[f.function]?.map fun callee => (callee.native.isNone,callee.registers,callee.parameters.size))) =
        some ((some .call,1),some (some (true,6,4)))) ∧
      (m.pending = some (.int 3,.null) ∧ m.frames.size < m.config.callSlots ∧ 1 + 6 ≤ m.heap.registers.size) ∧
      (List.range' 1 3).map m.heap.registerValue = [.int 3,.int 7,.int 8] ∧
      (argumentValues s s.currentCode 2 (m.pc + 1)).toOption = some [.int 8,.int 7] ∧
      (result? (step m)).map (fun out => (List.range' 1 6).map out.2.heap.registerValue) =
        some [.null,.int 3,.int 8,.int 7,.int 9,.null] := by
    rw [moved,whole]
    decide +kernel
  obtain ⟨⟨first,second⟩,⟨pending,room,fits⟩,before,values,after⟩ := facts
  obtain ⟨word,next,shape⟩ := Option.map_eq_some_iff.mp first
  obtain ⟨blocks,counts⟩ := Prod.mk.inj shape
  obtain ⟨call,last,shape⟩ := Option.map_eq_some_iff.mp second
  obtain ⟨shape,target⟩ := Prod.mk.inj shape
  obtain ⟨calls,base⟩ := Prod.mk.inj shape
  obtain ⟨f,live,target⟩ := Option.map_eq_some_iff.mp target
  obtain ⟨callee,found,shape⟩ := Option.map_eq_some_iff.mp target
  obtain ⟨compiled,shape⟩ := Prod.mk.inj shape
  obtain ⟨window,parameters⟩ := Prod.mk.inj shape
  have asks : m.Asks ({ m with pc := m.pc + 1 }.blockRequest 2 call f) := .block next blocks counts last calls live
  obtain ⟨count,given,entered,admits⟩ := (call_fills_window m).2 _ callee asks found (Option.isNone_iff_eq_none.mp compiled) (by omega)
  have read : m.Operands [.int 8,.int 7] := by
    cases done : argumentValues s s.currentCode 2 (m.pc + 1) with
    | error e =>
        rw [done] at values
        cases values
    | ok operands =>
        rw [done] at values
        cases values
        rw [moved] at done
        exact ((m.asks_reads m.log 2 _).mp done).2
  have few : 2 ≤ callee.parameters.size - m.offset callee := by
    rw [parameters,offset]
    split <;> decide
  obtain rfl : 2 = count := Option.some.inj given
  have inside : m.base + call.b + callee.registers ≤ m.heap.registers.size := by
    rw [base,window]
    exact fits
  obtain ⟨m',done⟩ := (admits room inside).2 [.int 8,.int 7] rfl read few
  obtain ⟨operands,_,read,entered⟩ := entered .next m' done
  rw [done] at after
  have after := Option.some.inj after
  exact ⟨m,m',_,callee,operands,reachable,pending,read,done,entered,before,after⟩

end Machine

end RegisterMachine
