import RegisterMachine.Proofs.Heap.Framing
import RegisterMachine.Proofs.Machine.Hosting
import RegisterMachine.Proofs.Machine.Operands

namespace RegisterMachine.Machine

variable {m m' : Machine} {b base : Nat}

-- A later machine with its window at or above a bound, and with the registers below as they were.
structure Above (b : Nat) (m m' : Machine) : Prop where
  base : b ≤ m'.base
  heap : Heap.Framed b m.heap m'.heap

theorem Above.trans (first : Above b m m') (second : Above b m' m'') : Above b m m'' := ⟨second.base,first.heap.trans second.heap⟩

-- Operations that write at or above a bound when the window is there.
def Stays (b : Nat) (operation : MachineM α) (m : Machine) : Prop := m.heap.Intact → b ≤ m.base → Above b m (left (operation m))

namespace Stays

theorem still {operation : MachineM α} (heap : (left (operation m)).heap = m.heap) (base : (left (operation m)).base = m.base) :
    Stays b operation m := by
  intro intact window
  constructor
  · rw [base]
    exact window
  · rw [heap]
    exact .refl intact

theorem pure (a : α) : Stays b (Pure.pure a) m := .still rfl rfl

theorem throw (e : Error) : Stays b (MonadExcept.throw e : MachineM α) m := .still rfl rfl

theorem get_bind {rest : Machine → MachineM β} (follows : Stays b (rest m) m) : Stays b (MonadState.get >>= rest) m := follows

theorem bind {first : MachineM α} {rest : α → MachineM β} (stays : Stays b first m)
    (follows : ∀ a s, first m = .ok a s → Stays b (rest a) s) : Stays b (first >>= rest) m := by
  intro intact base
  have start := stays intact base
  rcases left_bind first rest m with stopped | ⟨a,done,next⟩
  · rw [stopped]
    exact start
  · rw [next]
    exact start.trans (follows a _ done start.heap.intact start.base)

end Stays

theorem onHeap_framed {operation : HeapM α} (framed : m.heap.Intact → Heap.Framed b m.heap (Heap.after operation m.heap)) :
    Stays b (onHeap operation) m := by
  intro intact base
  have later := framed intact
  unfold Heap.after at later
  unfold onHeap
  cases result : operation m.heap with
  | ok a h | error e h =>
      simp only [result] at later ⊢
      exact ⟨base,later⟩

theorem onHeap_stays {operation : HeapM α} (frames : Heap.Frames b operation) : Stays b (onHeap operation) m :=
  onHeap_framed (frames m.heap)

theorem readHeap_stays (read : Heap → Except Error α) : Stays b (readHeap read) m := by
  unfold Stays readHeap
  cases read m.heap <;> exact fun intact base => ⟨base,.refl intact⟩

theorem setReg_stays (r : Nat) (v : Value) : Stays b (setReg r v) m :=
  fun intact base => ⟨base,.modify intact (base.trans (Nat.le_add_right _ r)) _⟩

theorem setRegName_stays (r : Nat) (name : Value) : Stays b (setRegName r name) m :=
  fun intact base => ⟨base,.modify intact (base.trans (Nat.le_add_right _ r)) _⟩

theorem reg_stays {rest : Value → MachineM β} (follows : Stays b (rest (m.heap.registerValue (m.base + r))) m) :
    Stays b (reg r >>= rest) m := follows

theorem store_stays {operation : MachineM Value} (stays : Stays b operation m) : Stays b (operation >>= setReg r) m :=
  stays.bind fun v _ _ => setReg_stays r v

theorem pending_stays (pending : Machine → Option (Value × Value)) : Stays b (modify fun m => m.setPending (pending m)) m :=
  fun intact base => ⟨base,(m.setPending_apart (pending m)).framed intact rfl⟩

theorem constant_stays (index : Nat) : Stays b (constant index) m := by
  unfold Stays constant
  cases m.functions[m.function]?.bind (·.constants[index]?) <;> exact fun intact base => ⟨base,.refl intact⟩

theorem namedRegister_stays (r k : Nat) : Stays b (namedRegister r k) m := by
  refine (constant_stays k).bind fun name s _ => ?_
  unfold Stays
  simp only
  split
  · exact fun intact base => ⟨base,.refl intact⟩
  · cases s.lookupVariable name <;> exact fun intact base => ⟨base,.refl intact⟩

theorem ensureWindow_left (base size : Nat) (m : Machine) : left (ensureWindow base size m) = m := by
  unfold ensureWindow
  by_cases beyond : base + size > m.heap.registers.size
  · simp only [if_pos beyond]
    rfl
  · simp only [if_neg beyond]
    rfl

theorem runIntrinsic_stays (intrinsic : Intrinsic) (arg : Nat → Value) (aliases : m.heap.AliasesFrom b) :
    Stays b (runIntrinsic intrinsic arg) m := by
  cases intrinsic with
  | print => exact .still rfl rfl
  | input =>
      have asked : Stays b (modifyGet (·.askLine (if (arg 0).isNull then "" else m.heap.display (arg 0)))) m := .still rfl rfl
      exact Stays.get_bind (asked.bind fun line s _ => onHeap_stays (Heap.newString_frames line))
  | val | isFrozen | hasIndex | number | string | list | map | funcRef => exact .still rfl rfl
  | str => exact onHeap_stays (.of_spares (Heap.toStringValue_spares _))
  | len =>
      apply Stays.get_bind
      simp only
      split
      · exact .pure _
      · exact .throw _
  | remove => exact onHeap_framed fun intact => Heap.removeFrom_framed _ intact (aliases.beyond _)
  | freeze =>
      have frozen : Stays b (modifyHeap (·.freeze (arg 0))) m := fun intact base => ⟨base,Heap.freeze_framed _ intact⟩
      exact frozen.bind fun _ _ _ => .pure _
  | frozenCopy => exact onHeap_stays (Heap.frozenCopy_frames _)
  | push => exact onHeap_framed fun intact => Heap.pushOnto_framed _ intact (aliases.beyond _)
  | pop => exact onHeap_framed fun intact => Heap.popFrom_framed intact (aliases.beyond _)
  | pull => exact onHeap_framed fun intact => Heap.pullFrom_framed intact (aliases.beyond _)
  | insert => exact onHeap_stays (Heap.insertInto_frames _ _ _)
  | indexOf => exact readHeap_stays (·.indexIn (arg 0) (arg 1))
  | indexes => exact onHeap_stays (Heap.indexesOf_frames _)
  | values => exact onHeap_stays (Heap.valuesOf_frames _)
  | sort =>
      simp only [runIntrinsic]
      split
      · exact (onHeap_stays (Heap.listSort_frames _ _)).bind fun _ _ _ => .pure _
      · exact .pure _
  | join => exact onHeap_stays (Heap.joinItems_frames _ _)
  | upper | lower | trim =>
      simp only [runIntrinsic]
      split
      · exact onHeap_stays (.of_spares (Heap.mapText_spares _ _))
      · exact .pure _
  | split => exact onHeap_stays (Heap.splitAt_frames _ _)
  | replace => exact onHeap_framed fun intact => Heap.replaceIn_framed _ _ intact (aliases.beyond _)
  | slice => exact onHeap_stays (Heap.sliceOf_frames _ _ _ _)

theorem runNative_stays (native : Native) (base : Nat) (aliases : m.heap.AliasesFrom b) : Stays b (runNative native base) m := by
  apply Stays.get_bind
  simp only
  cases native with
  | intrinsic intrinsic => exact runIntrinsic_stays intrinsic _ aliases
  | host function =>
      cases function with
      | raise | fail => exact .still rfl rfl
      | pair => exact onHeap_stays (Heap.newListOf_frames _ _)

-- The same heap with other registers, none of them below a bound.
def Refilled (b : Nat) (h h' : Heap) : Prop := ∃ registers, h' = { h with registers } ∧ ∀ i, i < b → registers[i]? = h.registers[i]?

theorem Refilled.refl (h : Heap) : Refilled b h h := ⟨h.registers,rfl,fun _ _ => rfl⟩

theorem Refilled.trans {h h' h'' : Heap} (first : Refilled b h h') (second : Refilled b h' h'') : Refilled b h h'' := by
  obtain ⟨registers,rfl,before⟩ := first
  obtain ⟨registers',rfl,later⟩ := second
  exact ⟨registers',rfl,fun i below => (later i below).trans (before i below)⟩

theorem Refilled.assign (above : b ≤ j) (h : Heap) (name v : Value) : Refilled b h (h.assignRegister j name v) :=
  ⟨_,rfl,fun i below => by rw [Array.getElem?_modify,if_neg (by omega)]⟩

theorem Refilled.assignAll (steps : List α) {register : α → Nat} (name value : α → Value) (above : ∀ a, b ≤ register a) (h : Heap) :
    Refilled b h (steps.foldl (fun h a => h.assignRegister (register a) (name a) (value a)) h) := by
  induction steps generalizing h with
  | nil => exact .refl h
  | cons a rest ih => exact (Refilled.assign (above a) h (name a) (value a)).trans (ih _)

theorem Refilled.framed {h h' : Heap} (refilled : Refilled b h h') (intact : h.Intact) : Heap.Framed b h h' := by
  obtain ⟨registers,rfl,same⟩ := refilled
  exact ⟨(Heap.Step.apart (Heap.registers_apart h registers)).intact intact,same⟩

theorem Refilled.slots {h h' : Heap} (refilled : Refilled b h h') : h'.slots = h.slots := by
  obtain ⟨registers,rfl,_⟩ := refilled
  rfl

theorem fillParameters_refilled (callee : Function) (above : b ≤ base) (p : Nat) (values : List Value) (h : Heap) :
    Refilled b h (fillParameters callee base p values h) := by
  induction values generalizing p h with
  | nil => exact .refl h
  | cons v rest ih => exact (Refilled.assign (above.trans (by omega)) h _ v).trans (ih _ _)

theorem fillDefaults_refilled (callee : Function) (above : b ≤ base) (filled : Nat) (h : Heap) :
    Refilled b h (fillDefaults callee filled base h) :=
  .assignAll _ (fun p => (callee.parameters.getD p default).name) (fun p => (callee.parameters.getD p default).default)
    (fun p => (show b ≤ base + 1 + p by omega)) h

theorem clearWindow_refilled (callee : Function) (above : b ≤ base) (h : Heap) : Refilled b h (clearWindow callee base h) :=
  (Refilled.assign above h .null .null).trans
    (.assignAll _ (fun _ => .null) (fun _ => .null) (fun r => (show b ≤ base + r by omega)) _)

-- What seating the arguments of a call does: registers of the new window, and the pending receiver.
structure Seats (b : Nat) (m m' : Machine) : Prop where
  base : m'.base = m.base
  slots : m'.heap.slots = m.heap.slots
  heap : m.heap.Intact → Heap.Framed b m.heap m'.heap

theorem Seats.refl (m : Machine) : Seats b m m := ⟨rfl,rfl,.refl⟩

theorem Seats.trans (first : Seats b m m') (second : Seats b m' m'') : Seats b m m'' :=
  ⟨second.base.trans first.base,second.slots.trans first.slots,fun intact => (first.heap intact).trans (second.heap (first.heap intact).intact)⟩

theorem Seats.bind {first : MachineM α} {rest : α → MachineM β} (seats : Seats b m (left (first m)))
    (follows : ∀ a s, Seats b s (left (rest a s))) : Seats b m (left ((first >>= rest) m)) := by
  rcases left_bind first rest m with stopped | ⟨a,_,next⟩
  · rw [stopped]
    exact seats
  · rw [next]
    exact seats.trans (follows a _)

theorem Refilled.seats {h : Heap} (refilled : Refilled b m.heap h) : Seats b m { m with heap := h } :=
  ⟨rfl,refilled.slots,refilled.framed⟩

theorem passArguments_seats (callee : Function) (count first : Nat) (above : b ≤ base) (m : Machine) :
    Seats b m (left (passArguments callee count first base m)) := by
  simp only [passArguments]
  by_cases many : count > callee.parameters.size - first
  · rw [if_pos many]
    exact .refl m
  · rw [if_neg many]
    generalize argumentValues m _ count m.pc = read
    cases read with
    | error e => exact .refl m
    | ok values =>
        refine Refilled.seats ?_
        exact ((fillParameters_refilled callee above first values m.heap).trans (fillDefaults_refilled callee above _ _)).trans
          (clearWindow_refilled callee above _)

theorem seat_seats {request : CallRequest} (above : b ≤ request.base) (callee : Function) (binds : Bool) (pending : Option (Value × Value))
    (m : Machine) : Seats b m (left (seat request callee binds pending m)) := by
  refine Seats.bind (by rw [ensureWindow_left]; exact .refl m) fun _ s => ?_
  have passed : Seats b s (left (seatArguments request callee binds s)) := by
    unfold seatArguments
    cases request.arguments with
    | some count => exact passArguments_seats callee count _ above s
    | none => exact .refl s
  refine passed.bind fun _ s' => ?_
  have cleared : Seats b s' (left ((modify (·.setPending none) : MachineM PUnit) s')) :=
    ⟨rfl,rfl,fun intact => (s'.setPending_apart none).framed intact rfl⟩
  refine cleared.bind fun _ s'' => ?_
  unfold seatReceiver
  split
  · exact Refilled.seats (.assign (above.trans (Nat.le_add_right _ 1)) _ _ _)
  · exact .refl s''

theorem addRoot_registers (h : Heap) (v : Value) : (h.addRoot v).2.registers = h.registers := by
  unfold Heap.addRoot
  split <;> rfl

theorem set_registers (p : Pinned) (h : Heap) (v : Value) : (p.set h v).2.registers = h.registers := by
  unfold Pinned.set
  split
  · rfl
  · split
    · exact addRoot_registers h v
    · rfl

theorem pushFrame_registers (m : Machine) (frame : Frame) (outer : Value) (pending : Option (Value × Value)) :
    (m.pushFrame frame outer pending).heap.registers = m.heap.registers := by
  have first := set_registers frame.outer m.heap outer
  cases pending with
  | none => exact first
  | some pair => exact ((set_registers frame.parent _ pair.2).trans (set_registers frame.receiver _ pair.1)).trans first

theorem pushFrame_stays {frame : Machine → Frame} (outer : Value) (pending : Option (Value × Value)) (above : ∀ m, b ≤ (frame m).base) :
    Stays b (modify fun m => m.pushFrame (frame m) outer pending) m :=
  fun intact _ => ⟨above m,(m.pushFrame_apart (frame m) outer pending).framed intact (m.pushFrame_registers (frame m) outer pending)⟩

theorem launch_stays {request : CallRequest} (above : b ≤ request.base) (callee : Function) (pending : Option (Value × Value))
    (aliases : m.heap.AliasesFrom b) : Stays b (launch request callee pending) m := by
  cases found : callee.native with
  | some native =>
      simp only [launch,found]
      refine (runNative_stays native request.base aliases).bind fun result s _ => Stays.get_bind ?_
      refine Stays.bind (fun intact base => ⟨base,.modify intact ?_ _⟩) fun _ _ _ => .still rfl rfl
      cases request.destination with
      | some d => exact base.trans (Nat.le_add_right _ _)
      | none => exact above
  | none =>
      simp only [launch,found]
      exact pushFrame_stays request.outer pending fun _ => above

theorem enter_stays {request : CallRequest} (above : b ≤ request.base) (aliases : m.heap.AliasesFrom b) : Stays b (enter request) m := by
  rw [enter_seats]
  apply Stays.get_bind
  split
  · exact .throw _
  · rename_i callee _
    simp only
    split
    · exact .still rfl rfl
    · have seats := seat_seats above callee (m.bindsReceiver callee) m.pending m
      have stays : Stays b (seat request callee (m.bindsReceiver callee) m.pending) m :=
        fun intact base => ⟨seats.base ▸ base,seats.heap intact⟩
      refine stays.bind fun _ s seated => launch_stays above callee _ ?_
      rw [seated] at seats
      exact aliases.slots seats.slots

theorem callRef_stays (f : FuncRef) (offset destination : Nat) (aliases : m.heap.AliasesFrom b) (window : b ≤ m.base) :
    Stays b (callRef f (m.base + offset) destination) m :=
  Stays.get_bind (enter_stays (window.trans (Nat.le_add_right _ offset)) aliases)

theorem callAbove_stays (f : FuncRef) (destination : Nat) (aliases : m.heap.AliasesFrom b) (window : b ≤ m.base) :
    Stays b (callAbove f destination) m :=
  Stays.get_bind (callRef_stays f _ destination aliases window)

theorem localsMap_frames (m : Machine) (frame : Frame) : Heap.Frames b (m.localsMap frame) := by
  unfold localsMap
  split
  · exact .of_spares (Heap.newMap_spares 4)
  · exact .of_spares (Heap.newAliasMap_spares _ _)

theorem setFrameLocals_registers (m : Machine) (index : Nat) (v : Value) : (m.setFrameLocals index v).heap.registers = m.heap.registers := by
  unfold setFrameLocals
  split
  · rfl
  · exact set_registers _ _ _

theorem setFrameLocals_stays (index : Nat) (v : Value) : Stays b (modify (·.setFrameLocals index v)) m := by
  intro intact window
  refine ⟨?_,(m.setFrameLocals_apart index v).framed intact (m.setFrameLocals_registers index v)⟩
  show b ≤ (m.setFrameLocals index v).base
  unfold setFrameLocals
  split <;> exact window

theorem frameLocals_stays (index : Nat) : Stays b (frameLocals index) m := by
  apply Stays.get_bind
  split
  · exact .pure _
  · rename_i frame _
    split
    · exact .pure _
    · have made : Stays b (onHeap (m.localsMap frame)) m := onHeap_stays (m.localsMap_frames frame)
      exact made.bind fun map s _ => (setFrameLocals_stays index map).bind fun _ _ _ => .pure _

theorem currentLocals_stays : Stays b currentLocals m := Stays.get_bind (frameLocals_stays _)

theorem outerVariables_stays : Stays b outerVariables m := by
  apply Stays.get_bind
  split
  · split
    · exact .pure _
    · exact frameLocals_stays 0
  · exact frameLocals_stays 0

theorem nameRegister_stays (r : Nat) (name : Value) : Stays b (nameRegister r name) m := by
  refine (setRegName_stays r name).bind fun _ s _ => Stays.get_bind ?_
  split
  · split
    · exact onHeap_stays (Heap.bindRegister_frames _ _ _)
    · exact .pure _
  · exact .pure _

theorem findMethod_stays (container key : Value) : Stays b (findMethod container key) m := by
  apply Stays.get_bind
  simp only
  split
  · exact (pending_stays fun _ => _).bind fun _ _ _ => .pure _
  · split
    · exact (pending_stays fun _ => _).bind fun _ _ _ => .pure _
    · split
      · exact .throw _
      · exact readHeap_stays _
      · exact readHeap_stays _
      · exact readHeap_stays _
      · exact .throw _

theorem jump_stays (offset : Int) : Stays b (jump offset) m := by
  apply Stays.get_bind
  simp only
  split
  · exact .throw _
  · exact .still rfl rfl

theorem skipNext_stays : Stays b skipNext m := .still rfl rfl

theorem decides_stays (comparison : Comparison) (leftReg rightReg : Nat) (leftImm rightImm : Int) :
    Stays b (decides comparison leftReg rightReg leftImm rightImm) m := by
  unfold decides
  cases comparison.sides <;> exact .still rfl rfl

theorem binary_stays (operation : BinaryOperation) (x y : Value) : Stays b (binary operation x y) m := by
  cases operation with
  | add => exact onHeap_stays (.of_spares (Heap.add_spares _ _))
  | mult => exact onHeap_stays (.of_spares (Heap.mult_spares _ _))
  | div => exact onHeap_stays (.of_spares (Heap.div_spares _ _))
  | sub | mod | and | or => exact .still rfl rfl

theorem setIndexed_stays (container index v : Value) (aliases : m.heap.AliasesFrom b) : Stays b (setIndexed container index v) m := by
  unfold setIndexed
  split
  · exact onHeap_stays (Heap.listSet_frames _ _ _)
  · exact onHeap_framed fun intact => (Heap.mapSet_framed index v intact (aliases.beyond _)).1
  · exact Stays.get_bind (.throw _)

theorem iterated_stays (container : Value) (index : Int32) : Stays b (iterated container index) m := by
  unfold iterated
  split
  · exact readHeap_stays _
  · exact readHeap_stays _
  · exact readHeap_stays _
  · exact onHeap_stays (Heap.entryPair_frames _ _)
  · exact .pure _

theorem argumentBlock_stays (count : Int) (aliases : m.heap.AliasesFrom b) (window : b ≤ m.base) : Stays b (argumentBlock count) m := by
  unfold argumentBlock
  simp only
  split
  · exact .still rfl rfl
  · apply Stays.get_bind
    split
    · exact .throw _
    · split
      · exact .still rfl rfl
      · split
        · exact .throw _
        · exact enter_stays (window.trans (Nat.le_add_right _ _)) aliases

-- One opcode at a time. A callee starts at a register of the caller or above.
theorem perform_stays (op : Opcode) (word : Word) (aliases : m.heap.AliasesFrom b) (window : b ≤ m.base) :
    Stays b (perform op word) m := by
  have cleared : Stays b (modify (·.setPending none)) m := pending_stays fun _ => none
  cases op with
  | noop | ret => exact .pure _
  | copy => exact reg_stays (setReg_stays _ _)
  | loadInt | loadNull => exact setReg_stays _ _
  | loadConstant => exact store_stays (constant_stays _)
  | loadVariable => exact store_stays (namedRegister_stays _ _)
  | loadCall =>
      refine (namedRegister_stays _ _).bind fun v s read => ?_
      cases namedRegister_same read
      apply Stays.get_bind
      split
      · exact callAbove_stays _ _ aliases window
      · exact setReg_stays _ _
  | funcRef => exact currentLocals_stays.bind fun _ _ _ => store_stays (onHeap_stays (.of_spares (Heap.newFuncRef_spares _ _)))
  | assign =>
      refine reg_stays ((setReg_stays _ _).bind fun _ _ _ => ?_)
      exact (constant_stays _).bind fun name _ _ => nameRegister_stays _ _
  | name => exact (constant_stays _).bind fun name _ _ => nameRegister_stays _ _
  | binary operation => exact reg_stays (reg_stays (store_stays (binary_stays _ _ _)))
  | not => exact reg_stays (Stays.get_bind (setReg_stays _ _))
  | list => exact store_stays (onHeap_stays (Heap.newListOf_frames _ _))
  | map => exact store_stays (onHeap_stays (.of_spares (Heap.newMap_spares _)))
  | push => exact reg_stays (reg_stays (onHeap_stays (Heap.updateList_frames _ _)))
  | index => exact reg_stays (reg_stays (store_stays (readHeap_stays _)))
  | setIndex => exact reg_stays (reg_stays (reg_stays (setIndexed_stays _ _ _ aliases)))
  | slice => exact reg_stays (reg_stays (reg_stays (store_stays (onHeap_stays (Heap.sliceOf_frames _ _ _ _)))))
  | locals => exact currentLocals_stays.bind fun _ _ _ => (setReg_stays _ _).bind fun _ _ _ => setRegName_stays _ _
  | outer => exact outerVariables_stays.bind fun _ _ _ => (setReg_stays _ _).bind fun _ _ _ => setRegName_stays _ _
  | globals => exact (frameLocals_stays 0).bind fun _ _ _ => (setReg_stays _ _).bind fun _ _ _ => setRegName_stays _ _
  | jump => exact jump_stays _
  | test comparison => exact (decides_stays _ _ _ _ _).bind fun _ _ _ => setReg_stays _ _
  | branchTrue =>
      refine reg_stays (Stays.get_bind ?_)
      split
      · exact jump_stays _
      · exact .pure _
  | branchFalse =>
      refine reg_stays (Stays.get_bind ?_)
      split
      · exact jump_stays _
      · exact .pure _
  | branch comparison =>
      refine (decides_stays _ _ _ _ _).bind fun _ _ _ => ?_
      split
      · exact jump_stays _
      · exact .pure _
  | skip comparison =>
      refine (decides_stays _ _ _ _ _).bind fun _ _ _ => ?_
      split
      · exact skipNext_stays
      · exact .pure _
  | next =>
      refine reg_stays ((setReg_stays _ _).bind fun _ s _ => reg_stays (Stays.get_bind ?_))
      simp only
      split
      · exact skipNext_stays
      · exact .pure _
  | argumentBlock => exact argumentBlock_stays word.abcSigned aliases window
  | argument | argumentInt => exact .throw _
  | callFunction => exact Stays.get_bind (enter_stays (window.trans (Nat.le_add_right _ _)) aliases)
  | callNamed =>
      refine (constant_stays _).bind fun name s read => ?_
      cases constant_same read
      apply Stays.get_bind
      simp only
      split
      · exact .throw _
      · exact enter_stays (window.trans (Nat.le_add_right _ _)) aliases
  | call =>
      refine reg_stays (Stays.get_bind ?_)
      split
      · exact callRef_stays _ _ _ aliases window
      · exact cleared.bind fun _ _ _ => setReg_stays _ _
  | new => exact reg_stays (store_stays (onHeap_stays (Heap.newChild_frames _)))
  | isa => exact reg_stays (reg_stays (Stays.get_bind (setReg_stays _ _)))
  | findMethod => exact reg_stays (reg_stays (store_stays (findMethod_stays _ _)))
  | setSelf => exact reg_stays (pending_stays fun m => some (_,(m.pending.map Prod.snd).getD .null))
  | callIfRef =>
      refine reg_stays (Stays.get_bind ?_)
      split
      · exact callAbove_stays _ _ aliases window
      · exact cleared
  | iterGet => exact reg_stays (reg_stays (store_stays (iterated_stays _ _)))

theorem fetch_stays : Stays b fetch m := by
  obtain ⟨pc,log,plain⟩ := m.fetch_plain
  exact .still (by rw [plain]) (by rw [plain])

theorem removeRoot_registers (h : Heap) (id : Nat) : (h.removeRoot id).registers = h.registers := by
  unfold Heap.removeRoot
  split <;> rfl

theorem release_registers (frame : Frame) (h : Heap) : (frame.release h).registers = h.registers := by
  have each : ∀ (p : Pinned) (h : Heap), (p.release h).registers = h.registers := by
    intro p h
    unfold Pinned.release
    split
    · exact removeRoot_registers h _
    · rfl
  simp only [Frame.release,each]

-- The registers after a return: the caller's destination, if it asked for one, has the value of the
-- callee's register 0.
def returned (m : Machine) (call : CallInfo) : Array Register :=
  match call.destination with
  | none => m.heap.registers
  | some d => m.heap.registers.modify (call.returnBase + d) ({ · with value := m.heap.registerValue m.base })

theorem resume_returned {frame : Frame} {h : Heap} (registers : h.registers = m.heap.registers) :
    ∃ s, resume frame (m.heap.registerValue m.base) { m with frames := m.frames.pop,heap := h } = .ok none s ∧
      s.base = frame.call.returnBase ∧ s.heap.registers = m.returned frame.call := by
  have released : (frame.release h).registers = m.heap.registers := (release_registers frame h).trans registers
  unfold resume returned
  cases frame.call.destination with
  | none => exact ⟨_,rfl,rfl,released⟩
  | some d =>
      refine ⟨_,rfl,rfl,?_⟩
      exact congrArg (fun registers => registers.modify (frame.call.returnBase + d) ({ · with value := m.heap.registerValue m.base })) released

-- A return that fails has changed no register either.
theorem leave_returned (deep : 1 < m.frames.size) : ∃ frame, m.topFrame? = some frame ∧ match leave m with
    | .ok result s => result = none ∧ s.base = frame.call.returnBase ∧ s.heap.registers = m.returned frame.call
    | .error _ s => s.base = m.base ∧ s.heap.registers = m.heap.registers := by
  obtain ⟨frame,top⟩ : ∃ frame, m.topFrame? = some frame := ⟨_,m.topFrame_getElem.trans (Array.getElem?_eq_getElem (by omega))⟩
  refine ⟨frame,top,?_⟩
  rw [leave_parts]
  simp only [bind,EStateM.bind,get_ok,if_neg (Nat.not_le.mpr deep),top,modify_ok]
  cases frame.locals.value.isMap with
  | false =>
      obtain ⟨s,done,base,registers⟩ := @resume_returned m frame m.heap rfl
      simp only [Bool.false_eq_true,if_false,done]
      exact ⟨trivial,base,registers⟩
  | true =>
      have gathered := Heap.gather_registers frame.locals.value m.heap
      simp only [if_true,onHeap,Heap.after,EStateM.bind] at gathered ⊢
      cases result : Heap.gather frame.locals.value m.heap with
      | error e h =>
          rw [result] at gathered
          exact ⟨rfl,gathered⟩
      | ok _ h =>
          rw [result] at gathered
          obtain ⟨s,done,base,registers⟩ := @resume_returned m frame h gathered
          simp only [done]
          exact ⟨trivial,base,registers⟩

theorem step_stays (aliases : m.heap.AliasesFrom b) (window : b ≤ m.base) (other : ∀ word, m.nextWord? = some word → word.opcode? ≠ some .ret) :
    Stays b step m := by
  refine fetch_stays.bind fun word s fetched => ?_
  obtain ⟨pc,log,plain⟩ := m.fetch_plain
  rw [fetched] at plain
  cases plain
  split
  · exact .throw _
  · rename_i known
    exact absurd known (other word (fetch_next fetched))
  · exact (@perform_stays { m with pc,log } b _ word aliases window).bind fun _ _ _ => .pure _

theorem fetch_reads (next : m.nextWord? = some word) : ∃ pc log, fetch m = .ok word { m with pc,log } := by
  obtain ⟨f,found,read⟩ := Option.bind_eq_some_iff.mp next
  unfold fetch
  simp only [found,read]
  cases m.config.trace <;> exact ⟨_,_,rfl⟩

theorem step_returned (next : m.nextWord? = some word) (known : word.opcode? = some .ret) (deep : 1 < m.frames.size) :
    ∃ frame, m.topFrame? = some frame ∧ match step m with
      | .ok _ s => s.base = frame.call.returnBase ∧ s.heap.registers = m.returned frame.call
      | .error _ s => s.base = m.base ∧ s.heap.registers = m.heap.registers := by
  obtain ⟨pc,log,fetched⟩ := fetch_reads next
  obtain ⟨frame,top,left⟩ := @leave_returned { m with pc,log } deep
  refine ⟨frame,top,?_⟩
  simp only [step,bind,EStateM.bind,fetched,known]
  cases done : leave { m with pc,log } with
  | error e s =>
      rw [done] at left
      exact left
  | ok result s =>
      rw [done] at left
      obtain ⟨rfl,base,registers⟩ := left
      exact ⟨base,registers⟩

theorem Deeds.intact (deeds : Deeds (fun _ _ => False) m m') (intact : m.heap.Intact) : m'.heap.Intact := by
  induction deeds with
  | refl => exact intact
  | trans _ _ first second => exact second (first intact)
  | heap tended => exact tended.intact intact
  | tools | raise | lose => exact intact
  | @pending m pending => exact (Heap.Step.apart (m.setPending_apart pending)).intact intact
  | @locals v h i m frame made =>
      exact (Heap.Step.apart ({ m with heap := h }.setFrameLocals_apart i v)).intact ((localsMap_tended made).intact intact)
  | push => exact (Heap.Step.apart (pushFrame_apart _ _ _ _)).intact intact
  | pop => exact (Heap.Step.apart (release_apart _ _)).intact intact
  | native impossible => exact impossible.elim

theorem Loads.intact {result : EStateM.Result Error Machine Unit} (loads : Loads m result) (intact : m.heap.Intact) :
    (left result).heap.Intact := by
  cases loads with
  | rejected => exact intact
  | halted _ furnished => exact furnished.acts.intact intact
  | cramped _ furnished readied | loaded _ furnished readied => exact readied.heap.intact (furnished.acts.intact intact)

theorem Hosted.intact (hosted : Hosted calls m) : m.heap.Intact := by
  induction hosted with
  | new config => exact (new_safe config).toIntact
  | @call m call _ _ ih => exact (call.steps m.heap).intact ih
  | feed | register => assumption
  | @reset m functions _ ih => exact (reset_loads functions m).intact ((@unload_acts (fun _ => True) functions m).intact ih)
  | @step m _ ih => exact (step_does m).intact ih
  | @run m budget _ ih =>
      refine (m.run_ends budget).keeps (fun _ _ deeds => deeds.intact) (fun _ _ before => before) (fun s v before => ?_) ih
      exact (Heap.Step.apart (by constructor <;> rfl)).intact before

theorem leave_last (last : m.frames.size ≤ 1) : leave m = .ok (some (m.heap.registerValue m.base)) m := by
  rw [leave_parts]
  simp only [bind,EStateM.bind,get_ok,if_pos last]
  rfl

theorem returned_below {call : CallInfo} (below : i < call.returnBase) : (m.returned call)[i]? = m.heap.registers[i]? := by
  unfold returned
  cases call.destination with
  | none => rfl
  | some d => rw [Array.getElem?_modify,if_neg (by omega)]

-- A return is inside when the window of the caller is: its result goes there.
theorem step_above (aliases : m.heap.AliasesFrom b) (intact : m.heap.Intact) (window : b ≤ m.base) (inside : b ≤ (left (step m)).base) :
    Above b m (left (step m)) := by
  by_cases other : ∀ word, m.nextWord? = some word → word.opcode? ≠ some .ret
  · exact step_stays aliases window other intact window
  · push Not at other
    obtain ⟨word,next,known⟩ := other
    refine ⟨inside,(step_does m).intact intact,fun i below => ?_⟩
    by_cases deep : 1 < m.frames.size
    · obtain ⟨frame,_,returned⟩ := step_returned next known deep
      cases stepped : step m with
      | error e s =>
          rw [stepped] at returned
          exact congrArg (·[i]?) returned.2
      | ok progress s =>
          rw [stepped] at inside returned
          have caller : i < frame.call.returnBase := by
            rw [← returned.1]
            exact Nat.lt_of_lt_of_le below inside
          exact (congrArg (·[i]?) returned.2).trans (returned_below caller)
    · obtain ⟨pc,log,fetched⟩ := fetch_reads next
      have ended := @leave_last { m with pc,log } (Nat.not_lt.mp deep)
      simp only [step,bind,EStateM.bind,fetched,known,ended]
      rfl

inductive Inside (b : Nat) : Machine → Machine → Prop where
  | refl {m : Machine} : Inside b m m
  | step {m m' : Machine} : m.heap.AliasesFrom b → b ≤ (left (step m)).base → Inside b (left (step m)) m' → Inside b m m'

theorem Inside.above (run : Inside b m m') (intact : m.heap.Intact) (window : b ≤ m.base) : Above b m m' := by
  induction run with
  | refl => exact ⟨window,.refl intact⟩
  | step aliases inside _ ih =>
      have first := step_above aliases intact window inside
      exact first.trans (ih first.heap.intact inside)

-- Every instruction but a return leaves the registers below the window as they were, names and values,
-- when no map has an alias of one of them. A return to a caller changes one value at most: that of the
-- register where the caller wants the result.
theorem callers_untouched : (∀ m : Machine, m.Reachable → m.heap.Intact) ∧ (∀ m : Machine, Hosted (fun _ => True) m → m.heap.Intact) ∧
    ∀ m : Machine, m.heap.Intact →
      (m.heap.AliasesFrom m.base → (∀ word, m.nextWord? = some word → word.opcode? ≠ some .ret) →
        ∀ i < m.base, (left (step m)).heap.registers[i]? = m.heap.registers[i]?) ∧
      ∀ word, m.nextWord? = some word → word.opcode? = some .ret → 1 < m.frames.size →
        ∃ frame, m.topFrame? = some frame ∧ match step m with
          | .ok _ s => s.heap.registers = m.returned frame.call
          | .error _ s => s.heap.registers = m.heap.registers := by
  refine ⟨fun m reachable => reachable.secure.safe.toIntact,fun m => Hosted.intact,fun m intact => ⟨fun aliases other i below => ?_,?_⟩⟩
  · exact (step_stays aliases (Nat.le_refl _) other intact (Nat.le_refl _)).heap.registers i below
  · intro word next known deep
    obtain ⟨frame,top,returned⟩ := step_returned next known deep
    refine ⟨frame,top,?_⟩
    split at returned
    · exact returned.2
    · exact returned.2

-- A function that sets its variable by way of the map of its locals, and returns what the map gives.
def setting : Program where
  functions := [
    { name := "@main",registers := some 4,parameters := [],constants := []
      code := [.named "FUNCREF_iA_iBC" [1,1],.named "CALL_rA_rB_rC" [2,4,1],.named "RETURN" []] },
    { name := "setter",registers := some 4,parameters := [],constants := [.string "x"]
      code := [.named "LOAD_rA_iBC" [1,7],.named "NAME_rA_kBC" [1,0],.named "LOCALS_rA" [2],.named "LOAD_rA_kBC" [0,0],
        .named "LOAD_rA_iBC" [3,9],.named "IDXSET_rA_rB_rC" [2,0,3],.named "INDEX_rA_rB_rC" [0,2,0],.named "RETURN" []] }]

-- The alias is of register 5, which the setting changes; the window of the caller ends at register 4. The
-- return changes register 2 alone.
theorem callers_untouched_setter : ∃ m s : Machine, m.Reachable ∧ m.base = 4 ∧ m.heap.registerValue 5 = .int 7 ∧
    (left (step m)).heap.registerValue 5 = .int 9 ∧ (∀ i < 4, (left (step m)).heap.registers[i]? = m.heap.registers[i]?) ∧
    s = (m.run 2).2 ∧ s.heap.registerValue 2 = .null ∧
    (left (step s)).heap.registers = s.heap.registers.modify 2 ({ · with value := .int 9 }) := by
  have reachable := Reachable.run 7 (.load setting true (.new { stackSlots := 8 }))
  generalize whole : ((Machine.load _ setting true).run 7).2 = m at reachable
  have later := Reachable.run 2 reachable
  generalize done : (m.run 2).2 = s at later
  have facts : (m.base = 4 ∧ m.heap.registerValue 5 = .int 7 ∧ (left (step m)).heap.registerValue 5 = .int 9 ∧
        m.heap.AliasesFrom 4 ∧ m.nextWord?.bind Word.opcode? = some .setIndex) ∧
      s.nextWord?.bind Word.opcode? = some .ret ∧ 1 < s.frames.size ∧
      s.topFrame?.map (fun frame => (frame.call.returnBase,frame.call.destination)) = some (0,some 2) ∧
      s.heap.registerValue s.base = .int 9 ∧ s.heap.registerValue 2 = .null ∧
      (match step s with
        | .ok _ _ => true
        | .error _ _ => false) = true := by
    rw [← done,← whole]
    decide +kernel
  obtain ⟨⟨base,before,after,aliases,setting⟩,returning,deep,call,value,blank,goes⟩ := facts
  obtain ⟨word,next,known⟩ := Option.bind_eq_some_iff.mp returning
  refine ⟨m,s,reachable,base,before,after,fun i below => ?_,done.symm,blank,?_⟩
  · have kept := (callers_untouched.2.2 m (callers_untouched.1 m reachable)).1
    rw [base] at kept
    refine kept aliases (fun word next known => ?_) i below
    rw [next,Option.bind_some,known] at setting
    cases setting
  · obtain ⟨frame,top,registers⟩ := (callers_untouched.2.2 s (callers_untouched.1 s later)).2 word next known deep
    rw [top,Option.map_some,Option.some.injEq,Prod.mk.injEq] at call
    cases stepped : step s with
    | error e t =>
        rw [stepped] at goes
        cases goes
    | ok progress t =>
        rw [stepped] at registers
        simp only [returned,call.1,call.2,value,Nat.zero_add] at registers
        exact registers

end RegisterMachine.Machine
