import RegisterMachine.Proofs.Machine.Variables

namespace RegisterMachine.Machine

variable {m : Machine}

theorem runIntrinsic_meets (intrinsic : Intrinsic) {arg : Nat → Value} (secure : m.Secure) (kept : ∀ i, m.heap.Kept (arg i)) :
    Meets (runIntrinsic intrinsic arg) m Secure fun v m' => m'.heap.Sound v := by
  have plain : ∀ v, v.handle? = none → Meets (pure v : MachineM Value) m Secure fun v m' => m'.heap.Sound v :=
    fun v none => .pure secure (Heap.sound_plain _ none)
  cases intrinsic with
  | print => exact Meets.modify_bind (.pure (secure.same rfl rfl rfl rfl) (Heap.sound_plain _ rfl))
  | input =>
      refine Meets.get_bind ?_
      have asked : Secure (m.askLine (if (arg 0).isNull then "" else m.heap.display (arg 0))).2 := secure.same rfl rfl rfl rfl
      exact onHeap_sound asked (Heap.Meets.continues (Heap.newString_meets _ asked.safe))
  | val => exact Meets.get_bind (plain _ (m.heap.toNumber_plain _))
  | str => exact onHeap_sound secure (Heap.Meets.continues (Heap.toStringValue_meets secure.safe (kept 0).1))
  | len =>
      refine Meets.get_bind ?_
      simp only
      split
      · exact plain _ rfl
      · exact .throw secure Error.noConfusion
  | remove => exact onHeap_sound secure (Heap.removeFrom_meets _ secure.safe (kept 0))
  | freeze =>
      refine (modifyHeap_meets secure (Heap.freeze_edited (arg 0) secure.safe)).bind fun _ m' secure' _ => ?_
      exact .pure secure' (Heap.sound_plain _ rfl)
  | isFrozen => exact Meets.get_bind (plain _ rfl)
  | frozenCopy => exact onHeap_sound secure (Heap.frozenCopy_meets secure.safe (kept 0))
  | push => exact onHeap_sound secure (Heap.Meets.continued (Heap.pushOnto_meets secure.safe (kept 0).1 (kept 1).1))
  | pop => exact onHeap_sound secure (Heap.Meets.continued (Heap.popFrom_meets secure.safe (kept 0).1))
  | pull => exact onHeap_sound secure (Heap.Meets.continued (Heap.pullFrom_meets secure.safe (kept 0).1))
  | insert => exact onHeap_sound secure (Heap.insertInto_meets _ secure.safe (kept 0).1 (kept 2).1)
  | indexOf =>
      have found : Gives (m.heap.indexIn (arg 0) (arg 1)) m.heap.Sound := secure.safe.closed_sound.indexIn (kept 0).1 _
      exact @readHeap_sound m (·.indexIn (arg 0) (arg 1)) secure found
  | hasIndex => exact Meets.get_bind (plain _ rfl)
  | indexes => exact onHeap_sound secure (Heap.Meets.continues (Heap.indexesOf_meets secure.safe (kept 0)))
  | values => exact onHeap_sound secure (Heap.Meets.continues (Heap.valuesOf_meets secure.safe (kept 0)))
  | sort =>
      have sorted := onHeap_meets secure (Heap.Meets.continued (Heap.listSort_meets (arg 1) secure.safe (kept 0).1))
      by_cases list : (arg 0).isList = true
      · have same : runIntrinsic .sort arg = (do onHeap (Heap.listSort (arg 0) (arg 1)); pure (arg 0)) := by
          simp only [runIntrinsic,if_pos list]
        rw [same]
        refine sorted.bind ?_
        rintro _ _ secure' ⟨h,rfl,continues,_⟩
        exact .pure secure' (continues.sound _ (kept 0))
      · have same : runIntrinsic .sort arg = pure (arg 0) := by
          simp only [runIntrinsic,if_neg list]
        rw [same]
        exact .pure secure (kept 0).1
  | join => exact onHeap_sound secure (Heap.Meets.continues (Heap.joinItems_meets _ secure.safe))
  | upper | lower | trim =>
      simp only [runIntrinsic]
      split
      · exact onHeap_sound secure (Heap.Meets.continues (Heap.mapText_meets _ secure.safe (kept 0).1))
      · exact .pure secure (kept 0).1
  | split => exact onHeap_sound secure (Heap.Meets.continues (Heap.splitAt_meets secure.safe (kept 1).1))
  | replace => exact onHeap_sound secure (Heap.replaceIn_meets secure.safe (kept 0) (kept 1) (kept 2))
  | slice => exact onHeap_sound secure (Heap.Meets.continues (Heap.sliceOf_meets _ _ secure.safe (kept 0) fun _ => Error.noConfusion))
  | number | string | list | map | funcRef => exact Meets.get_bind (.pure secure (typeMap_kept secure _).1)

theorem runNative_meets (native : Native) (base : Nat) (secure : m.Secure) :
    Meets (runNative native base) m Secure fun v m' => m'.heap.Sound v := by
  refine Meets.get_bind ?_
  simp only
  cases native with
  | intrinsic intrinsic =>
      refine runIntrinsic_meets intrinsic secure fun i => ?_
      split <;> exact secure.register _
  | host function =>
      cases function with
      | raise => exact Meets.modify_bind (.pure (secure.same rfl rfl rfl rfl) (Heap.sound_plain _ rfl))
      | fail => exact Meets.get_bind (.throw secure Error.noConfusion)
      | pair =>
          refine onHeap_sound secure (Heap.Meets.continues (Heap.listOf_meets _ secure.safe fun item member => ?_))
          have either : item = m.heap.registerValue (base + 1) ∨ item = m.heap.registerValue (base + 2) := by simpa using member
          rcases either with rfl | rfl <;> exact secure.register _

theorem argumentValues_give (code : Array Word) (count pc : Nat) (secure : m.Secure) :
    Gives (argumentValues m code count pc) fun values => ∀ v ∈ values, m.heap.Sound v := by
  induction count generalizing pc with
  | zero => simp [argumentValues,Gives]
  | succ count ih =>
      unfold argumentValues
      split
      · exact Error.noConfusion
      · rename_i word _
        have first : Gives (argumentValue m word) m.heap.Sound := by
          unfold argumentValue
          split
          · exact (secure.register _).1
          · exact Heap.sound_plain _ rfl
          · exact Error.noConfusion
        refine first.bind fun v sound => (ih (pc + 1)).bind fun rest each => ?_
        show ∀ w ∈ v :: rest, m.heap.Sound w
        exact List.forall_mem_cons.mpr ⟨sound,each⟩

theorem foldl_edited {h : Heap} (steps : List α) {change : Heap → α → Heap} (safe : h.Safe)
    (each : ∀ h' a, Heap.Edited h h' → Heap.Edited h' (change h' a)) : Heap.Edited h (steps.foldl change h) :=
  List.foldlRecOn (motive := Heap.Edited h) steps change (.refl safe) fun h' edited a _ => edited.trans (each h' a edited)

section

variable {h : Heap} {callee : Function}

theorem parameter_permanent (lasting : callee.Lasting h) (p : Nat) :
    h.Permanent (callee.parameters.getD p default).name ∧ h.Permanent (callee.parameters.getD p default).default := by
  rw [Array.getD_eq_getD_getElem?]
  cases found : callee.parameters[p]? with
  | none => exact ⟨Or.inl rfl,Or.inl rfl⟩
  | some parameter => exact lasting.parameters parameter (Array.mem_of_getElem? found)

theorem fillParameters_edited (base first : Nat) (values : List Value) (safe : h.Safe) (lasting : callee.Lasting h)
    (sound : ∀ v ∈ values, h.Sound v) : Heap.Edited h (fillParameters callee base first values h) := by
  induction values generalizing h first with
  | nil => exact .refl safe
  | cons v rest ih =>
      have name := (parameter_permanent lasting first).1.kept safe.toIntact
      have edited := Heap.assignRegister_edited (base + 1 + first) safe name.1 (sound v List.mem_cons_self)
      refine edited.trans (ih (first + 1) edited.safe (lasting.later edited.steady.immortal) fun w member => ?_)
      exact edited.sound w (sound w (List.mem_cons_of_mem v member))

theorem fillDefaults_edited (filled base : Nat) (safe : h.Safe) (lasting : callee.Lasting h) :
    Heap.Edited h (fillDefaults callee filled base h) := by
  refine foldl_edited _ safe fun h' p edited => ?_
  have permanent := parameter_permanent (lasting.later edited.steady.immortal) p
  exact Heap.assignRegister_edited _ edited.safe (permanent.1.kept edited.safe.toIntact).1 (permanent.2.kept edited.safe.toIntact).1

theorem clearWindow_edited (callee : Function) (base : Nat) (safe : h.Safe) :
    Heap.Edited h (clearWindow callee base h) := by
  have cleared : ∀ (h : Heap) (i : Nat), h.Safe → Heap.Edited h (h.assignRegister i .null .null) := fun h i safe =>
    Heap.assignRegister_edited i safe (Heap.sound_plain _ rfl) (Heap.sound_plain _ rfl)
  have first := cleared h base safe
  exact first.trans (foldl_edited _ first.safe fun h' i edited => cleared h' _ edited.safe)

end

theorem passArguments_meets {callee : Function} (count first base : Nat) (secure : m.Secure) (lasting : callee.Lasting m.heap) :
    Meets (passArguments callee count first base) m Secure fun _ m' => ∃ h, m' = { m with heap := h } ∧ Heap.Edited m.heap h := by
  simp only [Meets,passArguments]
  by_cases many : count > callee.parameters.size - first
  · rw [if_pos many]
    exact ⟨Error.noConfusion,secure⟩
  · rw [if_neg many]
    split
    · rename_i done
      split at done
      · cases done
      · rename_i values read
        cases done
        have filled := fillParameters_edited base first values secure.safe lasting ((argumentValues_give _ _ _ secure).ok read)
        have defaults := fillDefaults_edited (first + count) base filled.safe (lasting.later filled.steady.immortal)
        have edited := (filled.trans defaults).trans (clearWindow_edited callee base defaults.safe)
        exact ⟨secure.onHeap edited.safe edited.steady,_,rfl,edited⟩
    · rename_i refused
      split at refused
      · rename_i e read
        cases refused
        exact ⟨(argumentValues_give _ _ _ secure).error read,secure⟩
      · cases refused

theorem pinned_push (m : Machine) (frame : Frame) :
    { m with frames := m.frames.push frame }.pinned.Perm (frame.pinned ++ m.pinned) := by
  unfold pinned waiting
  rw [Array.toList_push,List.flatMap_append,← List.append_assoc]
  simp only [List.flatMap_cons,List.flatMap_nil,List.append_nil]
  exact List.perm_append_comm

theorem push_books {books : Heap → List Pinned → Prop} (keeping : Bookkeeping books) (function base : Nat) (call : CallInfo) (outer : Value)
    (pending : Option (Value × Value)) (kept : books m.heap m.pinned) :
    books (m.pushFrame { function,base,call } outer pending).heap (m.pushFrame { function,base,call } outer pending).pinned := by
  have pinned : ∀ frame : Frame, (m.waiting ++ (m.frames.push frame).toList.flatMap Frame.pinned).Perm
      (frame.outer :: frame.locals :: frame.receiver :: frame.parent :: m.pinned) :=
    fun frame => (pinned_push m frame).trans (.swap _ _ _)
  have first := keeping.set outer (keeping.blank (keeping.blank (keeping.blank (keeping.blank kept))))
  cases pending with
  | none => exact keeping.perm first (pinned { function,base,call,outer := (Pinned.set {} m.heap outer).1 }).symm
  | some pair =>
      obtain ⟨receiver,parent⟩ := pair
      have second := keeping.set receiver (keeping.perm first (.swap _ _ _))
      have third := keeping.set parent (keeping.perm second (@List.perm_middle Pinned {} [_,_] _))
      have order : ∀ a b c d : Pinned, (d :: c :: a :: b :: m.pinned).Perm (a :: b :: c :: d :: m.pinned) := by
        intro a b c d
        exact (List.Perm.append_right m.pinned ((List.reverse_perm [b,a,c,d]).trans (.swap _ _ _)))
      have placed := pinned
        { function,base,call
          outer := (Pinned.set {} m.heap outer).1
          receiver := (Pinned.set {} (Pinned.set {} m.heap outer).2 receiver).1
          parent := (Pinned.set {} (Pinned.set {} (Pinned.set {} m.heap outer).2 receiver).2 parent).1 }
      exact keeping.perm (keeping.perm third (order _ _ _ _)) placed.symm

theorem Secure.pushFrame (secure : m.Secure) (function base : Nat) (call : CallInfo) {pending : Option (Value × Value)}
    (sound : m.heap.Sound outer)
    (both : ∀ receiver parent, pending = some (receiver,parent) → m.heap.Sound receiver ∧ m.heap.Sound parent) :
    (m.pushFrame { function,base,call } outer pending).Secure := by
  have lasting : ∀ h : Heap, Heap.Apart m.heap h → ∀ f ∈ m.functions, f.Lasting h := fun h apart f member =>
    (secure.functions f member).later fun r => (Heap.immortal_slots apart.slots r).mpr
  have ledger := push_books Ledger.bookkeeping function base call outer pending secure.ledger
  have safe := Pinned.set_safe {} secure.safe sound
  have apart := Pinned.set_apart {} m.heap outer
  cases pending with
  | none => exact ⟨safe,ledger,lasting _ apart⟩
  | some pair =>
      obtain ⟨receiver,parent⟩ := pair
      obtain ⟨receiverSound,parentSound⟩ := both receiver parent rfl
      have safe' := Pinned.set_safe {} safe (apart.sound receiverSound)
      have apart' := Pinned.set_apart {} (Pinned.set {} m.heap outer).2 receiver
      have safe'' := Pinned.set_safe {} safe' (apart'.sound (apart.sound parentSound))
      have apart'' := Pinned.set_apart {} (Pinned.set {} (Pinned.set {} m.heap outer).2 receiver).2 parent
      exact ⟨safe'',ledger,lasting _ ((apart.trans apart').trans apart'')⟩

-- The parts of a call: a native function runs at once and any other gets a frame; before that the
-- receiver is used up and may become the first parameter.
def launch (request : CallRequest) (callee : Function) (pending : Option (Value × Value)) : MachineM Unit :=
  match callee.native with
  | some native => do
    let result ← runNative native request.base
    let m ← get
    let slot := match request.destination with
      | some d => m.base + d
      | none => request.base
    modifyHeap (·.setRegisterValue slot result)
    modify ({ · with pc := request.returnPc })
  | none =>
    modify fun m =>
      m.pushFrame
        { function := request.function
          base := request.base
          call :=
            { returnPc := request.returnPc
              returnBase := m.base
              returnFunction := m.function
              destination := request.destination } }
        request.outer pending

def greet (request : CallRequest) (callee : Function) (binds : Bool) (pending : Option (Value × Value)) : MachineM Unit := do
  modify (·.setPending none)
  match binds, pending with
  | true, some (receiver, _) => modifyHeap (·.assignRegister (request.base + 1) selfName receiver)
  | _, _ => pure ()
  launch request callee pending

theorem enter_parts (request : CallRequest) : enter request = (do
    let m ← get
    match m.functions[request.function]? with
    | none => throw (.invalidFunction request.function)
    | some callee =>
      if callee.native.isNone && m.frames.size ≥ m.config.callSlots then throw .callStackOverflow
      ensureWindow request.base callee.registers
      match request.arguments with
      | some count => passArguments callee count (if m.bindsReceiver callee then 1 else 0) request.base
      | none => pure ()
      greet request callee (m.bindsReceiver callee) m.pending) := rfl

theorem launch_meets {request : CallRequest} {pending : Option (Value × Value)} (callee : Function) (secure : m.Secure)
    (outer : m.heap.Sound request.outer)
    (both : ∀ receiver parent, pending = some (receiver,parent) → m.heap.Sound receiver ∧ m.heap.Sound parent) :
    Meets (launch request callee pending) m Secure fun _ _ => True := by
  unfold launch
  split
  · refine (runNative_meets _ _ secure).bind fun result m' secure' sound => Meets.get_bind ?_
    refine (modifyHeap_meets secure' (Heap.setRegisterValue_edited _ secure'.safe sound)).bind fun _ m'' secure'' _ => ?_
    exact ⟨secure''.same rfl rfl rfl rfl,trivial⟩
  · exact ⟨secure.pushFrame _ _ _ outer both,trivial⟩

theorem greet_meets {request : CallRequest} {pending : Option (Value × Value)} (callee : Function) (binds : Bool) (secure : m.Secure)
    (outer : m.heap.Sound request.outer)
    (both : ∀ receiver parent, pending = some (receiver,parent) → m.heap.Sound receiver ∧ m.heap.Sound parent) :
    Meets (greet request callee binds pending) m Secure fun _ _ => True := by
  have cleared : (m.setPending none).Secure := secure.setPending none (by simp)
  have apart := m.setPending_apart none
  refine Meets.modify_bind ?_
  simp only
  split
  · rename_i receiver parent
    obtain ⟨receiverSound,parentSound⟩ := both receiver parent rfl
    have edited := @Heap.assignRegister_edited selfName _ _ (request.base + 1) cleared.safe (Heap.sound_plain _ rfl)
      (apart.sound receiverSound)
    refine (modifyHeap_meets cleared edited).bind ?_
    rintro _ _ secure' rfl
    refine launch_meets callee secure' (edited.sound _ (apart.sound outer)) fun a b same => ?_
    cases same
    exact ⟨edited.sound _ (apart.sound receiverSound),edited.sound _ (apart.sound parentSound)⟩
  · refine launch_meets callee cleared (apart.sound outer) fun a b same => ?_
    exact ⟨apart.sound (both a b same).1,apart.sound (both a b same).2⟩

theorem enter_meets {request : CallRequest} (secure : m.Secure) (outer : m.heap.Sound request.outer) :
    Meets (enter request) m Secure fun _ _ => True := by
  rw [enter_parts]
  refine Meets.get_bind ?_
  have both : ∀ receiver parent, m.pending = some (receiver,parent) → m.heap.Sound receiver ∧ m.heap.Sound parent :=
    fun receiver parent waiting => ⟨(secure.pending_kept waiting).1.1,(secure.pending_kept waiting).2.1⟩
  split
  · exact .throw secure Error.noConfusion
  · rename_i callee found
    have begun : ∀ m', m'.Secure → (∃ h, m' = { m with heap := h } ∧ Heap.Edited m.heap h) →
        Meets (greet request callee (m.bindsReceiver callee) m.pending) m' Secure fun _ _ => True := by
      rintro _ secure' ⟨h,rfl,edited⟩
      refine greet_meets callee _ secure' (edited.sound _ outer) fun a b waiting => ?_
      exact ⟨edited.sound _ (both a b waiting).1,edited.sound _ (both a b waiting).2⟩
    simp only
    split
    · exact Meets.throw_bind secure Error.noConfusion
    · refine (ensureWindow_meets _ _ secure).bind ?_
      rintro _ _ _ rfl
      split
      · exact (passArguments_meets _ _ _ secure (secure.lasting found)).bind fun _ m' secure' changed => begun m' secure' changed
      · exact begun _ secure ⟨_,rfl,.refl secure.safe⟩

theorem callRef_meets {f : FuncRef} (base destination : Nat) (secure : m.Secure) (outer : m.heap.Sound f.outer) :
    Meets (callRef f base destination) m Secure fun _ _ => True :=
  Meets.get_bind (enter_meets secure outer)

theorem argumentBlock_meets (count : Int) (secure : m.Secure) : Meets (argumentBlock count) m Secure fun _ _ => True := by
  unfold argumentBlock
  simp only
  split
  · exact Meets.throw_bind secure Error.noConfusion
  · refine Meets.get_bind ?_
    split
    · exact .throw secure Error.noConfusion
    · split
      · exact Meets.throw_bind secure Error.noConfusion
      · split
        · exact .throw secure Error.noConfusion
        · rename_i f target
          exact enter_meets secure (secure.safe.closed_sound.outer (secure.register _).1 target)

-- Returns. The frame's pins are given back last, so that its map of locals is there to be gathered.
theorem pinned_pop {frame : Frame} (top : m.topFrame? = some frame) :
    m.pinned.Perm (frame.pinned ++ { m with frames := m.frames.pop }.pinned) := by
  obtain ⟨frames,whole⟩ := Array.back?_eq_some_iff.mp top
  have below : m.frames.pop.push frame = m.frames := by rw [whole,Array.pop_push]
  have pushed := pinned_push { m with frames := m.frames.pop } frame
  rw [below] at pushed
  exact pushed

theorem release_books {books : Heap → List Pinned → Prop} (keeping : Bookkeeping books) {h : Heap} {rest : List Pinned} (frame : Frame)
    (kept : books h (frame.pinned ++ rest)) : books (frame.release h) rest :=
  keeping.release (keeping.release (keeping.release (keeping.release kept)))

theorem release_safe {h : Heap} (frame : Frame) (safe : h.Safe) : (frame.release h).Safe :=
  Pinned.release_safe _ (Pinned.release_safe _ (Pinned.release_safe _ (Pinned.release_safe _ safe)))

theorem release_apart (frame : Frame) (h : Heap) : Heap.Apart h (frame.release h) :=
  (((frame.locals.release_apart h).trans (frame.outer.release_apart _)).trans (frame.receiver.release_apart _)).trans
    (frame.parent.release_apart _)

theorem Secure.release {frame : Frame} {h : Heap} (secure : m.Secure) (top : m.topFrame? = some frame)
    (edited : Heap.Edited m.heap h) : { m with frames := m.frames.pop,heap := frame.release h }.Secure := by
  have ledger := secure.ledger.perm (pinned_pop top)
  refine ⟨release_safe frame edited.safe,?_,?_⟩
  · exact release_books Ledger.bookkeeping frame (ledger.steady edited.steady.roots edited.steady.freeRoots)
  · intro f member
    refine (secure.functions f member).later fun r immortal => ?_
    exact (Heap.immortal_slots (release_apart frame h).slots r).mpr (edited.steady.immortal r immortal)

-- The end of a return: the roots of the frame are given back, and the caller goes on.
def resume (frame : Frame) (result : Value) : MachineM (Option Value) := do
  modifyHeap frame.release
  modify ({ · with
    pc := frame.call.returnPc
    base := frame.call.returnBase
    function := frame.call.returnFunction })
  match frame.call.destination with
  | some d => setReg d result
  | none => pure ()
  pure none

theorem leave_parts : leave = (do
    let m ← get
    let result := m.heap.registerValue m.base
    if m.frames.size ≤ 1 then pure (some result)
    else match m.topFrame? with
      | none => pure (some result)
      | some frame =>
        modify fun m => { m with frames := m.frames.pop }
        if frame.locals.value.isMap then onHeap (Heap.gather frame.locals.value)
        resume frame result) := rfl

theorem resume_meets {frame : Frame} {h : Heap} {result : Value} (secure : m.Secure) (top : m.topFrame? = some frame)
    (edited : Heap.Edited m.heap h) (sound : m.heap.Sound result) :
    Meets (resume frame result) { m with frames := m.frames.pop,heap := h } Secure fun left _ => left = none := by
  have released := secure.release top edited
  have resumed : Secure { m with
      frames := m.frames.pop
      heap := frame.release h
      pc := frame.call.returnPc
      base := frame.call.returnBase
      function := frame.call.returnFunction } := released.same rfl rfl rfl rfl
  have kept : (frame.release h).Sound result := (release_apart frame h).sound (edited.sound _ sound)
  refine modifyHeap_bind (Meets.modify_bind ?_)
  split
  · exact (setReg_meets resumed kept).bind fun _ m' secure' _ => .pure secure' rfl
  · exact .pure resumed rfl

theorem leave_meets (secure : m.Secure) :
    Meets leave m Secure fun result m' => ∀ v, result = some v → m'.heap.Sound v := by
  have given : m.heap.Sound (m.heap.registerValue m.base) := (secure.register _).1
  have finished : Meets (pure (some (m.heap.registerValue m.base)) : MachineM (Option Value)) m Secure
      fun result m' => ∀ v, result = some v → m'.heap.Sound v := .pure secure fun v same => by cases same; exact given
  rw [leave_parts]
  refine Meets.get_bind ?_
  simp only
  split
  · exact finished
  · split
    · exact finished
    · rename_i frame top
      have popped : Secure { m with frames := m.frames.pop } :=
        ⟨secure.safe,(secure.ledger.perm (pinned_pop top)).tail.tail.tail.tail,secure.functions⟩
      have held := secure.pinned_kept (p := frame.locals) (topFrame_mem top) (by simp [Frame.pinned])
      have resumes : ∀ h, Heap.Edited m.heap h → Meets (resume frame (m.heap.registerValue m.base))
          { m with frames := m.frames.pop,heap := h } Secure fun result m' => ∀ v, result = some v → m'.heap.Sound v := by
        intro h edited
        refine (resume_meets secure top edited given).imp ?_
        rintro _ _ _ rfl v same
        cases same
      refine Meets.modify_bind ?_
      split
      · refine (onHeap_edited popped (Heap.gather_meets secure.safe held.1)).bind ?_
        rintro _ _ _ ⟨h,rfl,edited,_⟩
        exact resumes h edited
      · exact resumes m.heap (.refl secure.safe)

end RegisterMachine.Machine
