import RegisterMachine.Proofs.Machine.Turns

namespace RegisterMachine

-- The intrinsics that change the map they are called on.
def Intrinsic.writes : Intrinsic → Bool
  | .remove | .push | .pop | .pull | .replace => true
  | _ => false

namespace Machine

variable {m : Machine} {written : Handle → Prop}

theorem runIntrinsic_works (intrinsic : Intrinsic) (arg : Nat → Value)
    (may : ∀ r, intrinsic.writes = true → arg 0 = .map r → written r) : Works written (runIntrinsic intrinsic arg) m := by
  cases intrinsic with
  | print => exact ⟨rfl,rfl,rfl,rfl,rfl,Or.inl rfl,.refl⟩
  | input =>
      have asked : Aside written m (m.askLine (if (arg 0).isNull then "" else m.heap.display (arg 0))).2 :=
        ⟨rfl,rfl,rfl,rfl,rfl,Or.inl rfl,.refl⟩
      have works : Works written (modifyGet (·.askLine (if (arg 0).isNull then "" else m.heap.display (arg 0)))) m := asked
      exact works.bind fun line m' _ => onHeap_works (Heap.newString_acts line)
  | val | isFrozen | hasIndex | number | string | list | map | funcRef => exact Aside.refl m
  | str => exact onHeap_works (Heap.toStringValue_acts _)
  | len =>
      refine Works.get_bind ?_
      simp only
      split
      · exact .pure _
      · exact .throw _
  | remove => exact onHeap_works (Heap.removeFrom_acts (fun r => may r rfl) _)
  | freeze => exact (modifyHeap_works .freeze).bind fun _ m' _ => .pure _
  | frozenCopy => exact onHeap_works (Heap.frozenCopy_acts _)
  | push => exact onHeap_works (Heap.pushOnto_acts (fun r => may r rfl) _)
  | pop => exact onHeap_works (Heap.popFrom_acts fun r => may r rfl)
  | pull => exact onHeap_works (Heap.pullFrom_acts fun r => may r rfl)
  | insert => exact onHeap_works (Heap.insertInto_acts _ _ _)
  | indexOf => exact readHeap_works (·.indexIn (arg 0) (arg 1))
  | indexes => exact onHeap_works (Heap.indexesOf_acts _)
  | values => exact onHeap_works (Heap.valuesOf_acts _)
  | sort =>
      simp only [runIntrinsic]
      split
      · exact (onHeap_works (Heap.listSort_acts fun _ _ _ => trivial)).bind fun _ m' _ => .pure _
      · exact .pure _
  | join => exact onHeap_works (Heap.joinItems_acts _ _)
  | upper | lower | trim =>
      simp only [runIntrinsic]
      split
      · exact onHeap_works (Heap.mapText_acts _ _)
      · exact .pure _
  | split => exact onHeap_works (Heap.splitAt_acts _ _)
  | replace => exact onHeap_works (Heap.replaceIn_acts _ _ fun r => may r rfl)
  | slice => exact onHeap_works (Heap.sliceOf_acts _ _ _ _)

theorem runHostFunction_works (function : HostFunction) (arg : Nat → Value) : Works written (runHostFunction function arg) m := by
  cases function with
  | raise => exact ⟨rfl,rfl,rfl,rfl,rfl,Or.inr rfl,.refl⟩
  | fail => exact .refl m
  | pair => exact onHeap_works (Heap.newListOf_acts _ _)

theorem runNative_works (native : Native) (base : Nat)
    (may : ∀ r intrinsic, native = .intrinsic intrinsic → intrinsic.writes = true → m.heap.registerValue (base + 1) = .map r → written r) :
    Works written (runNative native base) m := by
  refine Works.get_bind ?_
  simp only
  cases native with
  | intrinsic intrinsic => exact runIntrinsic_works intrinsic _ fun r => may r intrinsic rfl
  | host function => exact runHostFunction_works function _

theorem fillParameters_acts (callee : Function) (base p : Nat) (values : List Value) (h : Heap) :
    Heap.Acts written h (fillParameters callee base p values h) := by
  induction values generalizing p h with
  | nil => exact .refl
  | cons v rest ih => exact Heap.Deeds.trans Heap.Acts.register (ih _ _)

theorem assignAll_acts (steps : List α) (register : α → Nat) (name value : α → Value) (h : Heap) :
    Heap.Acts written h (steps.foldl (fun h a => h.assignRegister (register a) (name a) (value a)) h) := by
  induction steps generalizing h with
  | nil => exact .refl
  | cons a rest ih => exact Heap.Deeds.trans Heap.Acts.register (ih _)

theorem fillDefaults_acts (callee : Function) (filled base : Nat) (h : Heap) :
    Heap.Acts written h (fillDefaults callee filled base h) :=
  assignAll_acts _ (base + 1 + ·) (fun p => (callee.parameters.getD p default).name)
    (fun p => (callee.parameters.getD p default).default) h

theorem clearWindow_acts (callee : Function) (base : Nat) (h : Heap) : Heap.Acts written h (clearWindow callee base h) :=
  Heap.Deeds.trans Heap.Acts.register (assignAll_acts _ (base + ·) (fun _ => .null) (fun _ => .null) _)

theorem passArguments_works (callee : Function) (count first base : Nat) : Works written (passArguments callee count first base) m := by
  simp only [Works,passArguments]
  by_cases many : count > callee.parameters.size - first
  · rw [if_pos many]
    exact .refl m
  · rw [if_neg many]
    split
    · rename_i done
      split at done
      · cases done
      · rename_i values _
        cases done
        refine .heap ?_
        exact ((fillParameters_acts callee base first values m.heap).trans (fillDefaults_acts callee _ base _)).trans
          (clearWindow_acts callee base _)
    · rename_i refused
      split at refused
      · cases refused
        exact .refl _
      · cases refused

def seatArguments (request : CallRequest) (callee : Function) (binds : Bool) : MachineM Unit :=
  match request.arguments with
  | some count => passArguments callee count (if binds then 1 else 0) request.base
  | none => pure ()

def seatReceiver (request : CallRequest) (binds : Bool) (pending : Option (Value × Value)) : MachineM Unit :=
  match binds, pending with
  | true, some (receiver, _) => modifyHeap (·.assignRegister (request.base + 1) selfName receiver)
  | _, _ => pure ()

def seat (request : CallRequest) (callee : Function) (binds : Bool) (pending : Option (Value × Value)) : MachineM Unit := do
  ensureWindow request.base callee.registers
  seatArguments request callee binds
  modify (·.setPending none)
  seatReceiver request binds pending

theorem greet_seats (request : CallRequest) (callee : Function) (binds : Bool) (pending : Option (Value × Value)) :
    greet request callee binds pending = (do
      modify (·.setPending none)
      seatReceiver request binds pending
      launch request callee pending) := by
  cases binds with
  | false => rfl
  | true =>
      cases pending with
      | none => rfl
      | some pair => rfl

theorem enter_seats (request : CallRequest) : enter request = (do
    let m ← get
    match m.functions[request.function]? with
    | none => throw (.invalidFunction request.function)
    | some callee =>
      if callee.native.isNone && m.frames.size ≥ m.config.callSlots then throw .callStackOverflow
      seat request callee (m.bindsReceiver callee) m.pending
      launch request callee m.pending) := by
  rw [enter_parts]
  simp only [seat,seatArguments,greet_seats,bind_assoc]
  cases request.arguments with
  | none => rfl
  | some count => rfl

theorem seat_works (request : CallRequest) (callee : Function) (binds : Bool) (pending : Option (Value × Value)) :
    Works written (seat request callee binds pending) m := by
  refine (ensureWindow_works _ _).bind fun _ m' _ => ?_
  have passed : Works written (seatArguments request callee binds) m' := by
    unfold seatArguments
    split
    · exact passArguments_works _ _ _ _
    · exact .pure _
  refine passed.bind fun _ m'' _ => ?_
  have cleared : Works written (modify (·.setPending none)) m'' := setPending_aside m'' none
  refine cleared.bind fun _ _ _ => ?_
  unfold seatReceiver
  split
  · exact modifyHeap_works .register
  · exact .pure _

theorem seat_window {request : CallRequest} (seated : seat request callee binds waits m = .ok () m') :
    request.base + callee.registers ≤ m.heap.registers.size := by
  by_contra beyond
  have failed : ensureWindow request.base callee.registers m =
      .error (.stackOverflow (request.base + callee.registers) m.heap.registers.size) m := by
    simp only [ensureWindow]
    rw [if_pos (by omega)]
  simp only [seat,bind,EStateM.bind,failed] at seated
  cases seated

theorem launch_works {request : CallRequest} {callee : Function} (waits : Option (Value × Value)) (native : callee.native = some body)
    (may : ∀ r intrinsic, body = .intrinsic intrinsic → intrinsic.writes = true →
      m.heap.registerValue (request.base + 1) = .map r → written r) : Works written (launch request callee waits) m := by
  simp only [launch,native]
  refine (runNative_works body request.base may).bind fun result m' _ => Works.get_bind ?_
  refine (modifyHeap_works .register).bind fun _ m'' _ => ?_
  exact ⟨rfl,rfl,rfl,rfl,rfl,Or.inl rfl,.refl⟩

-- The map that a call may write: the first argument of an intrinsic that changes it.
def Subject (m : Machine) (request : CallRequest) (r : Handle) : Prop :=
  ∃ callee intrinsic s, m.functions[request.function]? = some callee ∧ callee.native = some (.intrinsic intrinsic) ∧
    intrinsic.writes = true ∧ seat request callee (m.bindsReceiver callee) m.pending m = .ok () s ∧
    s.heap.registerValue (request.base + 1) = .map r

theorem enter_turns {request : CallRequest} (may : ∀ r, m.Subject request r → written r) : Turns written (enter request) m := by
  rw [enter_seats]
  refine Turns.get_bind ?_
  split
  · exact (Works.throw _).turns
  · rename_i callee found
    simp only
    split
    · exact Works.turns (.refl m)
    · rename_i room
      have works : Works written (seat request callee (m.bindsReceiver callee) m.pending) m := seat_works _ _ _ _
      cases native : callee.native with
      | some body =>
          refine Works.turns (works.bind fun _ s seated => launch_works _ native fun r intrinsic same writes subject => ?_)
          exact may r ⟨callee,intrinsic,s,found,by rw [native,same],writes,seated,subject⟩
      | none =>
          simp only [Turns,bind,EStateM.bind]
          rw [Works] at works
          cases seated : seat request callee (m.bindsReceiver callee) m.pending m with
          | error e s =>
              simp only [seated] at works ⊢
              exact fun _ => works.turn
          | ok _ s =>
              simp only [seated] at works ⊢
              simp only [launch,native]
              refine (Shift.call works (by rw [works.functions]; exact found) ?_ ?_).turn
              · rw [works.frames,works.config]
                simpa [native] using room
              · rw [works.acts.registers]
                exact seat_window seated

theorem newAliasMap_failed {h : Heap} (failed : Heap.newAliasMap first count h = .error e h') : Heap.Acts written h h' := by
  simp only [Heap.newAliasMap,Functor.map,EStateM.map] at failed
  obtain ⟨s,swept,⟨_,refused⟩ | ⟨_,made⟩⟩ := Heap.allocate_parts
    (.map { Table.withCapacity 0 with aliases := some (h.aliasesFor first count) }) h
  · rw [refused] at failed
    cases failed
    exact Heap.Swept.acts swept
  · rw [made] at failed
    cases failed

theorem localsMap_failed {frame : Frame} (failed : m.localsMap frame m.heap = .error e h) : Heap.Acts written m.heap h := by
  unfold localsMap at failed
  split at failed
  · have acts : Heap.Acts written m.heap (Heap.after (Heap.newMap 4) m.heap) := (Heap.newMap_makes 4).performs m.heap (.all _)
    rwa [Heap.after,failed] at acts
  · exact newAliasMap_failed failed

theorem frameLocals_turns (index : Nat) : Turns written (frameLocals index) m := by
  refine Turns.get_bind ?_
  split
  · exact (Works.pure _).turns
  · rename_i frame found
    split
    · exact (Works.pure _).turns
    · rename_i missing
      have null : frame.locals.value = .null := by
        cases held : frame.locals.value with
        | null => rfl
        | int | double | short | str | list | map | funcRef => simp [held,Value.isNull] at missing
      simp only [Turns,bind,EStateM.bind,onHeap]
      cases made : m.localsMap frame m.heap with
      | ok v h =>
          simp only [localsMap] at made
          simp only [made]
          exact (Shift.bind found null made).turn
      | error e h =>
          have acts : Heap.Acts written m.heap h := localsMap_failed made
          simp only [localsMap] at made
          simp only [made]
          exact fun _ => (Aside.heap acts).turn

theorem currentLocals_turns : Turns written currentLocals m := Turns.get_bind (frameLocals_turns _)

theorem outerVariables_turns : Turns written outerVariables m := by
  refine Turns.get_bind ?_
  split
  · split
    · exact (Works.pure _).turns
    · exact frameLocals_turns 0
  · exact frameLocals_turns 0

theorem nameRegister_works (r : Nat) (name : Value) : Works written (nameRegister r name) m := by
  refine (setRegName_works r name).bind fun _ m' _ => Works.get_bind ?_
  split
  · split
    · exact onHeap_works (Heap.bindRegister_acts _ _ (Value.named_all _))
    · exact .pure _
  · exact .pure _

theorem findMethod_works (container key : Value) : Works written (findMethod container key) m := by
  have found : ∀ (v : Value) pending, Works written (do modify (·.setPending pending); pure v) m := fun v pending => setPending_aside m pending
  refine Works.get_bind ?_
  simp only
  split
  · exact found _ _
  · split
    · exact found _ _
    · split
      · exact .throw _
      · exact readHeap_works _
      · exact readHeap_works _
      · exact readHeap_works _
      · exact .throw _

theorem release_acts (frame : Frame) (h : Heap) : Heap.Acts written h (frame.release h) := by
  have each : ∀ (p : Pinned) (h : Heap), Heap.Acts written h (p.release h) := by
    intro p h
    unfold Pinned.release
    split
    · unfold Heap.removeRoot
      split
      · exact .reroot
      · exact .refl
    · exact .refl
  exact (((each frame.locals h).trans (each frame.outer _)).trans (each frame.receiver _)).trans (each frame.parent _)

theorem resume_turns {frame : Frame} {h : Heap} (result : Value) (deep : 1 < m.frames.size) (top : m.topFrame? = some frame)
    (gathered : frame.locals.value.isMap = true → Heap.gather frame.locals.value m.heap = .ok () h)
    (plain : frame.locals.value.isMap = false → h = m.heap) :
    ∃ left m', resume frame result { m with frames := m.frames.pop,heap := h } = .ok left m' ∧ Turn written m m' := by
  have turn : Turn written m { m with
      frames := m.frames.pop
      heap := frame.release h
      pc := frame.call.returnPc
      base := frame.call.returnBase
      function := frame.call.returnFunction } := (Shift.ret deep top gathered plain).turn
  unfold resume
  cases frame.call.destination with
  | none => exact ⟨_,_,rfl,turn⟩
  | some d => exact ⟨_,_,rfl,turn.after (.heap .register)⟩

theorem gather_failed {h : Heap} (map : v.isMap = true) (failed : Heap.gather v h = .error e h') : e = .staleReference := by
  cases v with
  | map r =>
      simp only [Heap.gather,Heap.mapHandle] at failed
      cases live : h.isLive r with
      | false =>
          simp only [live] at failed
          cases failed
          rfl
      | true =>
          simp only [live,if_true] at failed
          split at failed
          · cases failed
          · cases failed
  | null | int | double | short | str | list | funcRef => cases map

theorem leave_turns : Turns written leave m := by
  rw [leave_parts]
  refine Turns.get_bind ?_
  simp only
  split
  · exact (Works.pure _).turns
  · rename_i deep
    split
    · exact (Works.pure _).turns
    · rename_i frame top
      have resumes : ∀ h, (frame.locals.value.isMap = true → Heap.gather frame.locals.value m.heap = .ok () h) →
          (frame.locals.value.isMap = false → h = m.heap) →
          ∃ left m', resume frame (m.heap.registerValue m.base) { m with frames := m.frames.pop,heap := h } = .ok left m' ∧
            Turn written m m' := fun h => resume_turns _ (by omega) top
      cases map : frame.locals.value.isMap with
      | false =>
          obtain ⟨left,m',result,turn⟩ := resumes m.heap (by simp [map]) fun _ => rfl
          simp only [Bool.false_eq_true,if_false,Turns,bind,EStateM.bind,modify_ok,result]
          exact turn
      | true =>
          cases gathered : Heap.gather frame.locals.value m.heap with
          | ok _ h =>
              obtain ⟨left,m',result,turn⟩ := resumes h (fun _ => gathered) (by simp [map])
              simp only [if_true,Turns,bind,EStateM.bind,modify_ok,onHeap,gathered,result]
              exact turn
          | error e h =>
              simp only [if_true,Turns,bind,EStateM.bind,modify_ok,onHeap,gathered]
              exact fun fresh => absurd (gather_failed map gathered) fresh

end Machine

end RegisterMachine
