import RegisterMachine.Proofs.Machine.Refusals

namespace RegisterMachine.Machine

variable {m : Machine} {request : CallRequest}

-- The outcome of a call from another place: the callee begins, or the caller goes on, where the call says,
-- and only a failure stays where it was.
def fromThere (pc : Nat) (log : Array LogLine) : EStateM.Result Error Machine α → EStateM.Result Error Machine α
  | .ok a m => .ok a { m with log }
  | .error e m => .error e { m with pc,log }

theorem Local.there {first : MachineM α} {rest : α → MachineM β} {pc : Nat} {log : Array LogLine} (sited : Local first)
    (follows : ∀ a s, rest a { s with pc,log } = fromThere pc log (rest a s)) (m : Machine) :
    (first >>= rest) { m with pc,log } = fromThere pc log ((first >>= rest) m) := by
  have same : first { m with pc,log } = relocate { m.place with pc,log } (first m) := sited m { m.place with pc,log }
  have here := sited.rests m
  simp only [Bind.bind,EStateM.bind,same]
  cases result : first m with
  | ok a s =>
      rw [result,left] at here
      rw [← here]
      exact follows a s
  | error e s =>
      rw [result,left] at here
      rw [← here]
      rfl

theorem passArguments_local (callee : Function) (first base : Nat) : Local (passArguments callee 0 first base) := by
  intro m p
  simp only [passArguments,gt_iff_lt,Nat.not_lt_zero,if_false,argumentValues]
  rfl

theorem seat_local (callee : Function) (binds : Bool) (pending : Option (Value × Value)) (bare : request.arguments = some 0) :
    Local (seat request callee binds pending) := by
  refine (ensureWindow_local _ _).bind fun _ => ?_
  have passed : Local (seatArguments request callee binds) := by
    unfold seatArguments
    rw [bare]
    exact passArguments_local callee _ request.base
  refine passed.bind fun _ => (pending_local none).bind fun _ => ?_
  unfold seatReceiver
  split
  · exact modifyHeap_local _
  · exact .pure _

theorem runNative_local (intrinsic : Intrinsic) (base : Nat) : Local (runNative (.intrinsic intrinsic) base) :=
  Local.get_bind (fun _ _ => rfl) fun _ => runIntrinsic_local intrinsic _

theorem launch_there {callee : Function} (pending : Option (Value × Value)) (own : ∀ host, callee.native ≠ some (.host host))
    (m : Machine) (pc : Nat) (log : Array LogLine) :
    launch request callee pending { m with pc,log } = fromThere pc log (launch request callee pending m) := by
  cases native : callee.native with
  | none =>
      simp only [launch,native]
      cases pending <;> rfl
  | some body =>
      cases body with
      | host host => exact absurd native (own host)
      | intrinsic intrinsic =>
          simp only [launch,native]
          exact (runNative_local intrinsic request.base).there (fun _ _ => rfl) m

theorem enter_there (bare : request.arguments = some 0)
    (own : ∀ callee, m.functions[request.function]? = some callee → ∀ host, callee.native ≠ some (.host host)) (pc : Nat) (log : Array LogLine) :
    enter request { m with pc,log } = fromThere pc log (enter request m) := by
  rw [enter_seats]
  simp only [bind,EStateM.bind,get_ok]
  cases found : m.functions[request.function]? with
  | none => rfl
  | some callee =>
      simp only
      by_cases full : (callee.native.isNone && m.frames.size ≥ m.config.callSlots) = true
      · simp only [full,if_true]
        rfl
      · simp only [full]
        exact (seat_local callee _ m.pending bare).there (fun _ s => launch_there m.pending (own callee found) s pc log) m

def calling (request : CallRequest) : MachineM Progress := do
  enter request
  pure .next

section

variable (bare : request.arguments = some 0)
  (own : ∀ callee, m.functions[request.function]? = some callee → ∀ host, callee.native ≠ some (.host host))
include bare own

theorem calling_there (pc : Nat) (log : Array LogLine) : calling request { m with pc,log } = fromThere pc log (calling request m) := by
  simp only [calling,bind,EStateM.bind,enter_there bare own pc log]
  cases enter request m <;> rfl

theorem calling_quiet (done : calling request m = .ok progress s) : s.log = m.log := by
  have here : calling request m = fromThere m.pc m.log (calling request m) := calling_there bare own m.pc m.log
  rw [done,fromThere,EStateM.Result.ok.injEq] at here
  rw [here.2]

end

theorem block_calling {count : Nat} {word call : Word} (block : m.nextWord? = some word) (blocks : word.opcode? = some .argumentBlock)
    (counts : word.abcSigned = count) (last : m.functions[m.function]?.bind (·.code[m.pc + 1 + count]?) = some call)
    (calls : call.opcode? = some .call) (live : m.heap.funcRef? (m.heap.registerValue (m.base + call.c)) = some f) :
    ∃ log, step m = calling ({ m with pc := m.pc + 1 }.blockRequest count call f) { m with pc := m.pc + 1,log } ∧
      (m.config.trace = false → log = m.log) := by
  obtain ⟨log,dispatched,quiet⟩ := step_dispatches block
  have entered := @argumentBlock_enters { m with pc := m.pc + 1,log } count f call last calls live
  refine ⟨log,?_,quiet⟩
  rw [dispatched]
  simp only [dispatch,blocks,perform,counts,calling,bind,EStateM.bind,entered]
  rfl

theorem call_calling {call : Word} (next : m.nextWord? = some call) (calls : call.opcode? = some .call)
    (live : m.heap.funcRef? (m.heap.registerValue (m.base + call.c)) = some f) :
    ∃ log, step m = calling ({ m with pc := m.pc + 1 }.refRequest f (m.base + call.b) call.a) { m with pc := m.pc + 1,log } ∧
      (m.config.trace = false → log = m.log) := by
  obtain ⟨log,dispatched,quiet⟩ := step_dispatches next
  refine ⟨log,?_,quiet⟩
  rw [dispatched]
  simp only [dispatch,calls,perform,calling,bind,EStateM.bind,reg,get_ok,live]
  rfl

-- An argument block without arguments gives what the call after it would give on its own: the same error, or
-- the same machine. Only the log can differ, when the machine traces what it executes.
theorem empty_block_calls {word call : Word} (block : m.nextWord? = some word) (blocks : word.opcode? = some .argumentBlock)
    (empty : word.abcSigned = 0) (after : { m with pc := m.pc + 1 }.nextWord? = some call) (calls : call.opcode? = some .call)
    (live : m.heap.funcRef? (m.heap.registerValue (m.base + call.c)) = some f)
    (own : ∀ callee, m.functions[f.function]? = some callee → ∀ host, callee.native ≠ some (.host host)) :
    (∀ progress s, step m = .ok progress s →
      ∃ log, step { m with pc := m.pc + 1 } = .ok progress { s with log } ∧ (m.config.trace = false → log = s.log)) ∧
    ∀ e s, step m = .error e s → ∃ pc log, step { m with pc := m.pc + 1 } = .error e { s with pc,log } := by
  have counts : word.abcSigned = (0 : Nat) := empty
  obtain ⟨log,blocked,quiet⟩ := block_calling block blocks counts after calls live
  obtain ⟨log',called,quiet'⟩ := call_calling after calls live
  -- Both make one request; the block makes it a word earlier.
  generalize asked : ({ m with pc := m.pc + 1 } : Machine).blockRequest 0 call f = request at blocked
  have same : ({ m with pc := m.pc + 1 + 1 } : Machine).refRequest f (m.base + call.b) call.a = request := by rw [← asked]; rfl
  have bare : request.arguments = some 0 := by rw [← asked]; rfl
  have target : request.function = f.function := by rw [← asked]; rfl
  rw [same] at called
  have own' : ∀ callee, m.functions[request.function]? = some callee → ∀ host, callee.native ≠ some (.host host) := by
    rw [target]
    exact own
  have there := calling_there (m := { m with pc := m.pc + 1,log }) bare own' (m.pc + 1 + 1) log'
  rw [← blocked] at there
  refine ⟨fun progress s done => ?_,fun e s failed => ?_⟩
  · have kept := calling_quiet (m := { m with pc := m.pc + 1,log }) bare own' (blocked.symm.trans done)
    rw [done] at there
    refine ⟨log',called.trans there,fun silent => ?_⟩
    rw [kept]
    exact (quiet' silent).trans (quiet silent).symm
  · rw [failed] at there
    exact ⟨_,_,called.trans there⟩

-- A method is pending and takes its receiver, in a window that overlaps the caller's registers.
def emptyBlock : Program where
  functions := [
    { name := "@main",registers := some 4,parameters := [],constants := []
      code := [.named "LOAD_rA_iBC" [1,7],.named "FUNCREF_iA_iBC" [3,1],.named "SETSELF_rA" [1],.named "ARGBLK_iABC" [0],
        .named "CALL_rA_rB_rC" [0,1,3],.named "RETURN" []] },
    { name := "method",registers := some 3,parameters := [⟨"self",.null⟩,⟨"a",.null⟩],constants := []
      code := [.named "RETURN" []] }]

theorem empty_block_calls_method : ∃ (m s : Machine) (progress : Progress), m.Reachable ∧ m.pending = some (.int 7,.null) ∧
    step m = .ok progress s ∧ step { m with pc := m.pc + 1 } = .ok progress s ∧ s.base = 1 ∧ s.heap.registerValue 2 = .int 7 := by
  obtain ⟨m,reachable,whole⟩ : ∃ m, m.Reachable ∧ m = ((Machine.load (.new { stackSlots := 8 }) emptyBlock true).run 3).2 :=
    ⟨_,.run 3 (.load emptyBlock true (.new { stackSlots := 8 })),rfl⟩
  have facts : (m.pending = some (.int 7,.null) ∧ m.config.trace = false) ∧
      ((m.nextWord?.map fun word => (word.opcode?,word.abcSigned)) = some (some .argumentBlock,0) ∧
        (({ m with pc := m.pc + 1 } : Machine).nextWord?.map fun call =>
          (call.opcode?,(m.heap.funcRef? (m.heap.registerValue (m.base + call.c))).map fun f =>
            (m.functions[f.function]?.map (·.native)))) = some (some .call,some (some none))) ∧
      (result? (step m)).map (fun out => (out.2.base,out.2.heap.registerValue 2)) = some (1,.int 7) := by
    rw [whole]
    decide +kernel
  obtain ⟨⟨pending,silent⟩,⟨first,second⟩,stepped⟩ := facts
  obtain ⟨word,block,shape⟩ := Option.map_eq_some_iff.mp first
  obtain ⟨blocks,empty⟩ := Prod.mk.inj shape
  obtain ⟨call,after,target⟩ := Option.map_eq_some_iff.mp second
  obtain ⟨calls,target⟩ := Prod.mk.inj target
  obtain ⟨f,live,target⟩ := Option.map_eq_some_iff.mp target
  have own : ∀ callee, m.functions[f.function]? = some callee → ∀ host, callee.native ≠ some (.host host) := by
    intro callee found host native
    rw [found,Option.map_some,native] at target
    cases target
  obtain ⟨⟨progress,s⟩,done,shown⟩ := Option.map_eq_some_iff.mp stepped
  obtain ⟨same,_⟩ := empty_block_calls block blocks empty after calls live own
  obtain ⟨log,called,quiet⟩ := same progress s (result?_some done)
  rw [quiet silent] at called
  obtain ⟨base,value⟩ := Prod.mk.inj shown
  exact ⟨m,s,progress,reachable,pending,result?_some done,called,base,value⟩

end RegisterMachine.Machine
