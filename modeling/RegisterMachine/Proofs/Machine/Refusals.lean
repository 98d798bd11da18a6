import RegisterMachine.Proofs.Machine.Places

namespace RegisterMachine

-- The errors with which calls are refused.
def Error.refusesCall : Error → Bool
  | .invalidFunction _ | .callStackOverflow | .stackOverflow _ _ | .tooManyArguments _ _ | .sequencing _ | .typeMismatch _ _ => true
  | _ => false

namespace Machine

variable {m m' : Machine} {request : CallRequest}

-- A failure that left no trace.
def Refused (m : Machine) (e : Error) (m' : Machine) : Prop := m' = m ∧ e.refusesCall = true

-- The body of the native function that a call starts has failed, in the window that was filled for it.
def BodyFails (m : Machine) (request : CallRequest) (e : Error) (m' : Machine) : Prop :=
  ∃ callee body s, m.functions[request.function]? = some callee ∧ callee.native = some body ∧
    seat request callee (m.bindsReceiver callee) m.pending m = .ok () s ∧ runNative body request.base s = .error e m'

-- The call at the end of an argument block.
def blockRequest (m : Machine) (count : Nat) (call : Word) (f : FuncRef) : CallRequest :=
  { function := f.function,outer := f.outer,base := m.base + call.b,arguments := some count
    destination := some call.a,returnPc := m.pc + count + 1 }

theorem ensureWindow_refuses {base size : Nat} (failed : ensureWindow base size m = .error e m') : m.Refused e m' := by
  simp only [ensureWindow] at failed
  split at failed
  · cases failed
    exact ⟨rfl,rfl⟩
  · cases failed

theorem except_error {ε α β : Type} {first : Except ε α} {rest : α → Except ε β} {e : ε} (failed : (first >>= rest) = .error e) :
    first = .error e ∨ ∃ a, first = .ok a ∧ rest a = .error e := by
  cases first with
  | error e' =>
      cases failed
      exact Or.inl rfl
  | ok a => exact Or.inr ⟨a,rfl,failed⟩

theorem argumentValue_sequencing (failed : argumentValue m word = .error e) : ∃ text, e = .sequencing text := by
  unfold argumentValue at failed
  split at failed <;> cases failed
  exact ⟨_,rfl⟩

theorem argumentValues_sequencing {code : Array Word} {pc : Nat} (failed : argumentValues m code count pc = .error e) :
    ∃ text, e = .sequencing text := by
  induction count generalizing pc e with
  | zero => cases failed
  | succ count ih =>
      simp only [argumentValues] at failed
      split at failed
      · cases failed
        exact ⟨_,rfl⟩
      · rcases except_error failed with first | ⟨v,_,failed⟩
        · exact argumentValue_sequencing first
        · rcases except_error failed with rest | ⟨values,_,done⟩
          · exact ih rest
          · cases done

theorem passArguments_refuses {callee : Function} {base : Nat} (failed : passArguments callee count first base m = .error e m') :
    m.Refused e m' := by
  simp only [passArguments] at failed
  by_cases many : count > callee.parameters.size - first
  · simp only [if_pos many] at failed
    cases failed
    exact ⟨rfl,rfl⟩
  · simp only [if_neg many] at failed
    split at failed
    · rename_i read
      cases failed
      obtain ⟨text,rfl⟩ := argumentValues_sequencing read
      exact ⟨rfl,rfl⟩
    · cases failed

theorem seatArguments_refuses {callee : Function} (failed : seatArguments request callee binds m = .error e m') : m.Refused e m' := by
  unfold seatArguments at failed
  cases given : request.arguments with
  | none =>
      rw [given] at failed
      cases failed
  | some count =>
      rw [given] at failed
      exact passArguments_refuses failed

theorem seatReceiver_done (request : CallRequest) (binds : Bool) (pending : Option (Value × Value)) (m : Machine) :
    ∃ s, seatReceiver request binds pending m = .ok () s := by
  unfold seatReceiver
  cases binds with
  | false => exact ⟨_,rfl⟩
  | true => cases pending <;> exact ⟨_,rfl⟩

-- Nothing is written before the last of these checks.
theorem seat_refuses {callee : Function} {pending : Option (Value × Value)} (failed : seat request callee binds pending m = .error e m') :
    m.Refused e m' := by
  rcases bind_error failed with window | ⟨_,s,fits,failed⟩
  · exact ensureWindow_refuses window
  · cases ensureWindow_same fits
    rcases bind_error failed with passing | ⟨_,s,_,failed⟩
    · exact seatArguments_refuses passing
    · rcases bind_error failed with clearing | ⟨_,s',_,receiving⟩
      · cases clearing
      · obtain ⟨s'',done⟩ := seatReceiver_done request binds pending s'
        rw [done] at receiving
        cases receiving

theorem launch_fails {callee : Function} {pending : Option (Value × Value)} (failed : launch request callee pending m = .error e m') :
    ∃ body, callee.native = some body ∧ runNative body request.base m = .error e m' := by
  unfold launch at failed
  cases native : callee.native with
  | none =>
      rw [native] at failed
      cases failed
  | some body =>
      rw [native] at failed
      rcases bind_error failed with ran | ⟨result,s,_,stored⟩
      · exact ⟨body,rfl,ran⟩
      · cases stored

theorem enter_refuses (failed : enter request m = .error e m') : m.Refused e m' ∨ m.BodyFails request e m' := by
  rw [enter_seats] at failed
  simp only [bind,EStateM.bind,get_ok] at failed
  cases found : m.functions[request.function]? with
  | none =>
      simp only [found] at failed
      cases failed
      exact Or.inl ⟨rfl,rfl⟩
  | some callee =>
      simp only [found] at failed
      split at failed
      · cases failed
        exact Or.inl ⟨rfl,rfl⟩
      · rcases bind_error failed with refused | ⟨_,s,seated,launched⟩
        · exact Or.inl (seat_refuses refused)
        · obtain ⟨body,native,ran⟩ := launch_fails launched
          exact Or.inr ⟨callee,body,s,found,native,seated,ran⟩

theorem argumentBlock_parts (count : Nat) (m : Machine) : argumentBlock count m =
    match m.functions[m.function]?.bind (·.code[m.pc + count]?) with
    | none => .error (.sequencing "ARGBLK: CALL instruction out of range") m
    | some call =>
      if call.opcode? ≠ some .call then .error (.sequencing "ARGBLK must be followed by CALL") m
      else match m.heap.funcRef? (m.heap.registerValue (m.base + call.c)) with
        | none => .error (.typeMismatch "funcRef" (m.heap.registerValue (m.base + call.c)).kindName) m
        | some f => enter (m.blockRequest count call f) m := by
  have natural : ¬ (count : Int) < 0 := by omega
  simp only [argumentBlock,natural,if_false,bind,EStateM.bind,get_ok,Int.toNat_natCast]
  cases m.functions[m.function]?.bind (·.code[m.pc + count]?) with
  | none => rfl
  | some call =>
      by_cases calls : call.opcode? = some .call
      · simp only [calls,ne_eq,not_true_eq_false,if_false]
        cases m.heap.funcRef? (m.heap.registerValue (m.base + call.c)) <;> rfl
      · simp only [calls,ne_eq,not_false_eq_true,if_true]
        rfl

theorem argumentBlock_enters {call : Word} (last : m.functions[m.function]?.bind (·.code[m.pc + count]?) = some call)
    (calls : call.opcode? = some .call) (live : m.heap.funcRef? (m.heap.registerValue (m.base + call.c)) = some f) :
    argumentBlock count m = enter (m.blockRequest count call f) m := by
  rw [argumentBlock_parts]
  simp only [last,calls,ne_eq,not_true_eq_false,if_false,live]

theorem argumentBlock_refuses {count : Int} (failed : argumentBlock count m = .error e m') :
    m.Refused e m' ∨ ∃ call f, m.functions[m.function]?.bind (·.code[m.pc + count.toNat]?) = some call ∧
      m.heap.funcRef? (m.heap.registerValue (m.base + call.c)) = some f ∧ m.BodyFails (m.blockRequest count.toNat call f) e m' := by
  by_cases negative : count < 0
  · simp only [argumentBlock,if_pos negative] at failed
    cases failed
    exact Or.inl ⟨rfl,rfl⟩
  · obtain ⟨n,rfl⟩ := Int.eq_ofNat_of_zero_le (Int.not_lt.mp negative)
    rw [argumentBlock_parts] at failed
    split at failed
    · cases failed
      exact Or.inl ⟨rfl,rfl⟩
    · rename_i call last
      split at failed
      · cases failed
        exact Or.inl ⟨rfl,rfl⟩
      · split at failed
        · cases failed
          exact Or.inl ⟨rfl,rfl⟩
        · rename_i f live
          exact (enter_refuses failed).imp id fun fails => ⟨call,f,last,live,fails⟩

-- A call that fails has changed nothing at all, or it is the body of a native function that failed. This
-- holds for every function, window, number of arguments and destination, and for argument blocks alike.
theorem refused_unchanged {m m' : Machine} {e : Error} :
    (∀ request, enter request m = .error e m' → m' = m ∧ e.refusesCall = true ∨ m.BodyFails request e m') ∧
    ∀ count : Int, argumentBlock count m = .error e m' → m' = m ∧ e.refusesCall = true ∨
      ∃ call f, m.functions[m.function]?.bind (·.code[m.pc + count.toNat]?) = some call ∧
        m.heap.funcRef? (m.heap.registerValue (m.base + call.c)) = some f ∧ m.BodyFails (m.blockRequest count.toNat call f) e m' :=
  ⟨fun _ failed => enter_refuses failed,fun _ failed => argumentBlock_refuses failed⟩

-- A method is pending, its window overlaps the arguments, and the second argument word is none.
def halfBlock : Program where
  functions := [
    { name := "@main",registers := some 4,parameters := [],constants := []
      code := [.named "LOAD_rA_iBC" [1,7],.named "FUNCREF_iA_iBC" [3,1],.named "SETSELF_rA" [1],.named "ARGBLK_iABC" [2],
        .named "ARG_rA" [1],.named "NOOP" [],.named "CALL_rA_rB_rC" [0,1,3],.named "RETURN" []] },
    { name := "method",registers := some 4,parameters := [⟨"self",.null⟩,⟨"a",.null⟩,⟨"b",.null⟩],constants := []
      code := [.named "RETURN" []] }]

theorem refused_unchanged_half : ∃ m : Machine, m.Reachable ∧ m.pending = some (.int 7,.null) ∧ m.heap.registerValue 1 = .int 7 ∧
    argumentBlock 2 { m with pc := m.pc + 1 } =
      .error (.sequencing "Expected ARG opcode in ARGBLK") { m with pc := m.pc + 1 } := by
  obtain ⟨m,reachable,whole⟩ : ∃ m, m.Reachable ∧ m = ((Machine.load (.new { stackSlots := 8 }) halfBlock true).run 3).2 :=
    ⟨_,.run 3 (.load halfBlock true (.new { stackSlots := 8 })),rfl⟩
  obtain ⟨s,moved⟩ : ∃ s, s = { m with pc := m.pc + 1 } := ⟨_,rfl⟩
  have facts : m.pending = some (.int 7,.null) ∧ m.heap.registerValue 1 = .int 7 ∧
      failure? (argumentBlock 2 s) = some (.sequencing "Expected ARG opcode in ARGBLK") ∧
      (((s.functions[s.function]?.bind (·.code[s.pc + 2]?)).bind fun call =>
        s.heap.funcRef? (s.heap.registerValue (s.base + call.c))).bind fun f => s.functions[f.function]?).bind (·.native) = none := by
    rw [moved,whole]
    decide +kernel
  obtain ⟨pending,value,error,compiled⟩ := facts
  refine ⟨m,reachable,pending,value,?_⟩
  rw [← moved]
  obtain ⟨s',failed⟩ := failure?_some error
  rcases refused_unchanged.2 2 failed with ⟨rfl,_⟩ | ⟨call,f,last,live,callee,body,_,found,native,_⟩
  · exact failed
  · have target : s.functions[f.function]? = some callee := found
    rw [show (2 : Int).toNat = 2 from rfl] at last
    rw [last,Option.bind_some,live,Option.bind_some,target,Option.bind_some,native] at compiled
    cases compiled

end Machine

end RegisterMachine
