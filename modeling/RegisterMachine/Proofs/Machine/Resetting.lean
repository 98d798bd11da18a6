import RegisterMachine.Proofs.Heap.Balance
import RegisterMachine.Proofs.Machine.Accounts
import RegisterMachine.Proofs.Machine.Reachable
import RegisterMachine.Proofs.Machine.Stepping

namespace RegisterMachine

namespace Machine

structure Furnished (m m' : Machine) : Prop where
  frames : m'.frames = m.frames
  config : m'.config = m.config
  pending : m'.pending = m.pending
  state : m'.state = m.state
  fault : m'.fault = m.fault
  errors : m'.errors = m.errors
  functions : ∀ (i : Nat) f, m.functions[i]? = some f → m'.functions[i]? = some f
  acts : Heap.Acts (fun _ => True) m.heap m'.heap
  nested : m.heap.Grounded → Heap.Nested m.heap m'.heap
  places : m'.heap.roots.size = m.heap.roots.size
  account : ∀ pinned, Account m.heap pinned → Account m'.heap pinned

theorem Furnished.refl (m : Machine) : Furnished m m :=
  ⟨rfl,rfl,rfl,rfl,rfl,rfl,fun _ _ found => found,.refl,fun _ => .refl _,rfl,fun _ => id⟩

theorem Furnished.trans (first : Furnished m m') (second : Furnished m' m'') : Furnished m m'' where
  frames := second.frames.trans first.frames
  config := second.config.trans first.config
  pending := second.pending.trans first.pending
  state := second.state.trans first.state
  fault := second.fault.trans first.fault
  errors := second.errors.trans first.errors
  functions := fun i f found => second.functions i f (first.functions i f found)
  acts := first.acts.trans second.acts
  nested := fun grounded => (first.nested grounded).trans (second.nested ((first.nested grounded).grounded grounded))
  places := second.places.trans first.places
  account := fun pinned account => second.account pinned (first.account pinned account)

theorem Furnished.heap {m : Machine} (acts : Heap.Acts (fun _ => True) m.heap h) (tended : Heap.Tended False m.heap h) :
    Furnished m { m with heap := h } where
  frames := rfl
  config := rfl
  pending := rfl
  state := rfl
  fault := rfl
  errors := rfl
  functions := fun _ _ found => found
  acts := acts
  nested := tended.nested
  places := by rw [tended.roots]
  account := fun _ account => account.steady tended.roots tended.freeRoots

theorem Furnished.setLasting {m : Machine} {id : Nat} (v : Value) (lasts : id ∈ Ledger.lasting) :
    Furnished m { m with heap := m.heap.setRoot id v } where
  frames := rfl
  config := rfl
  pending := rfl
  state := rfl
  fault := rfl
  errors := rfl
  functions := fun _ _ found => found
  acts := .reroot
  nested := fun _ => ⟨rfl,List.suffix_refl _⟩
  places := Ledger.setRoot_size _ _ _
  account := fun _ account => account.setLasting v lasts

def Furnishes (operation : MachineM α) : Prop := ∀ m, Furnished m (left (operation m))

theorem Furnishes.pure (a : α) : Furnishes (Pure.pure a : MachineM α) := .refl

theorem Furnishes.bind_given {first : MachineM α} {rest : α → MachineM β} (furnishes : Furnishes first)
    (follows : ∀ m a s, first m = .ok a s → Furnished s (left (rest a s))) : Furnishes (first >>= rest) := by
  intro m
  have start := furnishes m
  rcases left_bind first rest m with stopped | ⟨a,done,next⟩
  · rw [stopped]
    exact start
  · rw [next]
    exact start.trans (follows m a _ done)

theorem Furnishes.bind {first : MachineM α} {rest : α → MachineM β} (furnishes : Furnishes first)
    (follows : ∀ a, Furnishes (rest a)) : Furnishes (first >>= rest) :=
  furnishes.bind_given fun _ a s _ => follows a s

theorem onHeap_furnishes {operation : HeapM α} (performs : Heap.Performs (fun _ => True) operation) (tends : Heap.Tends False operation) :
    Furnishes (onHeap operation) := by
  intro m
  have acts := performs m.heap (.all _)
  have tended := tends m.heap
  unfold Heap.after at acts tended
  unfold onHeap
  cases result : operation m.heap with
  | ok a h =>
      simp only [result] at acts tended ⊢
      exact .heap acts tended
  | error e h =>
      simp only [result] at acts tended ⊢
      exact .heap acts tended

theorem onHeap_delivered {m : Machine} {operation : HeapM α} (delivers : Heap.Delivers operation post) (done : onHeap operation m = .ok a s) : post a := by
  unfold onHeap at done
  cases result : operation m.heap with
  | ok b h =>
      simp only [result] at done
      cases done
      exact delivers m.heap _ h result
  | error e h =>
      simp only [result] at done
      cases done

theorem inScope_furnishes {operation : MachineM α} (furnishes : Furnishes operation) : Furnishes (inScope operation) := by
  intro m
  have inside := furnishes { m with heap := m.heap.pushScope }
  have closes : ∀ s : Machine, Furnished { m with heap := m.heap.pushScope } s → Furnished m { s with heap := s.heap.popScope } := by
    intro s furnished
    obtain ⟨roots,freeRoots,_⟩ := s.heap.popScope_roots
    refine { furnished with acts := ?_,nested := fun grounded => ?_,places := ?_,account := ?_ }
    · exact ((Heap.pushScope_acts _).trans furnished.acts).trans (Heap.popScope_acts _)
    · rw [Heap.popScope_nested (furnished.nested (Heap.pushScope_grounded grounded))]
      exact ⟨rfl,List.suffix_refl _⟩
    · rw [roots]
      exact furnished.places
    · intro pinned account
      have inner : Account m.heap.pushScope pinned := account.steady rfl rfl
      exact (furnished.account pinned inner).steady roots freeRoots
  unfold inScope
  cases result : operation { m with heap := m.heap.pushScope } with
  | ok a s =>
      rw [result] at inside
      exact closes s inside
  | error e s =>
      rw [result] at inside
      exact closes s inside

theorem ofNative_acts (name : String) (parameters : List (String × Value)) (native : Native) (h : Heap) :
    Heap.Acts written h (Function.ofNative name parameters native h).2 := by
  refine List.foldlRecOn (motive := fun state : Array Parameter × Heap => Heap.Acts written h state.2) parameters
    (fun (state : Array Parameter × Heap) p =>
      (state.1.push { name := (state.2.intern p.1).1,default := p.2 },(state.2.intern p.1).2)) (b := (#[],h)) .refl ?_
  intro state acts p _
  exact acts.trans .intern

theorem ofNative_tended (name : String) (parameters : List (String × Value)) (native : Native) (h : Heap) :
    Heap.Tended level h (Function.ofNative name parameters native h).2 := by
  refine List.foldlRecOn (motive := fun state : Array Parameter × Heap => Heap.Tended level h state.2) parameters
    (fun (state : Array Parameter × Heap) p =>
      (state.1.push { name := (state.2.intern p.1).1,default := p.2 },(state.2.intern p.1).2)) (b := (#[],h)) (.refl h) ?_
  intro state tended p _
  exact tended.trans (Heap.intern_tended _ _)

theorem newTypeMaps_acts (count : Nat) (maps : Array Value) : Heap.Performs (fun _ => True) (newTypeMaps count maps) := by
  induction count generalizing maps with
  | zero => exact .pure _
  | succ count ih =>
      exact (Heap.newMap_makes 16).performs.bind fun map => (Heap.Does.modify fun h => h.protect_acts map).bind fun _ => ih _

theorem newTypeMaps_tends (count : Nat) (maps : Array Value) : Heap.Tends False (newTypeMaps count maps) := by
  induction count generalizing maps with
  | zero => exact .pure _
  | succ count ih => exact (Heap.newMap_tends 16).bind fun map => (Heap.protecting_tends map).bind fun _ => ih _

theorem newTypeMaps_delivers (count : Nat) (maps : Array Value) :
    Heap.Delivers (newTypeMaps count maps) fun result => result.size = maps.size + count := by
  induction count generalizing maps with
  | zero => exact .pure rfl
  | succ count ih =>
      refine (Heap.Delivers.any _).bind fun map _ => (Heap.Delivers.any _).bind fun _ _ h result s done => ?_
      rw [ih (maps.push map) h result s done,Array.size_push]
      omega

theorem newMaps_delivers : Heap.Delivers (do
    let table ← Heap.newMap 64
    modify (·.protect table)
    let maps ← newTypeMaps typeRootCount #[]
    pure (table,maps)) fun made => made.2.size = typeRootCount := by
  refine (Heap.Delivers.any _).bind fun table _ => (Heap.Delivers.any _).bind fun _ _ => ?_
  exact (newTypeMaps_delivers _ _).bind fun maps size => .pure (size.trans (Nat.zero_add _))

theorem fileMethod_acts (maps : Array Value) (name f : Value) (kinds : List Kind) : Heap.Performs (fun _ => True) (fileMethod maps name f kinds) := by
  induction kinds with
  | nil => exact .pure _
  | cons kind rest ih =>
      unfold fileMethod
      split
      · exact (Heap.mapSet_acts _ (Value.named_all _) fun _ _ => trivial).bind fun _ => ih
      · exact ih

theorem fileMethod_tends (maps : Array Value) (name f : Value) (kinds : List Kind) : Heap.Tends level (fileMethod maps name f kinds) := by
  induction kinds with
  | nil => exact .pure _
  | cons kind rest ih =>
      unfold fileMethod
      split
      · exact (Heap.mapSet_tends _ _ _).bind fun _ => ih
      · exact ih

theorem installIntrinsic_furnishes (table : Value) (maps : Array Value) (intrinsic : Intrinsic) : Furnishes (installIntrinsic table maps intrinsic) := by
  intro m
  have acts := @ofNative_acts (fun _ => True) intrinsic.name intrinsic.parameters (.intrinsic intrinsic) m.heap
  have tended : Heap.Tended False m.heap (Function.ofNative intrinsic.name intrinsic.parameters (.intrinsic intrinsic) m.heap).2 :=
    ofNative_tended _ _ _ _
  have appended : Furnished m { m with
      heap := (Function.ofNative intrinsic.name intrinsic.parameters (.intrinsic intrinsic) m.heap).2
      functions := m.functions.push (Function.ofNative intrinsic.name intrinsic.parameters (.intrinsic intrinsic) m.heap).1 } := by
    refine { Furnished.heap acts tended with functions := fun i f found => ?_ }
    have inside : i < m.functions.size := (Array.getElem?_eq_some_iff.mp found).1
    rw [Array.getElem?_push,if_neg (Nat.ne_of_lt inside)]
    exact found
  refine appended.trans (onHeap_furnishes ?_ ?_ _)
  · refine (Heap.interning_acts _).bind fun name => (Heap.newFuncRef_acts _ _).bind fun f => ?_
    exact (Heap.mapSet_acts _ (Value.named_all _) fun _ _ => trivial).bind fun _ => fileMethod_acts _ _ _ _
  · refine (Heap.interning_tends _).bind fun name => (Heap.newFuncRef_tends _ _).bind fun f => ?_
    exact (Heap.mapSet_tends _ _ _).bind fun _ => fileMethod_tends _ _ _ _

theorem installAll_furnishes (table : Value) (maps : Array Value) (intrinsics : List Intrinsic) : Furnishes (installAll table maps intrinsics) := by
  induction intrinsics with
  | nil => exact .pure _
  | cons intrinsic rest ih => exact (installIntrinsic_furnishes table maps intrinsic).bind fun _ => ih

theorem rootMaps_furnishes (m : Machine) (table : Value) {maps : Array Value} (size : maps.size = typeRootCount) : Furnished m { m with
    heap := List.foldl (fun h (map,i) => h.setRoot (typeRoot i) map) (m.heap.setRoot intrinsicsRoot table) maps.toList.zipIdx } := by
  have first : Furnished m { m with heap := m.heap.setRoot intrinsicsRoot table } := .setLasting table (by decide)
  refine List.foldlRecOn (motive := fun h => Furnished m { m with heap := h }) maps.toList.zipIdx _ first ?_
  rintro h later ⟨map,i⟩ member
  have inside : i < typeRootCount := by
    rw [← size]
    simpa using (List.getElem?_eq_some_iff.mp (List.mem_zipIdx_iff_getElem?.mp member)).1
  have lasts : typeRoot i ∈ Ledger.lasting := by
    simp only [Ledger.lasting,typeRoot,typeRootCount,List.mem_range'_1] at inside ⊢
    omega
  exact later.trans (.setLasting (m := { m with heap := h }) map lasts)

theorem installIntrinsics_furnishes : Furnishes installIntrinsics := by
  refine inScope_furnishes (Furnishes.bind_given (onHeap_furnishes ?_ ?_) ?_)
  · refine (Heap.newMap_makes 64).performs.bind fun table => ?_
    exact (Heap.Does.modify fun h => h.protect_acts table).bind fun _ => (newTypeMaps_acts _ _).bind fun maps => .pure _
  · refine (Heap.newMap_tends 64).bind fun table => (Heap.protecting_tends table).bind fun _ => ?_
    exact (newTypeMaps_tends _ _).bind fun maps => .pure _
  · intro m made s done
    have size := onHeap_delivered newMaps_delivers done
    refine (installAll_furnishes made.1 made.2 Intrinsic.all).bind (fun _ => ?_) s
    exact fun s => rootMaps_furnishes s made.1 size

theorem entryFunction_done {m m' : Machine} (done : entryFunction m = .ok entry m') : m' = m ∧ ∃ f, m.functions[entry]? = some f := by
  simp only [entryFunction,bind,EStateM.bind,get_ok] at done
  cases named : m.functions.findIdx? (·.name == m.config.entry) with
  | none =>
      simp only [named] at done
      cases done
  | some i =>
      simp only [named] at done
      cases found : m.functions[i]? with
      | none =>
          simp only [found] at done
          cases done
      | some f =>
          simp only [found] at done
          split at done
          · cases done
          · cases done
            exact ⟨rfl,f,found⟩

theorem entryFunction_rejects {m s : Machine} (failed : entryFunction m = .error e s) : (e = .noEntryFunction ∨ e = .emptyEntryFunction) ∧
    ∃ log, s = { m with errors := m.errors.push ("Runtime Error: " ++ e.message),log } := by
  simp only [entryFunction,bind,EStateM.bind,get_ok] at failed
  cases named : m.functions.findIdx? (·.name == m.config.entry) with
  | none =>
      simp only [named] at failed
      cases failed
      exact ⟨Or.inl rfl,_,rfl⟩
  | some i =>
      simp only [named] at failed
      cases found : m.functions[i]? with
      | none =>
          simp only [found] at failed
          cases failed
          exact ⟨Or.inl rfl,_,rfl⟩
      | some f =>
          simp only [found] at failed
          split at failed
          · cases failed
            exact ⟨Or.inr rfl,_,rfl⟩
          · cases failed

-- The machine that is ready to run an entry function.
def ready (m : Machine) (entry : Nat) : Machine :=
  { m with
    heap := (m.heap.resizeRegisters 0).resizeRegisters m.config.stackSlots
    pc := 0
    base := 0
    function := entry
    frames := m.frames.push { function := entry,base := 0 } }

theorem reset_reads (functions : Array Function) (m : Machine) : reset functions m =
    match entryFunction (m.unload functions) with
    | .error e s => .error e s
    | .ok entry s => match installIntrinsics s with
      | .error e s => .error e s
      | .ok _ s => match ensureWindow 0 ((s.ready entry).windowSize entry) (s.ready entry) with
        | .error e s => .error e s
        | .ok _ s => .ok () ({ s with state := .running }.addLog .debug
            s!"VM reset: executing {s.functionName entry} out of {s.functions.size} functions") := by
  simp only [reset,bind,EStateM.bind,modify_ok]
  cases entryFunction (m.unload functions) with
  | error e s => rfl
  | ok entry s =>
      simp only
      cases installIntrinsics s with
      | error e s => rfl
      | ok _ s =>
          simp only [get_ok]
          cases window : ensureWindow 0 ((s.ready entry).windowSize entry) (s.ready entry) with
          | error e s => simp only [ready] at window; simp only [window]
          | ok _ s => simp only [ready] at window; simp only [window]

theorem reset_parts {functions : Array Function} {m m' : Machine} (done : reset functions m = .ok () m') : ∃ entry f s, Furnished (m.unload functions) s ∧
    s.functions[entry]? = some f ∧ f.registers ≤ s.config.stackSlots ∧ m' = { s.ready entry with state := .running,log := m'.log } := by
  rw [reset_reads] at done
  cases started : entryFunction (m.unload functions) with
  | error e s =>
      simp only [started] at done
      cases done
  | ok entry s =>
      simp only [started] at done
      obtain ⟨rfl,f,found⟩ := entryFunction_done started
      have furnished := installIntrinsics_furnishes (m.unload functions)
      cases installed : installIntrinsics (m.unload functions) with
      | error e s =>
          simp only [installed] at done
          cases done
      | ok _ s =>
          rw [installed] at furnished
          simp only [installed] at done
          have there := furnished.functions entry f found
          have size : (s.ready entry).windowSize entry = f.registers := by
            simp only [windowSize,ready,left] at there ⊢
            rw [there]
          have file : (s.ready entry).heap.registers.size = s.config.stackSlots := by
            simp [ready,Heap.resizeRegisters]
          simp only [size,ensureWindow,file] at done
          by_cases beyond : 0 + f.registers > s.config.stackSlots
          · rw [if_pos beyond] at done
            cases done
          · rw [if_neg beyond] at done
            cases done
            exact ⟨entry,f,s,furnished,there,by omega,rfl⟩

theorem unload_acts (functions : Array Function) (m : Machine) : Heap.Acts written m.heap (m.unload functions).heap := by
  have released : Heap.Acts written m.heap (m.frames.foldl (fun h frame => frame.release h) m.heap) := by
    rw [← Array.foldl_toList]
    refine List.foldlRecOn (motive := fun h => Heap.Acts written m.heap h) m.frames.toList _ .refl fun h acts frame _ => ?_
    exact acts.trans (release_acts frame h)
  exact (released.trans .reroot).trans .reroot

theorem entryFunction_heap (m : Machine) : (left (entryFunction m)).heap = m.heap := by
  cases result : entryFunction m with
  | ok entry s =>
      rw [(entryFunction_done result).1]
      rfl
  | error e s =>
      obtain ⟨_,_,rfl⟩ := entryFunction_rejects result
      rfl

theorem reset_acts (functions : Array Function) (m : Machine) :
    ∃ h, Heap.Acts (fun _ => True) m.heap h ∧ (left (reset functions m)).heap.slots = h.slots := by
  have unloaded := @unload_acts (fun _ => True) functions m
  have entered := entryFunction_heap (m.unload functions)
  rw [reset_reads]
  cases started : entryFunction (m.unload functions) with
  | error e s =>
      rw [started] at entered
      exact ⟨_,unloaded,congrArg Heap.slots entered⟩
  | ok entry s =>
      obtain ⟨rfl,_⟩ := entryFunction_done started
      refine ⟨_,unloaded.trans (installIntrinsics_furnishes (m.unload functions)).acts,?_⟩
      cases installed : installIntrinsics (m.unload functions) with
      | error e s => simp only [installed]
      | ok _ s =>
          simp only [installed,ensureWindow]
          by_cases beyond : 0 + (s.ready entry).windowSize entry > (s.ready entry).heap.registers.size
          · rw [if_pos beyond]
            rfl
          · rw [if_neg beyond]
            rfl

end Machine

namespace Program

def Interns (operation : BuildM α) : Prop := ∀ h, Heap.Acts (fun _ => False) h (match operation h with
  | .ok _ s => s
  | .error _ s => s)

theorem Interns.pure (a : α) : Interns (Pure.pure a) := fun _ => .refl

theorem Interns.throw (e : ProgramError) : Interns (MonadExcept.throw e : BuildM α) := fun _ => .refl

theorem Interns.bind {first : BuildM α} {rest : α → BuildM β} (interns : Interns first) (follows : ∀ a, Interns (rest a)) :
    Interns (first >>= rest) := by
  intro h
  have start := interns h
  cases result : first h with
  | error e s =>
      rw [result] at start
      simp only [Bind.bind,EStateM.bind,result]
      exact start
  | ok a s =>
      rw [result] at start
      simp only [Bind.bind,EStateM.bind,result]
      exact start.trans (follows a s)

theorem internText_interns (text : String) : Interns (internText text) := fun _ => .intern

theorem constant_interns (function : String) (data : Json.Data) : Interns (constant function data) := by
  unfold constant
  split
  · exact .pure _
  · exact .pure _
  · exact .pure _
  · exact .pure _
  · exact internText_interns _
  · exact .throw _

theorem addParameters_interns (function : String) (parameters : List ParameterText) (a : Assembler) :
    Interns (addParameters function parameters a) := by
  induction parameters generalizing a with
  | nil => exact .pure _
  | cons p rest ih => exact (constant_interns _ _).bind fun _ => (internText_interns _).bind fun _ => ih _

theorem constants_interns (function : String) (pool : List Json.Data) (built : Array Value) : Interns (constants function pool built) := by
  induction pool generalizing built with
  | nil => exact .pure _
  | cons data rest ih => exact (constant_interns _ _).bind fun _ => ih _

theorem buildFunction_interns (checked : Bool) (f : FunctionText) : Interns (buildFunction checked f) := by
  refine (addParameters_interns _ _ _).bind fun a => ?_
  simp only
  split
  · exact (constants_interns _ _ _).bind fun _ => .pure _
  · exact .bind (.throw _) fun _ => (constants_interns _ _ _).bind fun _ => .pure _

theorem build_interns (p : Program) (checked : Bool) : Interns (p.build checked) := by
  have each : ∀ (functions : List FunctionText) (built : Array Function), Interns (buildFunctions checked functions built) := by
    intro functions
    induction functions with
    | nil => exact fun _ => .pure _
    | cons f rest ih => exact fun _ => (buildFunction_interns checked f).bind fun _ => ih _
  exact each _ _

end Program

theorem Machine.load_acts (m : Machine) (p : Program) (checked : Bool) :
    ∃ h, Heap.Acts (fun _ => True) m.heap h ∧ (m.load p checked).heap.slots = h.slots := by
  have interned := Program.build_interns p checked m.heap
  unfold Machine.load
  cases result : p.build checked m.heap with
  | ok functions s =>
      simp only [result] at interned ⊢
      obtain ⟨h,acts,slots⟩ := reset_acts functions { m with heap := s }
      exact ⟨h,(interned.mono fun _ => False.elim).trans acts,slots⟩
  | error e s =>
      simp only [result] at interned ⊢
      exact ⟨s,interned.mono fun _ => False.elim,rfl⟩

theorem Machine.load_aliased {m : Machine} (intact : m.heap.Intact) (p : Program) (checked : Bool) (aliased : (m.load p checked).heap.Aliased q) :
    m.heap.Aliased q := by
  obtain ⟨h,acts,slots⟩ := m.load_acts p checked
  exact acts.unaliased intact (Heap.aliased_slots slots aliased)

end RegisterMachine
