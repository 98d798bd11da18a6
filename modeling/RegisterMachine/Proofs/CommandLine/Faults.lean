import RegisterMachine.CommandLine
import RegisterMachine.Proofs.Machine.Faults
import RegisterMachine.Proofs.Machine.Functions

namespace RegisterMachine.CommandLine

-- The functions of a file, and the machine after so many instructions of a run, if it gets there.
def comesTo? (options : RunOptions) (file : SourceFile) (stdin : String) (count : Nat) : Option (Array Function × Machine) :=
  match load file (Machine.new (config options)).heap with
  | (.error _,_) => none
  | (.ok functions,heap) => match Machine.reset functions { Machine.new (config options) with heap,inputs := inputLines stdin } with
    | .error _ _ => none
    | .ok _ start => match Machine.execute count start with
      | .ok none m => some (functions,m)
      | _ => none

-- Within its budget the run of a file comes to a machine where a word is fetched, and there it fails.
structure FaultsAt (options : RunOptions) (file : SourceFile) (stdin : String) (functions : Array Function) (m : Machine) (word : Word)
    (e : Error) : Prop where
  comes : ∃ count < options.maxCycles.getD Machine.unlimited, comesTo? options file stdin count = some (functions,m)
  running : m.state = .running
  fetched : m.nextWord? = some word
  failed : ∃ m', Machine.step m = .error e m'

theorem comesTo?_some (comes : comesTo? options file stdin count = some (functions,m)) : ∃ heap start,
    load file (Machine.new (config options)).heap = (.ok functions,heap) ∧
    Machine.reset functions { Machine.new (config options) with heap,inputs := inputLines stdin } = .ok () start ∧
    Machine.execute count start = .ok none m := by
  unfold comesTo? at comes
  split at comes
  · cases comes
  · rename_i table heap loaded
    split at comes
    · cases comes
    · rename_i start ready
      split at comes
      · rename_i executed
        cases comes
        exact ⟨heap,start,loaded,ready,executed⟩
      · cases comes

theorem find?_append {functions added : Array Function} {f : Function} (member : f ∈ functions) :
    (functions ++ added).find? (·.name == f.name) = functions.find? (·.name == f.name) := by
  have found : (functions.find? (·.name == f.name)).isSome = true := Array.find?_isSome.mpr ⟨f,member,beq_self_eq_true _⟩
  obtain ⟨g,first⟩ := Option.isSome_iff_exists.mp found
  rw [Array.find?_append,first,Option.some_or]

theorem find?_first {functions : Array Function} {f : Function} {i : Nat} (present : functions[i]? = some f)
    (before : ∀ j < i, ∀ g, functions[j]? = some g → g.name ≠ f.name) : functions.find? (·.name == f.name) = some f := by
  obtain ⟨inside,here⟩ := Array.getElem?_eq_some_iff.mp present
  refine Array.find?_eq_some_iff_getElem.mpr ⟨beq_self_eq_true _,i,inside,here,fun j earlier => ?_⟩
  have other := before j earlier _ (Array.getElem?_eq_getElem (by omega))
  simpa using other

theorem FaultsAt.diagnosed (faults : FaultsAt options file stdin functions m word e) :
    ∃ f, functions[m.function]? = some f ∧ f.code[m.pc]? = some word ∧ ∀ color, (run options color file stdin).code = 1 ∧
      ∃ log, (run options color file stdin).stderr =
        log ++ emit options.errorFormat color (.ofFault functions { error := e,function := f.name,pc := m.pc }) := by
  obtain ⟨count,enough,comes⟩ := faults.comes
  obtain ⟨m',failed⟩ := faults.failed
  obtain ⟨heap,start,loaded,ready,executed⟩ := comesTo?_some comes
  obtain ⟨_,_,_,_,_,_,shape⟩ := Machine.reset_parts ready
  have state : start.state = .running := congrArg Machine.state shape
  have started : start.isRunning = true := by simp [Machine.isRunning,state]
  have same : { start with state := .running } = start := by rw [← state]
  -- The table of the machine is that of the file and the intrinsics after it.
  obtain ⟨added,table,bare⟩ := Machine.reset_functions ready
  have functions' := (Machine.execute_functions count executed).trans table
  obtain ⟨f,current,code⟩ := Option.bind_eq_some_iff.mp faults.fetched
  have present : functions[m.function]? = some f := by
    rw [functions',Array.getElem?_append] at current
    split at current
    · exact current
    · rw [bare f (Array.mem_of_getElem? current)] at code
      cases code
  obtain ⟨pc,function,kept,_⟩ := Machine.step_halts faults.fetched failed
  have ran := Machine.run_fails started (same.symm ▸ executed) faults.running failed enough
  have name : m'.functionName m'.function = f.name := by rw [Machine.functionName,kept,function,current]
  have position : m'.pc - 1 = m.pc := by rw [pc,Nat.add_sub_cancel]
  have fault : (m'.raise e).fault = some { error := e,function := f.name,pc := m.pc } := by simp only [Machine.raise,name,position]
  have known : (m'.raise e).functions = functions ++ added := kept.trans functions'
  have shown : Diagnostic.ofFault (functions ++ added) { error := e,function := f.name,pc := m.pc } =
      .ofFault functions { error := e,function := f.name,pc := m.pc } := by
    simp only [Diagnostic.ofFault,find?_append (Array.mem_of_getElem? present)]
  have concluded : conclude options .null (m'.raise e) =
      (1,"",some (.ofFault functions { error := e,function := f.name,pc := m.pc })) := by
    simp only [conclude,show (m'.raise e).state = .faulted from rfl,fault,known,Option.map_some,shown]
  refine ⟨f,present,code,fun color => ?_⟩
  simp only [run,loaded,ready,ran,concluded]
  exact ⟨trivial,_,rfl⟩

-- For every file, options and input: when a run comes to a word, of whatever opcode, that is fetched and fails, the command
-- ends with a diagnostic of that error at that place. Its instruction is the word at the position of the fault in the first
-- function that has the name of the failing one: the word that failed, unless a function before has the same name.
theorem fault_shown (faults : FaultsAt options file stdin functions m word e) :
    ∃ f, functions[m.function]? = some f ∧ f.code[m.pc]? = some word ∧ ∃ d : Diagnostic,
      (∀ color, (run options color file stdin).code = 1 ∧ ∃ log, (run options color file stdin).stderr = log ++ emit options.errorFormat color d) ∧
      d.severity = .error ∧ d.message = e.message ∧ d.code = some e.code ∧ d.location = some { function := f.name,pc := m.pc } ∧
      d.instruction = ((functions.find? (·.name == f.name)).bind (·.code[m.pc]?)).map Instruction.format ∧
      ((∀ i < m.function, ∀ g, functions[i]? = some g → g.name ≠ f.name) → d.instruction = some (Instruction.format word)) := by
  obtain ⟨f,present,code,emitted⟩ := faults.diagnosed
  refine ⟨f,present,code,_,emitted,?_,?_,?_,rfl,rfl,fun first => ?_⟩
  · cases e <;> rfl
  · cases e <;> rfl
  · cases e <;> rfl
  · simp only [Diagnostic.ofFault,find?_first present first,Option.bind_some,code,Option.map_some]

def callsHelper (other : String) : SourceFile where
  path := "program.json"
  text := .ok ("[[[\"@main\",4,[],[],[\x7b\"op\":\"CALLF_iA_iBC\",\"args\":[1,2]\x7d,\"RETURN\"]],[\"" ++ other ++
    "\",4,[],[],[\"RETURN\"]],[\"helper\",4,[],[\"ghost\"],[\x7b\"op\":\"LOADV_rA_rB_kC\",\"args\":[0,1,0]\x7d,\"RETURN\"]]]]")

theorem FaultsAt.of_comes (enough : count < options.maxCycles.getD Machine.unlimited)
    (comes : comesTo? options file stdin count = some (functions,m)) (running : m.state = .running) (fetched : m.nextWord? = some word)
    (error : failure? (Machine.step m) = some e) : FaultsAt options file stdin functions m word e :=
  ⟨⟨count,enough,comes⟩,running,fetched,failure?_some error⟩

-- Where the names differ, the diagnostic shows the instruction of the called function.
theorem fault_shown_called : ∃ functions m, FaultsAt { stackSlots := 16 } (callsHelper "other") "" functions m 0x05000100 (.undefinedIdentifier "ghost") ∧
    ∃ d : Diagnostic, (∃ log, (run { stackSlots := 16 } false (callsHelper "other") "").stderr = log ++ emit .ansi false d) ∧
      d.location = some { function := "helper",pc := 0 } ∧ d.instruction = some "LOADV   r0, r1, k0" := by
  have facts : (comesTo? { stackSlots := 16 } (callsHelper "other") "" 1).any (fun out => out.2.state = .running ∧
      out.2.nextWord? = some 0x05000100 ∧ failure? (Machine.step out.2) = some (.undefinedIdentifier "ghost") ∧
      out.1.toList.map Function.name = ["@main","other","helper"] ∧ out.2.function = 2 ∧ out.2.pc = 0) = true := by decide +kernel
  obtain ⟨⟨functions,m⟩,comes,facts⟩ := (Option.any_eq_true _ _).mp facts
  obtain ⟨running,fetched,error,names,called,start⟩ := of_decide_eq_true facts
  have faults : FaultsAt { stackSlots := 16 } (callsHelper "other") "" functions m 0x05000100 (.undefinedIdentifier "ghost") :=
    .of_comes (by decide) comes running fetched error
  obtain ⟨f,present,_,d,emitted,_,_,_,location,_,shown⟩ := fault_shown faults
  have named : ∀ (i : Nat) g, functions[i]? = some g → ["@main","other","helper"][i]? = some g.name := by
    intro i g found
    rw [← names,List.getElem?_map,Array.getElem?_toList,found,Option.map_some]
  have name : f.name = "helper" := by
    have last := named _ f present
    rw [called] at last
    exact (Option.some.inj last).symm
  rw [name,start] at location
  have others : ∀ i < 2, ["@main","other","helper"][i]? ≠ some "helper" := by decide
  refine ⟨functions,m,faults,d,(emitted false).2,location,(shown fun i before g found same => ?_).trans (by decide +kernel)⟩
  rw [called] at before
  exact others i before ((named i g found).trans (by rw [same,name]))

-- Where the functions share a name, it shows an instruction that was not executed.
theorem fault_misshown : ∃ functions m, FaultsAt { stackSlots := 16 } (callsHelper "helper") "" functions m 0x05000100 (.undefinedIdentifier "ghost") ∧
    Instruction.format 0x05000100 = "LOADV   r0, r1, k0" ∧
    ∃ d : Diagnostic, (∃ log, (run { stackSlots := 16 } false (callsHelper "helper") "").stderr = log ++ emit .ansi false d) ∧
      d.location = some { function := "helper",pc := 0 } ∧ d.instruction = some "RETURN" := by
  have facts : (comesTo? { stackSlots := 16 } (callsHelper "helper") "" 1).any (fun out => out.2.state = .running ∧
      out.2.nextWord? = some 0x05000100 ∧ failure? (Machine.step out.2) = some (.undefinedIdentifier "ghost") ∧
      out.1[out.2.function]?.map Function.name = some "helper" ∧ out.2.pc = 0 ∧
      (Diagnostic.ofFault out.1 { error := .undefinedIdentifier "ghost",function := "helper",pc := 0 }).instruction = some "RETURN") = true := by
    decide +kernel
  obtain ⟨⟨functions,m⟩,comes,facts⟩ := (Option.any_eq_true _ _).mp facts
  obtain ⟨running,fetched,error,called,start,shown⟩ := of_decide_eq_true facts
  have faults : FaultsAt { stackSlots := 16 } (callsHelper "helper") "" functions m 0x05000100 (.undefinedIdentifier "ghost") :=
    .of_comes (by decide) comes running fetched error
  obtain ⟨f,present,_,emitted⟩ := faults.diagnosed
  obtain ⟨g,found,name⟩ := Option.map_eq_some_iff.mp called
  obtain rfl : f = g := Option.some.inj (present.symm.trans found)
  obtain ⟨_,log,written⟩ := emitted false
  rw [name,start] at written
  exact ⟨functions,m,faults,by decide +kernel,_,⟨log,written⟩,rfl,shown⟩

end RegisterMachine.CommandLine
