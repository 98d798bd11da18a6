import RegisterMachine.Proofs.Machine.Resetting
import RegisterMachine.Proofs.Machine.Shifts
import RegisterMachine.Proofs.Machine.Suspension

namespace RegisterMachine.Machine

structure Stacked (m : Machine) : Prop where
  nonempty : 0 < m.frames.size
  bounded : m.frames.size ≤ max 1 m.config.callSlots
  top : ∀ frame, m.topFrame? = some frame → frame.base = m.base ∧ frame.function = m.function
  linked : ∀ i lower upper, m.frames[i]? = some lower → m.frames[i + 1]? = some upper →
    upper.call.returnBase = lower.base ∧ upper.call.returnFunction = lower.function
  seated : ∀ frame ∈ m.frames, ∃ f, m.functions[frame.function]? = some f ∧ frame.base + f.registers ≤ m.config.stackSlots
  file : m.heap.registers.size = m.config.stackSlots

-- Frames with the same windows and the same ways back. Their maps may differ.
def SameWindows (frames frames' : Array Frame) : Prop :=
  frames'.size = frames.size ∧ ∀ (i : Nat) (frame' : Frame), frames'[i]? = some frame' → ∃ frame, frames[i]? = some frame ∧
    frame'.base = frame.base ∧ frame'.function = frame.function ∧ frame'.call = frame.call

variable {m m' : Machine} {written : Handle → Prop}

theorem topFrame_getElem (m : Machine) : m.topFrame? = m.frames[m.frames.size - 1]? := Array.back?_eq_getElem?

theorem Stacked.topFrame (stacked : m.Stacked) : ∃ frame, m.topFrame? = some frame := by
  have inside : m.frames.size - 1 < m.frames.size := Nat.sub_lt stacked.nonempty Nat.one_pos
  exact ⟨_,(topFrame_getElem m).trans (Array.getElem?_eq_getElem inside)⟩

theorem Stacked.function (stacked : m.Stacked) : ∃ f, m.functions[m.function]? = some f := by
  obtain ⟨frame,top⟩ := stacked.topFrame
  obtain ⟨f,found,_⟩ := stacked.seated frame (topFrame_mem top)
  exact ⟨f,(stacked.top frame top).2 ▸ found⟩

theorem Stacked.alike (stacked : m.Stacked) (frames : SameWindows m.frames m'.frames) (base : m'.base = m.base)
    (function : m'.function = m.function) (functions : ∀ (i : Nat) f, m.functions[i]? = some f → m'.functions[i]? = some f)
    (config : m'.config = m.config) (registers : m'.heap.registers.size = m.heap.registers.size) : m'.Stacked := by
  obtain ⟨size,alike⟩ := frames
  refine ⟨by rw [size]; exact stacked.nonempty,by rw [size,config]; exact stacked.bounded,?_,?_,?_,?_⟩
  · intro frame' top
    rw [topFrame_getElem,size] at top
    obtain ⟨frame,there,sameBase,sameFunction,_⟩ := alike _ _ top
    rw [sameBase,sameFunction,base,function]
    exact stacked.top frame ((topFrame_getElem m).trans there)
  · intro i lower' upper' below above
    obtain ⟨lower,under,lowerBase,lowerFunction,_⟩ := alike _ _ below
    obtain ⟨upper,upon,_,_,call⟩ := alike _ _ above
    rw [call,lowerBase,lowerFunction]
    exact stacked.linked i lower upper under upon
  · intro frame' member
    obtain ⟨i,there⟩ := Array.mem_iff_getElem?.mp member
    obtain ⟨frame,old,sameBase,sameFunction,_⟩ := alike _ _ there
    obtain ⟨f,found,window⟩ := stacked.seated frame (Array.mem_iff_getElem?.mpr ⟨i,old⟩)
    exact ⟨f,by rw [sameFunction]; exact functions _ _ found,by rw [sameBase,config]; exact window⟩
  · rw [registers,config]
    exact stacked.file

theorem SameWindows.of_eq {frames frames' : Array Frame} (same : frames' = frames) : SameWindows frames frames' := by
  subst same
  exact ⟨rfl,fun i frame there => ⟨frame,there,rfl,rfl,rfl⟩⟩

theorem Stacked.aside (stacked : m.Stacked) (aside : Aside written m m') : m'.Stacked :=
  stacked.alike (.of_eq aside.frames) aside.base aside.function (by rw [aside.functions]; exact fun _ _ found => found) aside.config
    aside.acts.registers

theorem Stacked.bind {frame : Frame} {h : Heap} (stacked : m.Stacked) (found : m.frames[i]? = some frame)
    (registers : (setFrameLocals { m with heap := h } i v).heap.registers.size = m.heap.registers.size) :
    (setFrameLocals { m with heap := h } i v).Stacked := by
  simp only [setFrameLocals,found] at registers ⊢
  refine stacked.alike ⟨Array.size_setIfInBounds,?_⟩ rfl rfl (fun _ _ found => found) rfl registers
  intro j frame' there
  simp only [Array.getElem?_setIfInBounds] at there
  split at there
  · rename_i same
    subst same
    split at there
    · cases there
      exact ⟨frame,found,rfl,rfl,rfl⟩
    · cases there
  · exact ⟨frame',there,rfl,rfl,rfl⟩

theorem Stacked.push {frame : Frame} {f : Function} {h : Heap} (stacked : m.Stacked) (found : m.functions[frame.function]? = some f)
    (room : m.frames.size < m.config.callSlots) (window : frame.base + f.registers ≤ m.heap.registers.size)
    (back : frame.call.returnBase = m.base ∧ frame.call.returnFunction = m.function)
    (registers : h.registers.size = m.heap.registers.size) :
    { m with frames := m.frames.push frame,heap := h,pc := 0,base := frame.base,function := frame.function }.Stacked := by
  refine ⟨by simp,?_,?_,?_,?_,by rw [registers]; exact stacked.file⟩
  · simp only [Array.size_push]
    omega
  · intro other top
    simp only [topFrame?,Array.back?_push] at top
    cases top
    exact ⟨rfl,rfl⟩
  · intro i lower upper under upon
    have inside : i + 1 < (m.frames.push frame).size := (Array.getElem?_eq_some_iff.mp upon).1
    simp only [Array.size_push] at inside
    simp only [Array.getElem?_push] at under upon
    rw [if_neg (by omega)] at under
    split at upon
    · rename_i last
      cases upon
      have top : m.topFrame? = some lower := by
        rw [topFrame_getElem,← under]
        congr 1
        omega
      rw [back.1,back.2,(stacked.top lower top).1,(stacked.top lower top).2]
      exact ⟨rfl,rfl⟩
    · exact stacked.linked i lower upper under upon
  · intro other member
    rcases Array.mem_push.mp member with old | rfl
    · exact stacked.seated other old
    · exact ⟨f,found,by rw [← stacked.file]; exact window⟩

theorem Stacked.pop {frame : Frame} {h : Heap} (stacked : m.Stacked) (deep : 1 < m.frames.size) (top : m.topFrame? = some frame)
    (registers : h.registers.size = m.heap.registers.size) (pc : Nat) :
    { m with frames := m.frames.pop,heap := h,pc,base := frame.call.returnBase,function := frame.call.returnFunction }.Stacked := by
  rw [topFrame_getElem] at top
  refine ⟨?_,?_,?_,?_,?_,by rw [registers]; exact stacked.file⟩
  · simp only [Array.size_pop]
    omega
  · have bounded := stacked.bounded
    simp only [Array.size_pop]
    omega
  · intro below there
    simp only [topFrame_getElem,Array.size_pop,Array.getElem?_pop] at there
    rw [if_pos (by omega)] at there
    have back := stacked.linked (m.frames.size - 1 - 1) below frame there (by rw [← top]; congr 1; omega)
    exact ⟨back.1.symm,back.2.symm⟩
  · intro i lower upper under upon
    simp only [Array.getElem?_pop] at under upon
    split at under
    · split at upon
      · exact stacked.linked i lower upper under upon
      · cases upon
    · cases under
  · intro other member
    obtain ⟨i,there⟩ := Array.mem_iff_getElem?.mp member
    simp only [Array.getElem?_pop] at there
    split at there
    · exact stacked.seated other (Array.mem_iff_getElem?.mpr ⟨i,there⟩)
    · cases there

theorem Stacked.shift (stacked : m.Stacked) (shift : Shift written m m') : m'.Stacked := by
  have registers := shift.registers
  cases shift with
  | stay => exact stacked
  | bind found _ made => exact stacked.bind found registers
  | call aside found room window =>
      have seated := stacked.aside aside
      rw [← aside.acts.registers] at registers
      unfold pushFrame at registers ⊢
      exact seated.push found room window ⟨rfl,rfl⟩ registers
  | ret deep top gathered plain => exact stacked.pop deep top registers _

theorem Stacked.step (stacked : m.Stacked) (done : step m = .ok progress m') : m'.Stacked := by
  have turns := step_turns m
  rw [Turns,done] at turns
  obtain ⟨s,s',first,_,shift,last⟩ := turns
  exact ((stacked.aside first).shift shift).aside last

-- A machine that was reset and has been running since, with what a host can do in between: feed it
-- and append functions. The table of functions is arbitrary, and so is their code.
inductive Ongoing : Machine → Prop where
  | reset {m₀ m : Machine} {functions : Array Function} : reset functions m₀ = .ok () m → Ongoing m
  | feed {m : Machine} (inputs : List String) : Ongoing m → Ongoing { m with inputs }
  | register {m : Machine} (f : Function) : Ongoing m → Ongoing (m.registerFunction f).2
  | step {m m' : Machine} : Ongoing m → m.isRunning = true → step m = .ok .next m' → Ongoing m'
  | run {m : Machine} (budget : Nat) : Ongoing m → Ongoing (m.run budget).2

theorem reset_stacked {functions : Array Function} (done : reset functions m = .ok () m') : m'.Stacked := by
  obtain ⟨entry,f,s,furnished,found,window,ready⟩ := reset_parts done
  have empty : s.frames = #[] := furnished.frames
  rw [ready]
  simp only [Machine.ready,empty]
  refine ⟨by simp,by simp,?_,?_,?_,by simp [Heap.resizeRegisters]⟩
  · intro frame top
    cases top
    exact ⟨rfl,rfl⟩
  · intro i lower upper _ upon
    simp at upon
  · intro frame member
    simp only [List.push_toArray,List.nil_append,List.mem_toArray,List.mem_singleton] at member
    subst member
    exact ⟨f,found,by simpa using window⟩

theorem registerFunction_stacked (stacked : m.Stacked) (f : Function) : (m.registerFunction f).2.Stacked := by
  refine stacked.alike (.of_eq rfl) rfl rfl (fun i g found => ?_) rfl rfl
  have inside : i < m.functions.size := (Array.getElem?_eq_some_iff.mp found).1
  simp only [registerFunction,Array.getElem?_push]
  rw [if_neg (Nat.ne_of_lt inside)]
  exact found

theorem execute_stacked (budget : Nat) (stacked : m.Stacked) (done : execute budget m = .ok none m') : m'.Stacked := by
  induction budget generalizing m with
  | zero =>
      cases done
      exact stacked
  | succ budget ih =>
      by_cases running : m.state = .running
      · simp only [execute,running,ne_eq,not_true_eq_false,if_false] at done
        cases result : Machine.step m with
        | error e s =>
            rw [result] at done
            cases done
        | ok progress s =>
            rw [result] at done
            cases progress with
            | finished v => cases done
            | next => exact ih (stacked.step result) done
      · rw [execute_stopped _ running] at done
        cases done
        exact stacked

theorem Ongoing.stacked (ongoing : m.Ongoing) (running : m.isRunning = true) : m.Stacked := by
  induction ongoing with
  | reset done => exact reset_stacked done
  | feed inputs _ ih => exact (ih running).alike (.of_eq rfl) rfl rfl (fun _ _ found => found) rfl rfl
  | register f _ ih => exact registerFunction_stacked (ih running) f
  | step _ before done ih => exact (ih before).step done
  | @run m budget _ ih =>
      obtain ⟨m',outcome,_,before,suspended⟩ := run_suspended running
      have started : { m with state := .running }.Stacked :=
        (ih before).alike (.of_eq rfl) rfl rfl (fun _ _ found => found) rfl rfl
      rw [suspended]
      exact (execute_stacked budget started outcome).alike (.of_eq rfl) rfl rfl (fun _ _ found => found) rfl rfl

end RegisterMachine.Machine
