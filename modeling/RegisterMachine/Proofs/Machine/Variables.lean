import RegisterMachine.Proofs.Machine.Secure

namespace RegisterMachine.Machine

variable {m : Machine}

theorem constant_bind {rest : Value → MachineM β} {post : β → Machine → Prop} (secure : m.Secure)
    (follows : ∀ v, m.heap.Permanent v → Meets (rest v) m Secure post) : Meets (constant k >>= rest) m Secure post := by
  cases found : m.functions[m.function]?.bind (·.constants[k]?) with
  | none =>
      have same : (constant k >>= rest) m = .error (.sequencing "constant index out of range") m := by
        simp only [bind,EStateM.bind,constant,found]
      rw [Meets,same]
      exact ⟨Error.noConfusion,secure⟩
  | some v =>
      have same : (constant k >>= rest) m = rest v m := by simp only [bind,EStateM.bind,constant,found]
      rw [Meets,same]
      obtain ⟨f,listed,held⟩ := Option.bind_eq_some_iff.mp found
      exact follows v ((secure.lasting listed).constants v (Array.mem_of_getElem? held))

theorem topFrame_mem {frame : Frame} (top : m.topFrame? = some frame) : frame ∈ m.frames := Array.mem_of_back? top

theorem lookupGlobal_sound (secure : m.Secure) (found : m.lookupGlobal? name = some v) : m.heap.Sound v := by
  obtain ⟨globals,first,looked⟩ := Option.bind_eq_some_iff.mp found
  split at looked
  · cases looked
    exact (secure.register _).1
  · have held := secure.pinned_kept (p := globals.locals) (Array.mem_of_getElem? first) (by simp [Frame.pinned])
    exact secure.safe.closed_sound.lookup? held.1 looked

theorem lookupReceiver_sound (secure : m.Secure) (found : m.lookupReceiver? name = some v) : m.heap.Sound v := by
  have held : ∀ part : Frame → Pinned, (∀ frame : Frame, part frame ∈ frame.pinned) →
      m.heap.Sound (m.topFrame?.elim .null fun frame => (part frame).value) := by
    intro part listed
    cases top : m.topFrame? with
    | none => exact Heap.sound_plain _ rfl
    | some frame => exact (secure.pinned_kept (topFrame_mem top) (listed frame)).1
  unfold lookupReceiver? at found
  split at found
  · cases found
    exact held (·.receiver) fun frame => by simp [Frame.pinned]
  · split at found
    · cases found
      exact held (·.parent) fun frame => by simp [Frame.pinned]
    · cases found

theorem lookupVariable_gives (secure : m.Secure) (name : Value) : Gives (m.lookupVariable name) m.heap.Sound := by
  unfold lookupVariable
  simp only
  split
  · rename_i v looked
    rw [Option.or_eq_some_iff,Option.or_eq_some_iff,Option.or_eq_some_iff] at looked
    rcases looked with (((captured | ⟨_,global⟩) | ⟨_,intrinsic⟩) | ⟨_,receiver⟩)
    · obtain ⟨frame,top,inside⟩ := Option.bind_eq_some_iff.mp captured
      have held := secure.pinned_kept (p := frame.outer) (topFrame_mem top) (by simp [Frame.pinned])
      exact secure.safe.closed_sound.lookup? held.1 inside
    · exact lookupGlobal_sound secure global
    · exact secure.safe.closed_sound.lookup? (secure.safe.closed_sound.persistent _) intrinsic
    · exact lookupReceiver_sound secure receiver
  · exact Error.noConfusion

theorem namedRegister_meets (secure : m.Secure) :
    Meets (namedRegister r k) m Secure fun v m' => m' = m ∧ m.heap.Sound v := by
  refine constant_bind secure fun name _ => ?_
  have looked := lookupVariable_gives secure name
  simp only [Meets]
  by_cases same : m.heap.sameName name (m.heap.registerName (m.base + r)) = true
  · rw [if_pos same]
    exact ⟨secure,rfl,(secure.register _).1⟩
  · rw [if_neg same]
    cases result : m.lookupVariable name with
    | ok v => rw [result] at looked; exact ⟨secure,rfl,looked⟩
    | error e => rw [result] at looked; exact ⟨looked,secure⟩

theorem nameRegister_meets (secure : m.Secure) (permanent : m.heap.Permanent name) :
    Meets (nameRegister r name) m Secure fun _ _ => True := by
  have sound := (permanent.kept secure.safe.toIntact).1
  refine (setRegName_meets secure sound).bind ?_
  rintro _ m' secure' same
  refine Meets.get_bind ?_
  have named : m'.heap.Sound name := by
    rw [same]
    exact (Heap.setRegisterName_edited (m.base + r) secure.safe sound).sound _ sound
  split
  · rename_i frame top
    split
    · have held := secure'.pinned_kept (p := frame.locals) (topFrame_mem top) (by simp [Frame.pinned])
      exact (onHeap_meets secure' (Heap.Meets.continued (Heap.bindRegister_meets _ secure'.safe held.1 named))).done
    · exact .pure secure' trivial
  · exact .pure secure' trivial

theorem pinned_set {frames : Array Frame} {frame : Frame} {index : Nat} (found : frames[index]? = some frame) :
    ∃ rest : List Pinned, (frames.toList.flatMap Frame.pinned).Perm (frame.locals :: rest) ∧
      ∀ locals, ((frames.setIfInBounds index { frame with locals }).toList.flatMap Frame.pinned).Perm (locals :: rest) := by
  obtain ⟨before,after,whole,length⟩ : ∃ before after, frames.toList = before ++ frame :: after ∧ before.length = index := by
    obtain ⟨inside,here⟩ := Array.getElem?_eq_some_iff.mp found
    have next : frames.toList.drop index = frame :: frames.toList.drop (index + 1) := by
      rw [List.drop_eq_getElem_cons (by simpa using inside)]
      simp [here]
    exact ⟨frames.toList.take index,_,by rw [← next,List.take_append_drop],by simp; omega⟩
  have changed : ∀ other, (frames.setIfInBounds index other).toList = before ++ other :: after := by
    intro other
    rw [Array.toList_setIfInBounds,whole,← length]
    simp
  refine ⟨before.flatMap Frame.pinned ++ ([frame.outer,frame.receiver,frame.parent] ++ after.flatMap Frame.pinned),?_,
    fun locals => ?_⟩
  · rw [whole,List.flatMap_append,List.flatMap_cons]
    exact List.perm_middle
  · rw [changed,List.flatMap_append,List.flatMap_cons]
    exact List.perm_middle

theorem locals_books {books : Heap → List Pinned → Prop} (keeping : Bookkeeping books) (index : Nat) (v : Value)
    (kept : books m.heap m.pinned) : books (m.setFrameLocals index v).heap (m.setFrameLocals index v).pinned := by
  unfold Machine.setFrameLocals
  split
  · exact kept
  · rename_i frame found
    obtain ⟨rest,before,after⟩ := pinned_set found
    have set := keeping.set v (keeping.perm kept ((before.append_left _).trans List.perm_middle))
    exact keeping.perm set (((after _).append_left _).trans List.perm_middle).symm

theorem Secure.setFrameLocals (secure : m.Secure) (index : Nat) (sound : m.heap.Sound v) :
    (m.setFrameLocals index v).Secure := by
  have ledger := locals_books Ledger.bookkeeping index v secure.ledger
  unfold Machine.setFrameLocals at ledger ⊢
  split
  · exact secure
  · rename_i frame found
    simp only [found] at ledger
    have apart := frame.locals.set_apart m.heap v
    refine ⟨Pinned.set_safe frame.locals secure.safe sound,ledger,?_⟩
    exact fun f member => (secure.functions f member).later fun r => (Heap.immortal_slots apart.slots r).mpr

theorem setFrameLocals_kept {frame : Frame} {index : Nat} (secure : m.Secure) (found : m.frames[index]? = some frame)
    (sound : m.heap.Sound v) : (m.setFrameLocals index v).heap.Kept v := by
  have later := secure.setFrameLocals index sound
  simp only [setFrameLocals,found] at later ⊢
  have member : { frame with locals := (frame.locals.set m.heap v).1 } ∈
      m.frames.setIfInBounds index { frame with locals := (frame.locals.set m.heap v).1 } := by
    obtain ⟨inside,_⟩ := Array.getElem?_eq_some_iff.mp found
    exact Array.mem_setIfInBounds inside
  have kept := later.pinned_kept (p := (frame.locals.set m.heap v).1) member (by simp [Frame.pinned])
  rwa [Pinned.set_value] at kept

theorem frameLocals_meets (index : Nat) (secure : m.Secure) :
    Meets (frameLocals index) m Secure fun v m' => m'.heap.Kept v := by
  refine Meets.get_bind ?_
  split
  · exact .pure secure (Heap.kept_plain _ rfl)
  · rename_i frame found
    split
    · exact .pure secure (secure.pinned_kept (Array.mem_of_getElem? found) (by simp [Frame.pinned]))
    · have made : Meets (if m.windowSize frame.function = 0 then Heap.newMap 4
          else Heap.newAliasMap frame.base (m.windowSize frame.function)) m.heap (Heap.Continues m.heap) fun v h => h.Sound v := by
        split
        · exact Heap.Meets.continues (Heap.newMap_sound 4 secure.safe)
        · exact Heap.Meets.continues (Heap.newAliasMap_meets _ _ secure.safe)
      refine (onHeap_meets secure made).bind ?_
      rintro map m' secure' ⟨h,rfl,_,sound⟩
      exact Meets.modify_bind (.pure (secure'.setFrameLocals index sound) (setFrameLocals_kept secure' found sound))

theorem currentLocals_meets (secure : m.Secure) : Meets currentLocals m Secure fun v m' => m'.heap.Kept v :=
  Meets.get_bind (frameLocals_meets _ secure)

theorem outerVariables_meets (secure : m.Secure) : Meets outerVariables m Secure fun v m' => m'.heap.Kept v := by
  refine Meets.get_bind ?_
  split
  · rename_i frame top
    split
    · exact .pure secure (secure.pinned_kept (topFrame_mem top) (by simp [Frame.pinned]))
    · exact frameLocals_meets 0 secure
  · exact frameLocals_meets 0 secure

theorem typeMap_kept (secure : m.Secure) (kind : Kind) : m.heap.Kept (m.typeMap kind) := by
  unfold typeMap
  split
  · exact secure.safe.closed_kept.persistent _
  · exact Heap.kept_plain _ rfl

theorem findMethod_meets (key : Value) (secure : m.Secure) (sound : m.heap.Sound container) :
    Meets (findMethod container key) m Secure fun v m' => m'.heap.Sound v := by
  refine Meets.get_bind ?_
  simp only
  split
  · rename_i found parent inherited
    have both : m.heap.Sound found ∧ m.heap.Sound parent := by
      split at inherited
      · exact secure.safe.closed_sound.lookupAlong sound inherited
      · cases inherited
    refine Meets.modify_bind (.pure (secure.setPending _ ?_) ((setPending_apart m _).sound both.1))
    intro a b same
    cases same
    exact ⟨sound,both.2⟩
  · split
    · rename_i found looked
      have held := secure.safe.closed_sound.lookup? (typeMap_kept secure _).1 looked
      refine Meets.modify_bind (.pure (secure.setPending _ ?_) ((setPending_apart m _).sound held))
      intro a b same
      cases same
      exact ⟨sound,Heap.sound_plain _ rfl⟩
    · split
      · exact .throw secure Error.noConfusion
      · exact readHeap_sound secure (secure.safe.closed_sound.listGet sound _)
      · exact readHeap_sound secure ((m.heap.stringCharAt_gives _ _).imp fun _ => Heap.sound_plain _)
      · exact readHeap_sound secure ((m.heap.stringCharAt_gives _ _).imp fun _ => Heap.sound_plain _)
      · exact .throw secure Error.noConfusion

end RegisterMachine.Machine
