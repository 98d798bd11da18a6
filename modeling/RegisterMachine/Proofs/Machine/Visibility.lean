import RegisterMachine.Proofs.Machine.Capture
import RegisterMachine.Proofs.Map.Visibility

namespace RegisterMachine.Machine

variable {m m' : Machine} {written : Handle → Prop}

theorem acts_filing {h h' : Heap} (acts : Heap.Acts written h h') (intact : h.Intact) (filing : h.Filing fun _ => True) :
    h'.Filing fun _ => True :=
  Heap.Deeds.filing acts intact (fun _ _ _ _ _ _ => trivial) filing

theorem localsMap_filing {frame : Frame} {h : Heap} (intact : m.heap.Intact) (made : m.localsMap frame m.heap = .ok v h)
    (filing : m.heap.Filing fun _ => True) : h.Filing fun _ => True := by
  have course : Heap.Course (fun _ => True) (fun _ => True) (fun _ => True) m.heap (Heap.after (m.localsMap frame) m.heap) := by
    unfold localsMap
    split
    · exact (Heap.newMap_makes 4).performs.course (.all _)
    · exact Heap.newAliasMap_course _ _ (.all _)
  rw [Heap.after,made] at course
  exact course.filing intact (fun _ _ _ _ _ _ => trivial) filing

theorem Shift.filing (shift : Shift written m m') (intact : m.heap.Intact) (filing : m.heap.Filing fun _ => True) :
    m'.heap.Filing fun _ => True := by
  cases shift with
  | stay => exact filing
  | @bind i v h m frame found null made =>
      exact acts_filing (@setFrameLocals_acts (fun _ => False) { m with heap := h } i v) (localsMap_intact intact made)
        (localsMap_filing intact made filing)
  | call aside => exact acts_filing (aside.acts.trans (pushFrame_acts _ _ _ _)) intact filing
  | ret deep top gathered plain =>
      exact acts_filing ((@gathered_acts m (fun _ => False) _ _ gathered plain).trans (release_acts _ _)) intact filing

theorem Secure.filing (secure : m.Secure) (filing : m.heap.Filing fun _ => True) : (left (step m)).heap.Filing fun _ => True := by
  obtain ⟨s,s',_,same,shift,last⟩ := secure.turn
  have intact : s.heap.Intact := same ▸ secure.safe.toIntact
  exact acts_filing last.acts (shift.intact intact) (shift.filing intact (same ▸ filing))

theorem Reachable.filing (reachable : m.Reachable) : m.heap.Filing fun _ => True := by
  induction reachable with
  | new config => exact (Heap.new_filing config.heap).slots rfl
  | feed inputs _ ih => exact ih
  | @load m p checked before ih =>
      obtain ⟨h,acts,slots⟩ := m.load_acts p checked
      exact (acts_filing acts before.secure.safe.toIntact ih).slots slots
  | step before ih => exact before.secure.filing ih
  | run budget before ih => exact run_keeps (fun secure filing => secure.filing filing) (fun filing _ slots => filing.slots slots) budget before.secure ih

theorem Reachable.worded {table : Table} (reachable : m.Reachable) (present : m.heap.object? r = some (.map table))
    (names : ∀ binding ∈ table.bound, binding.1.isString = true)
    (keys : ∀ entry ∈ table.entries, entry.key.isList = false ∧ entry.key.isMap = false) : Heap.Worded m.heap r table where
  object := present
  valid := reachable.secure.safe.table present
  filing := reachable.filing r table present
  names := by
    intro binding member
    refine Heap.Sound.text ?_ (names binding member)
    unfold Table.bound at member
    cases aliased : table.aliases with
    | none =>
        rw [aliased] at member
        cases member
    | some aliases =>
        rw [aliased] at member
        exact reachable.secure.safe.closed r _ _ present (.aliased aliased (Array.mem_toList_iff.mp member))
  keys := by
    intro entry member
    have sound := reachable.secure.safe.closed r _ _ present (.key (Table.mem_entries.mp member))
    obtain ⟨list,map⟩ := keys entry member
    rcases Heap.keyOf_or_container sound with ⟨k,known⟩ | is | is
    · rw [known]
      rfl
    · rw [list] at is
      cases is
    · rw [map] at is
      cases is

-- The map of a frame's locals lists each variable once, and finds what it lists, exactly when it is tidy;
-- and a tidy map gives the same answers before the frame returns and after.
theorem locals_visible (reachable : m.Reachable) : ∀ frame ∈ m.frames, ∀ r, frame.locals.value = .map r →
    ∃ table, m.heap.object? r = some (.map table) ∧
      ((∀ binding ∈ table.bound, binding.1.isString = true) →
        (∀ entry ∈ table.entries, entry.key.isList = false ∧ entry.key.isMap = false) →
        (m.heap.ShowsOnce (.map r) ↔ m.heap.Tidy table) ∧
          (m.heap.Tidy table → ∃ h', Heap.gather (.map r) m.heap = .ok () h' ∧
            ∀ key, h'.lookup? (.map r) key = m.heap.lookup? (.map r) key)) := by
  intro frame member r locals
  have sound := (reachable.secure.pinned_kept member List.mem_cons_self).1
  rw [locals] at sound
  obtain ⟨table,present⟩ := sound.map
  refine ⟨table,present,fun names keys => ?_⟩
  have worded := reachable.worded present names keys
  exact ⟨⟨fun shows => shows.tidy worded,fun tidy => tidy.showsOnce worded⟩,fun tidy => tidy.gathers worded⟩

-- A function that names two registers and makes the map of its locals. The second name is the first
-- one again, or another one.
def naming (second : Nat) : Program where
  functions := [
    { name := "@main",registers := some 3,parameters := [],constants := []
      code := [.named "CALLF_iA_iBC" [1,1],.named "RETURN" []] },
    { name := "namer",registers := some 4,parameters := [],constants := [.string "x",.string "y"]
      code := [.named "LOAD_rA_iBC" [1,1],.named "NAME_rA_kBC" [1,0],.named "LOAD_rA_iBC" [2,2],.named "NAME_rA_kBC" [2,second],
        .named "LOCALS_rA" [0],.named "RETURN" []] }]

theorem locals_visible_apart :
    ∃ m : Machine, m.Reachable ∧ m.isRunning = true ∧ m.heap.ShowsOnce (.map ⟨50,0⟩) ∧
      m.heap.mapEntries (.map ⟨50,0⟩) = [(.shortText "x",.int 1),(.shortText "y",.int 2)] ∧
      ∃ h', Heap.gather (.map ⟨50,0⟩) m.heap = .ok () h' ∧ h'.lookup? (.map ⟨50,0⟩) (.shortText "y") = some (.int 2) := by
  have reachable := Reachable.run 6 (.load (naming 1) true (.new { stackSlots := 8 }))
  generalize whole : ((Machine.load _ (naming 1) true).run 6).2 = m at reachable
  have facts : m.isRunning = true ∧ (m.frames[1]?.map (·.locals.value)) = some (.map ⟨50,0⟩) ∧
      ((m.heap.table? (.map ⟨50,0⟩)).map fun table => (table.bound,table.entries.length)) =
        some ([(.shortText "x",2),(.shortText "y",3)],0) ∧
      m.heap.mapEntries (.map ⟨50,0⟩) = [(.shortText "x",.int 1),(.shortText "y",.int 2)] ∧
      m.heap.lookup? (.map ⟨50,0⟩) (.shortText "y") = some (.int 2) := by
    rw [← whole]
    decide +kernel
  obtain ⟨running,top,shape,listed,read⟩ := facts
  obtain ⟨frame,found,locals⟩ := Option.map_eq_some_iff.mp top
  obtain ⟨table,present,visible⟩ := locals_visible reachable frame (Array.mem_of_getElem? found) _ locals
  simp only [Heap.table?,present,Option.map_some,Option.some.injEq,Prod.mk.injEq,List.length_eq_zero_iff] at shape
  obtain ⟨bound,empty⟩ := shape
  have apart : m.heap.text? (.shortText "x") ≠ m.heap.text? (.shortText "y") := by
    rw [show m.heap.text? (.shortText "x") = some "x" from rfl,show m.heap.text? (.shortText "y") = some "y" from rfl]
    decide
  have tidy : m.heap.Tidy table := by
    refine ⟨?_,?_,?_⟩
    · rw [bound,List.pairwise_pair]
      exact fun _ => apart
    · simp [empty]
    · simp [empty]
  obtain ⟨shows,gathers⟩ := visible (by rw [bound]; decide) (by simp [empty])
  obtain ⟨h',done,same⟩ := gathers tidy
  exact ⟨m,reachable,running,shows.mpr tidy,listed,h',done,(same _).trans read⟩

-- Registers of one name are listed twice, and the frame leaves the later value where the earlier one was read.
theorem locals_listed_twice :
    ∃ m : Machine, m.Reachable ∧ m.isRunning = true ∧ ∃ frame ∈ m.frames, frame.locals.value = .map ⟨50,0⟩ ∧
      ¬ m.heap.ShowsOnce (.map ⟨50,0⟩) ∧ m.heap.mapEntries (.map ⟨50,0⟩) = [(.shortText "x",.int 1),(.shortText "x",.int 2)] ∧
      m.heap.lookup? (.map ⟨50,0⟩) (.shortText "x") = some (.int 1) ∧
      ∃ h', Heap.gather (.map ⟨50,0⟩) m.heap = .ok () h' ∧ h'.lookup? (.map ⟨50,0⟩) (.shortText "x") = some (.int 2) := by
  have reachable := Reachable.run 6 (.load (naming 0) true (.new { stackSlots := 8 }))
  generalize whole : ((Machine.load _ (naming 0) true).run 6).2 = m at reachable
  have facts : m.isRunning = true ∧ (m.frames[1]?.map (·.locals.value)) = some (.map ⟨50,0⟩) ∧
      m.heap.mapEntries (.map ⟨50,0⟩) = [(.shortText "x",.int 1),(.shortText "x",.int 2)] ∧
      m.heap.lookup? (.map ⟨50,0⟩) (.shortText "x") = some (.int 1) ∧
      (match Heap.gather (.map ⟨50,0⟩) m.heap with
        | .ok _ h' => h'.lookup? (.map ⟨50,0⟩) (.shortText "x")
        | .error _ _ => none) = some (.int 2) := by
    rw [← whole]
    decide +kernel
  obtain ⟨running,top,listed,read,left_⟩ := facts
  obtain ⟨frame,found,locals⟩ := Option.map_eq_some_iff.mp top
  refine ⟨m,reachable,running,frame,Array.mem_of_getElem? found,locals,?_,listed,read,?_⟩
  · intro shows
    have answer := shows.answers (.shortText "x",.int 2) (by rw [listed]; decide)
    rw [read] at answer
    cases answer
  · cases done : Heap.gather (.map ⟨50,0⟩) m.heap with
    | error e h' =>
        rw [done] at left_
        cases left_
    | ok a h' =>
        rw [done] at left_
        exact ⟨h',rfl,left_⟩

end RegisterMachine.Machine
