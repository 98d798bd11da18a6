import RegisterMachine.Proofs.Machine.Hosting
import RegisterMachine.Proofs.Machine.Stepping

namespace RegisterMachine

def Frame.pins (f : Frame) : List Nat := f.pinned.flatMap (·.pin.toList)

-- The same call with perhaps another map of locals, which may have brought a pin.
def Frame.Gains (f f' : Frame) : Prop := ∃ locals, f' = { f with locals } ∧ f.pins.Sublist f'.pins

theorem Frame.Gains.refl (f : Frame) : f.Gains f := ⟨f.locals,rfl,List.Sublist.refl _⟩

theorem Frame.Gains.trans {f f' f'' : Frame} (first : f.Gains f') (second : f'.Gains f'') : f.Gains f'' := by
  obtain ⟨_,same,before⟩ := first
  obtain ⟨locals,later,after⟩ := second
  exact ⟨locals,by rw [later,same],before.trans after⟩

theorem Pinned.set_pin (p : Pinned) (h : Heap) (v : Value) : p.pin.toList.Sublist (p.set h v).1.pin.toList := by
  cases pin : p.pin with
  | none => exact List.nil_sublist _
  | some id =>
      simp only [set,pin]
      exact List.Sublist.refl _

theorem Frame.gains_locals (f : Frame) (h : Heap) (v : Value) : f.Gains { f with locals := (f.locals.set h v).1 } :=
  ⟨_,rfl,(f.locals.set_pin h v).append (List.Sublist.refl _)⟩

namespace Machine

-- The lowest frames are there still.
def Keeps (depth : Nat) (m m' : Machine) : Prop :=
  ∀ i < depth, ∃ f f', m.frames[i]? = some f ∧ m'.frames[i]? = some f' ∧ f.Gains f'

-- Instructions carried out without a return below a depth.
def advance (depth : Nat) : Nat → Machine → Option Machine
  | 0,m => some m
  | steps + 1,m => match step m with
    | .ok .next s => if depth ≤ s.frames.size then advance depth steps s else none
    | _ => none

variable {m m' : Machine} {written : Handle → Prop} {depth : Nat}

theorem Keeps.same (inside : depth ≤ m.frames.size) (same : ∀ i < depth, m'.frames[i]? = m.frames[i]?) : Keeps depth m m' := by
  intro i below
  have there := Array.getElem?_eq_getElem (Nat.lt_of_lt_of_le below inside)
  exact ⟨_,_,there,(same i below).trans there,.refl _⟩

theorem Keeps.trans (first : Keeps depth m m') (second : Keeps depth m' m'') : Keeps depth m m'' := by
  intro i below
  obtain ⟨f,f',before,middle,gains⟩ := first i below
  obtain ⟨g,f'',again,after,more⟩ := second i below
  rw [middle] at again
  cases again
  exact ⟨f,f'',before,after,gains.trans more⟩

theorem setFrameLocals_keeps (m : Machine) (index : Nat) (v : Value) (inside : depth ≤ m.frames.size) :
    Keeps depth m (m.setFrameLocals index v) := by
  unfold setFrameLocals
  split
  · exact .same inside fun _ _ => rfl
  · rename_i frame found
    intro i below
    have there := Array.getElem?_eq_getElem (Nat.lt_of_lt_of_le below inside)
    by_cases here : index = i
    · subst here
      refine ⟨frame,_,found,?_,frame.gains_locals m.heap v⟩
      simp [Nat.lt_of_lt_of_le below inside]
    · exact ⟨_,_,there,(Array.getElem?_setIfInBounds_ne here).trans there,.refl _⟩

theorem Shift.keeps (shift : Shift written m m') (before : depth ≤ m.frames.size) (after : depth ≤ m'.frames.size) : Keeps depth m m' := by
  cases shift with
  | stay => exact .same before fun _ _ => rfl
  | @bind i v h m frame found _ made => exact setFrameLocals_keeps { m with heap := h } i v before
  | call aside =>
      refine .same before fun i below => ?_
      rw [pushFrame,aside.frames,Array.getElem?_push,if_neg (Nat.ne_of_lt (Nat.lt_of_lt_of_le below before))]
  | ret deep top =>
      refine .same before fun i below => ?_
      have inside : i < m.frames.size - 1 := by simpa using Nat.lt_of_lt_of_le below after
      rw [Array.getElem?_pop,if_pos inside]

theorem step_keeps (done : step m = .ok progress m') (before : depth ≤ m.frames.size) (after : depth ≤ m'.frames.size) :
    Keeps depth m m' := by
  have turns := step_turns m
  rw [Turns,done] at turns
  obtain ⟨s,s',first,_,shift,last⟩ := turns
  have shifted : Keeps depth s s' := shift.keeps (first.frames ▸ before) (last.frames ▸ after)
  intro i below
  rw [← first.frames,last.frames]
  exact shifted i below

theorem advance_next (done : advance depth (steps + 1) m = some m') :
    ∃ s, step m = .ok .next s ∧ depth ≤ s.frames.size ∧ advance depth steps s = some m' := by
  unfold advance at done
  split at done
  · rename_i s stepped
    by_cases inside : depth ≤ s.frames.size
    · rw [if_pos inside] at done
      exact ⟨s,stepped,inside,done⟩
    · rw [if_neg inside] at done
      cases done
  · cases done

theorem advance_keeps (inside : depth ≤ m.frames.size) (done : advance depth steps m = some m') : Keeps depth m m' := by
  induction steps generalizing m with
  | zero =>
      cases done
      exact .same inside fun _ _ => rfl
  | succ steps ih =>
      obtain ⟨s,stepped,later,rest⟩ := advance_next done
      exact (step_keeps stepped inside later).trans (ih later rest)

-- The host may take over at any instruction; none of them leaves anything protected.
theorem advance_hosted (hosted : Hosted calls m) (done : advance depth steps m = some m') :
    Hosted calls m' ∧ Heap.Level m.heap m'.heap := by
  induction steps generalizing m with
  | zero =>
      cases done
      exact ⟨hosted,.refl _⟩
  | succ steps ih =>
      obtain ⟨s,stepped,_,rest⟩ := advance_next done
      have next := hosted.step
      have level := (step_does m).level hosted.grounded
      rw [stepped] at next level
      obtain ⟨last,later⟩ := ih next rest
      exact ⟨last,level.trans later⟩

theorem Keeps.frames (keeps : Keeps m.frames.size m m') (size : m'.frames.size = m.frames.size) :
    List.Forall₂ Frame.Gains m.frames.toList m'.frames.toList := by
  apply List.forall₂_iff_get.mpr
  refine ⟨by simp [size],fun i before after => ?_⟩
  obtain ⟨f,f',there,later,gains⟩ := keeps i (by simpa using before)
  obtain ⟨_,rfl⟩ := Array.getElem?_eq_some_iff.mp there
  obtain ⟨_,rfl⟩ := Array.getElem?_eq_some_iff.mp later
  simpa using gains

def gained (frames frames' : List Frame) : Nat := ((frames.zip frames').map fun (f,f') => f'.pins.length - f.pins.length).sum

theorem gained_pins {frames frames' : List Frame} (gains : List.Forall₂ Frame.Gains frames frames') :
    (frames'.flatMap Frame.pins).length = (frames.flatMap Frame.pins).length + gained frames frames' := by
  induction gains with
  | nil => rfl
  | @cons f f' frames frames' first rest ih =>
      obtain ⟨_,_,pins⟩ := first
      have more := pins.length_le
      simp only [gained] at ih
      simp only [gained,List.flatMap_cons,List.length_append,List.zip_cons_cons,List.map_cons,List.sum_cons]
      omega

theorem pinned_pins (m : Machine) : m.pinned.flatMap (·.pin.toList) = [pendingRoot,pendingParentRoot] ++ m.frames.toList.flatMap Frame.pins := by
  simp only [pinned,waiting,List.flatMap_append,List.flatMap_cons,List.flatMap_nil,Option.toList_some,List.flatMap_assoc]
  rfl

theorem Accounted.rootCount (accounted : m.Accounted) : m.heap.rootCount =
    m.heap.shadow.length + (fixedRoots + (m.frames.toList.flatMap Frame.pins).length) + m.heap.callbacks.countP Option.isSome := by
  have count := accounted.account.count
  rw [pinned_pins,List.length_append] at count
  have fixed : Ledger.lasting.length + [pendingRoot,pendingParentRoot].length = fixedRoots := rfl
  rw [Heap.rootCount]
  omega

-- The occupied roots of a machine whose host leaves them alone are its own and the pins of its frames.
-- A pin holds the value it is for, and no value behind a handle goes without one; the pending roots
-- hold what is pending. After a call more roots are occupied by the pins that the frames below it
-- have gained, and by nothing else.
theorem roots_exact (hosted : Hosted (·.roots = false) m) :
    (∀ id, (∃ v, m.heap.roots[id]? = some (some v)) ↔ id < fixedRoots ∨ ∃ frame ∈ m.frames, id ∈ frame.pins) ∧
    (List.range fixedRoots ++ m.frames.toList.flatMap Frame.pins).Nodup ∧
    (∀ frame ∈ m.frames, ∀ p ∈ frame.pinned, (∀ id, p.pin = some id → m.heap.roots[id]? = some (some p.value)) ∧
      (p.value.handle?.isSome = true → p.pin.isSome = true)) ∧
    m.heap.roots[pendingRoot]? = some (some (m.pending.getD (.null,.null)).1) ∧
    m.heap.roots[pendingParentRoot]? = some (some (m.pending.getD (.null,.null)).2) ∧
    ∀ steps m', advance m.frames.size steps m = some m' → m'.frames.size = m.frames.size →
      List.Forall₂ Frame.Gains m.frames.toList m'.frames.toList ∧
        m'.heap.rootCount = m.heap.rootCount + gained m.frames.toList m'.frames.toList := by
  have accounted := hosted.accounted
  have account := accounted.account
  have own : ∀ id, id ∈ Ledger.lasting ∨ id ∈ [pendingRoot,pendingParentRoot] ↔ id < fixedRoots := by
    intro id
    simp only [Ledger.lasting,typeRoot,typeRootCount,pendingRoot,pendingParentRoot,fixedRoots,List.mem_range'_1,List.mem_cons,
      List.not_mem_nil,or_false]
    omega
  refine ⟨fun id => ?_,?_,?_,?_,?_,?_⟩
  · rw [account.occupied,pinned_pins,List.mem_append,← or_assoc,own,List.mem_flatMap]
    simp only [Array.mem_toList_iff]
  · have fixed : (Ledger.lasting ++ [pendingRoot,pendingParentRoot]).Perm (List.range fixedRoots) := by decide
    have once := account.once
    rw [Ledger.ids,pinned_pins,← List.append_assoc,← List.append_assoc] at once
    exact (fixed.append_right _).nodup_iff.mp (List.nodup_append.mp once).1
  · intro frame member p part
    have holds := account.held p (pinned_member member part)
    unfold Pinned.Holds at holds
    split at holds
    · rename_i id pin
      refine ⟨fun other same => ?_,fun _ => by rw [pin]; rfl⟩
      rw [pin] at same
      cases same
      exact holds
    · rename_i none
      refine ⟨fun id same => ?_,fun behind => ?_⟩
      · rw [none] at same
        cases same
      · rw [holds] at behind
        cases behind
  · exact account.held _ (List.mem_append_left _ List.mem_cons_self)
  · exact account.held _ (List.mem_append_left _ (List.mem_cons_of_mem _ List.mem_cons_self))
  · intro steps m' done size
    have frames := (advance_keeps (Nat.le_refl _) done).frames size
    obtain ⟨later,level⟩ := advance_hosted hosted done
    refine ⟨frames,?_⟩
    rw [later.accounted.rootCount,accounted.rootCount,gained_pins frames,level.shadow,level.callbacks]
    omega

-- A function that makes the map of its own locals, and that of the locals of its caller.
def mapmaker : Array Function :=
  #[{ name := "@main",code := #[Instruction.encodeUnchecked .callFunction [1,1],Instruction.encodeUnchecked .ret []],registers := 2 },
    { name := "inner",code := #[Instruction.encodeUnchecked .locals [0],Instruction.encodeUnchecked .globals [1],
      Instruction.encodeUnchecked .ret []],registers := 2 }]

-- Two roots more in the call, one of them still there after it.
theorem roots_exact_mapmaker : ∃ m m' : Machine, Hosted (·.roots = false) m ∧ advance m.frames.size 4 m = some m' ∧
    (advance m.frames.size 3 m).map (·.heap.rootCount) = some (m.heap.rootCount + 2) ∧
    gained m.frames.toList m'.frames.toList = 1 ∧ m'.heap.rootCount = m.heap.rootCount + gained m.frames.toList m'.frames.toList := by
  have hosted : Hosted (·.roots = false) (left (reset mapmaker (Machine.new { stackSlots := 4 }))) := .reset mapmaker (.new _)
  generalize whole : left (reset mapmaker _) = m at hosted
  have facts : (advance m.frames.size 3 m).map (·.heap.rootCount) = some (m.heap.rootCount + 2) ∧
      (advance m.frames.size 4 m).map (fun m' => (m'.frames.size,gained m.frames.toList m'.frames.toList)) = some (m.frames.size,1) := by
    rw [← whole]
    decide +kernel
  obtain ⟨inside,after⟩ := facts
  obtain ⟨m',done,same⟩ := Option.map_eq_some_iff.mp after
  obtain ⟨size,gains⟩ := Prod.mk.inj same
  exact ⟨m,m',hosted,done,inside,gains,((roots_exact hosted).2.2.2.2.2 4 m' done size).2⟩

end Machine

end RegisterMachine
