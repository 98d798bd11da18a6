import RegisterMachine.Proofs.Machine.Resetting
import RegisterMachine.Proofs.Machine.Shifts
import RegisterMachine.Proofs.Map.Reading

namespace RegisterMachine

namespace Machine

-- The frames whose locals a map is.
def Binds (m : Machine) (r : Handle) (i : Nat) : Prop := ∃ frame, m.frames[i]? = some frame ∧ frame.locals.value = .map r

-- Every alias map is the map of the locals of one frame.
def Tied (m : Machine) : Prop := ∀ r, m.heap.Aliased r → ∃! i, m.Binds r i

variable {m m' : Machine} {written : Handle → Prop}

theorem Tied.same (tied : m.Tied) (frames : m'.frames = m.frames) (aliased : ∀ r, m'.heap.Aliased r → m.heap.Aliased r) : m'.Tied := by
  intro r bound
  simp only [Binds,frames]
  exact tied r (aliased r bound)

theorem Tied.aside (tied : m.Tied) (intact : m.heap.Intact) (aside : Aside written m m') : m'.Tied :=
  tied.same aside.frames fun _ => aside.acts.unaliased intact

theorem setFrameLocals_binds {frame : Frame} (found : m.frames[i]? = some frame) (r q : Handle) (j : Nat) :
    (m.setFrameLocals i (.map r)).Binds q j ↔ if j = i then q = r else m.Binds q j := by
  have inside : i < m.frames.size := (Array.getElem?_eq_some_iff.mp found).1
  simp only [Binds,setFrameLocals,found,Array.getElem?_setIfInBounds]
  by_cases here : j = i
  · subst here
    simp only [if_true,inside]
    constructor
    · rintro ⟨other,same,held⟩
      cases same
      rw [Pinned.set_value] at held
      cases held
      rfl
    · rintro rfl
      exact ⟨_,rfl,Pinned.set_value _ _ _⟩
  · simp only [if_neg here,if_neg (Ne.symm here)]

theorem Tied.bind {frame : Frame} {h : Heap} (tied : m.Tied) (intact : m.heap.Intact)
    (live : ∀ r j, m.Binds r j → m.heap.isLive r = true) (found : m.frames[i]? = some frame)
    (null : frame.locals.value = .null) (made : m.localsMap frame m.heap = .ok v h) : (setFrameLocals { m with heap := h } i v).Tied := by
  obtain ⟨r,table,rfl,done⟩ := localsMap_allocates made
  have adds := Heap.allocate_adds intact done
  have moved := @setFrameLocals_acts (fun _ => False) { m with heap := h } i (.map r)
  have frames : ∀ q j, (setFrameLocals { m with heap := h } i (.map r)).Binds q j ↔ if j = i then q = r else m.Binds q j :=
    @setFrameLocals_binds { m with heap := h } i frame found r
  intro q bound
  rcases adds.aliased q (moved.unaliased (localsMap_intact intact made) bound) with rfl | before
  · refine ⟨i,(frames q i).mpr (by rw [if_pos rfl]),fun j binds => ?_⟩
    by_contra other
    have older := (frames q j).mp binds
    rw [if_neg other] at older
    have alive := live q j older
    rw [Heap.isLive,adds.fresh] at alive
    cases alive
  · obtain ⟨j,binds,only⟩ := tied q before
    have other : j ≠ i := by
      rintro rfl
      obtain ⟨old,there,held⟩ := binds
      cases there.symm.trans found
      rw [null] at held
      cases held
    refine ⟨j,(frames q j).mpr (by rw [if_neg other]; exact binds),fun k holds => ?_⟩
    have either := (frames q k).mp holds
    split at either
    · subst either
      obtain ⟨table',present,_⟩ := before
      rw [adds.fresh] at present
      cases present
    · exact only k either

theorem Tied.pushFrame {frame : Frame} (tied : m.Tied) (intact : m.heap.Intact) (null : frame.locals.value = .null) (outer : Value)
    (pending : Option (Value × Value)) : (m.pushFrame frame outer pending).Tied := by
  have acts := @pushFrame_acts (fun _ => False) m frame outer pending
  intro r bound
  obtain ⟨i,⟨old,there,held⟩,only⟩ := tied r (acts.unaliased intact bound)
  have inside : i < m.frames.size := (Array.getElem?_eq_some_iff.mp there).1
  simp only [Machine.pushFrame,Binds,Array.getElem?_push]
  refine ⟨i,⟨old,by rw [if_neg (Nat.ne_of_lt inside)]; exact there,held⟩,?_⟩
  rintro j ⟨other,here,holds⟩
  split at here
  · cases here
    rw [null] at holds
    cases holds
  · exact only j ⟨other,here,holds⟩

theorem Tied.pop {frame : Frame} {h : Heap} (tied : m.Tied) (top : m.topFrame? = some frame)
    (aliased : ∀ r, h.Aliased r → m.heap.Aliased r ∧ frame.locals.value ≠ .map r) {pc base function : Nat} :
    { m with frames := m.frames.pop,heap := h,pc,base,function }.Tied := by
  intro r bound
  obtain ⟨before,other⟩ := aliased r bound
  obtain ⟨i,⟨old,there,held⟩,only⟩ := tied r before
  have inside : i < m.frames.size := (Array.getElem?_eq_some_iff.mp there).1
  have lower : i < m.frames.size - 1 := by
    by_contra last
    have same : i = m.frames.size - 1 := by omega
    rw [same,← Array.back?_eq_getElem?] at there
    cases there.symm.trans top
    exact other held
  refine ⟨i,⟨old,?_,held⟩,?_⟩
  · simp only [Array.getElem?_pop]
    rw [if_pos lower]
    exact there
  · rintro j ⟨above,here,holds⟩
    simp only [Array.getElem?_pop] at here
    split at here
    · exact only j ⟨above,here,holds⟩
    · cases here

theorem Tied.shift (tied : m.Tied) (intact : m.heap.Intact) (live : ∀ r j, m.Binds r j → m.heap.isLive r = true)
    (shift : Shift written m m') : m'.Tied := by
  cases shift with
  | stay => exact tied
  | bind found null made => exact tied.bind intact live found null made
  | call aside => exact (tied.aside intact aside).pushFrame (aside.acts.intact intact) rfl _ _
  | @ret h m frame deep top gathered plain =>
      have acts := @gathered_acts m (fun _ => False) frame h gathered plain
      refine tied.pop top fun r bound => ?_
      have before := (@release_acts (fun _ => False) frame h).unaliased (acts.intact intact) bound
      refine ⟨acts.unaliased intact before,fun held => ?_⟩
      rw [held] at gathered
      exact Heap.gather_unaliased intact (gathered rfl) before

theorem Tied.turn (tied : m.Tied) (secure : m.Secure) (turn : Turn written m m') : m'.Tied := by
  obtain ⟨s,s',first,same,shift,last⟩ := turn
  have intact : s.heap.Intact := same ▸ secure.safe.toIntact
  have live : ∀ r j, s.Binds r j → s.heap.isLive r = true := by
    rintro r j ⟨frame,found,held⟩
    rw [first.frames] at found
    have kept := secure.pinned_kept (Array.mem_of_getElem? found) (by simp [Frame.pinned] : frame.locals ∈ frame.pinned)
    rw [same]
    exact kept.1.live (by rw [held]; rfl)
  exact ((tied.aside secure.safe.toIntact first).shift intact live shift).aside (shift.intact intact) last

theorem Secure.turn (secure : m.Secure) : Turn m.Writes m (left (step m)) := by
  have turns := step_turns m
  have meets := step_meets secure
  unfold Turns at turns
  unfold Meets at meets
  cases result : step m with
  | ok progress m' =>
      simp only [result] at turns ⊢
      exact turns
  | error e m' =>
      simp only [result] at turns meets ⊢
      exact turns meets.1

theorem Tied.step (tied : m.Tied) (secure : m.Secure) : (left (step m)).Tied := tied.turn secure secure.turn

-- A machine that loaded a program when it was new and has executed instructions since.
inductive Executed : Machine → Prop where
  | load (config : MachineConfig) (p : Program) (checked : Bool) : Executed ((Machine.new config).load p checked)
  | feed {m : Machine} (inputs : List String) : Executed m → Executed { m with inputs }
  | step {m : Machine} : Executed m → Executed (left (step m))
  | run {m : Machine} (budget : Nat) : Executed m → Executed (m.run budget).2

theorem Executed.secure (executed : m.Executed) : m.Secure := by
  induction executed with
  | load config p checked => exact (new_secure config).load p checked
  | feed inputs _ ih => exact ih.same rfl rfl rfl rfl
  | step _ ih => exact Meets.left (step_meets ih)
  | run budget _ ih => exact ih.run budget

theorem execute_keeps {property : Machine → Prop} (each : ∀ {m : Machine}, m.Secure → property m → property (left (step m))) (budget : Nat)
    (secure : m.Secure) (start : property m) : property (left (execute budget m)) := by
  induction budget generalizing m with
  | zero => exact start
  | succ budget ih =>
      have stepped := each secure start
      have kept := Meets.left (step_meets secure)
      simp only [execute]
      split
      · exact start
      · cases result : Machine.step m with
        | error e m' =>
            rw [result] at stepped
            exact stepped
        | ok progress m' =>
            rw [result] at stepped kept
            cases progress with
            | finished v => exact stepped
            | next => exact ih kept stepped

theorem run_keeps {property : Machine → Prop} (each : ∀ {m : Machine}, m.Secure → property m → property (left (step m)))
    (same : ∀ {m m' : Machine}, property m → m'.frames = m.frames → m'.heap.slots = m.heap.slots → property m') (budget : Nat)
    (secure : m.Secure) (start : property m) : property (m.run budget).2 := by
  have ran := execute_keeps each budget (m := { m with state := .running }) (secure.same rfl rfl rfl rfl) (same start rfl rfl)
  unfold Machine.run
  split
  · exact start
  · cases result : execute budget { m with state := .running } with
    | error e m' =>
        rw [result] at ran
        exact same ran rfl rfl
    | ok value m' =>
        rw [result] at ran
        cases value with
        | none =>
            simp only
            split
            · exact same ran rfl rfl
            · exact ran
        | some v => exact same ran rfl rfl

theorem Tied.run (tied : m.Tied) (secure : m.Secure) (budget : Nat) : (m.run budget).2.Tied :=
  run_keeps (fun secure tied => tied.step secure) (fun tied frames slots => tied.same frames fun _ => Heap.aliased_slots slots) budget secure tied

theorem Executed.tied (executed : m.Executed) : m.Tied := by
  induction executed with
  | load config p checked =>
      intro r bound
      obtain ⟨table,present,_⟩ := load_aliased (new_secure config).safe.toIntact p checked bound
      simp [Machine.new,Heap.new,Heap.resizeRegisters,Heap.object?] at present
  | feed inputs _ ih => exact ih.same rfl fun _ bound => bound
  | step before ih => exact ih.step before.secure
  | run budget before ih => exact ih.run before.secure budget

-- The map of a frame that returns loses its aliases.
theorem Turn.returned {frame : Frame} (turn : Turn written m m') (intact : m.heap.Intact) (shorter : m'.frames.size < m.frames.size)
    (top : m.topFrame? = some frame) (held : frame.locals.value = .map r) : ¬ m'.heap.Aliased r := by
  obtain ⟨s,s',first,same,shift,last⟩ := turn
  have still : s.heap.Intact := same ▸ intact
  have later := shift.intact still
  rw [last.frames,← first.frames] at shorter
  intro aliased
  have bound := last.acts.unaliased later aliased
  cases shift with
  | stay => exact absurd shorter (Nat.lt_irrefl _)
  | bind found =>
      simp only [setFrameLocals,found,Array.size_setIfInBounds] at shorter
      exact absurd shorter (Nat.lt_irrefl _)
  | call aside =>
      simp only [pushFrame,Array.size_push,aside.frames] at shorter
      omega
  | @ret h s other deep popped gathered plain =>
      have acts := @gathered_acts s (fun _ => False) other h gathered plain
      have before := (@release_acts (fun _ => False) other h).unaliased (acts.intact still) bound
      rw [topFrame?,first.frames] at popped
      cases popped.symm.trans top
      rw [held] at gathered
      exact Heap.gather_unaliased still (gathered rfl) before

-- Instructions that do not operate on a map.
inductive Spares (r : Handle) : Machine → Machine → Prop where
  | refl {m : Machine} : Spares r m m
  | feed {m m' : Machine} (inputs : List String) : Spares r m m' → Spares r m { m' with inputs }
  | step {m m' : Machine} : Spares r m m' → ¬ m'.Writes r → Spares r m (left (step m'))

theorem Spares.executed (spares : Spares r m m') (executed : m.Executed) : m'.Executed := by
  induction spares with
  | refl => exact executed
  | feed inputs _ ih => exact .feed inputs ih
  | step _ _ ih => exact .step ih

theorem Spares.evolves (spares : Spares r m m') (executed : m.Executed) : Heap.Evolves (· ≠ r) m.heap m'.heap := by
  induction spares with
  | refl => exact .refl _
  | feed inputs _ ih => exact ih
  | step before spared ih =>
      have secure := (before.executed executed).secure
      refine ih.trans ((secure.turn.evolves secure.safe.toIntact).mono ?_)
      rintro q writes rfl
      exact spared writes

-- What a map reads in a heap, and in another: the same entries, and the same values for the same
-- keys, whatever the registers hold.
def SameReads (h h' : Heap) (r : Handle) : Prop :=
  ∀ registers, { h' with registers }.mapEntries (.map r) = h.mapEntries (.map r) ∧
    ∀ key key' k, h.keyOf key = some k → { h' with registers }.keyOf key' = some k →
      { h' with registers }.lookup? (.map r) key' = h.lookup? (.map r) key

theorem Secure.sameReads {h : Heap} (secure : m.Secure) (present : m.heap.object? r = some (.map table)) (plain : table.aliases = none)
    (preserved : Heap.Preserved m.heap h r table) : SameReads m.heap h r := by
  intro registers
  have kept : Heap.Preserved m.heap { h with registers } r table := ⟨preserved.object,preserved.texts⟩
  refine ⟨kept.entries present plain,fun key key' k before after => ?_⟩
  refine kept.lookup present plain (fun entry member => ?_) before after
  exact secure.safe.closed r _ _ present (.key (Table.mem_entries.mp member))

theorem Secure.uncaptured {f : FuncRef} (secure : m.Secure) (gone : m.heap.isLive r = false) (holds : m.Holds v)
    (closure : m.heap.funcRef? v = some f) : f.outer ≠ .map r := by
  intro outer
  unfold Heap.funcRef? at closure
  split at closure
  · rename_i q
    split at closure
    · rename_i held
      cases closure
      have live := (secure.holds_sound (.inside holds rfl held .outer)).live (by rw [outer]; rfl)
      rw [gone] at live
      cases live
    · cases closure
  · cases closure

-- Every alias map is tied to one frame; the map of a frame that returns loses its aliases; and a map
-- without aliases is read alike after any instructions that do not operate on it. It may be freed
-- meanwhile, but then the machine holds no closure that captured it, as long as the generations of
-- slots have not come round.
theorem captured_reads (executed : m.Executed) :
    (∀ r, m.heap.Aliased r → ∃! i : Nat, ∃ frame, m.frames[i]? = some frame ∧ frame.locals.value = .map r) ∧
      (∀ frame r m', m.topFrame? = some frame → frame.locals.value = .map r → step m = .ok .next m' →
        m'.frames.size < m.frames.size → ¬ m'.heap.Aliased r) ∧
      ∀ r table, m.heap.object? r = some (.map table) → ¬ m.heap.Aliased r → ∀ m', Spares r m m' →
        (Heap.Freed m.heap m'.heap r ∧ (m'.heap.history.size < m.heap.history.size + 2 ^ 32 →
          ∀ v f, m'.Holds v → m'.heap.funcRef? v = some f → f.outer ≠ .map r)) ∨ SameReads m.heap m'.heap r := by
  have secure := executed.secure
  refine ⟨executed.tied,?_,?_⟩
  · intro frame r m' top held done shorter
    have turn := secure.turn
    rw [done] at turn
    exact turn.returned secure.safe.toIntact shorter top held
  · intro r table present unaliased m' spares
    have plain : table.aliases = none := by
      by_contra bound
      exact unaliased ⟨table,present,Option.isSome_iff_ne_none.mpr bound⟩
    rcases (spares.evolves executed).tables r table present plain (fun other => other rfl) with freed | preserved
    · have later := (spares.executed executed).secure
      exact Or.inl ⟨freed,fun few v f holds closure => later.uncaptured (freed.dead few) holds closure⟩
    · exact Or.inr (secure.sameReads present plain preserved)

-- A closure over a variable whose register is overwritten when its frame has returned.
def closing : Program where
  functions := [
    { name := "@main",registers := some 3,parameters := [],constants := []
      code := [.named "CALLF_iA_iBC" [1,1],.named "LOADNULL_rA" [2],.named "RETURN" []] },
    { name := "maker",registers := some 2,parameters := [],constants := [.string "x"]
      code := [.named "LOAD_rA_iBC" [1,7],.named "NAME_rA_kBC" [1,0],.named "FUNCREF_iA_iBC" [0,2],.named "RETURN" []] },
    { name := "inner",registers := some 1,parameters := [],constants := [.string "x"]
      code := [.named "LOADV_rA_rB_kC" [0,0,0],.named "RETURN" []] }]

theorem captured_reads_closing :
    ∃ m : Machine, m.Executed ∧ m.heap.funcRef? (m.heap.registerValue 1) = some ⟨2,.map ⟨50,0⟩⟩ ∧
      m.heap.registerValue 2 = .int 7 ∧ (left (step m)).heap.registerValue 2 = .null ∧
      (left (step m)).heap.lookup? (.map ⟨50,0⟩) (.shortText "x") = some (.int 7) := by
  have executed := Executed.run 5 (.load { stackSlots := 4 } closing true)
  generalize whole : ((Machine.load _ closing true).run 5).2 = m at executed
  have facts : m.heap.funcRef? (m.heap.registerValue 1) = some ⟨2,.map ⟨50,0⟩⟩ ∧ m.heap.registerValue 2 = .int 7 ∧
      (left (step m)).heap.registerValue 2 = .null ∧ (left (step m)).heap.history.size = m.heap.history.size ∧
      ((m.heap.table? (.map ⟨50,0⟩)).map Table.aliases) = some none ∧
      m.heap.lookup? (.map ⟨50,0⟩) (.shortText "x") = some (.int 7) ∧
      (match fetch m with
        | .ok word _ => word.opcode?
        | .error _ _ => none) = some .loadNull := by
    rw [← whole]
    decide +kernel
  obtain ⟨closure,before,after,collections,plain,read,next⟩ := facts
  obtain ⟨table,found,none⟩ := Option.map_eq_some_iff.mp plain
  obtain ⟨r,same,present⟩ := Heap.table?_object.mp found
  cases same
  have unaliased : ¬ m.heap.Aliased ⟨50,0⟩ := by
    rintro ⟨other,there,bound⟩
    cases there.symm.trans present
    rw [none] at bound
    cases bound
  have spared : ¬ m.Writes ⟨50,0⟩ := by
    rintro ⟨word,s,op,fetched,known,operates⟩
    rw [fetched] at next
    cases known.symm.trans next
    cases operates with
    | intrinsic calls => cases calls
  refine ⟨m,executed,closure,before,after,?_⟩
  rcases (captured_reads executed).2.2 ⟨50,0⟩ table present unaliased _ (.step .refl spared) with ⟨⟨n,_,positive,counted,_⟩,_⟩ | reads
  · omega
  · exact ((reads (left (step m)).heap.registers).2 (.shortText "x") (.shortText "x") (.text "x") rfl rfl).trans read

end Machine

end RegisterMachine
