import RegisterMachine.Machine.Run
import RegisterMachine.Proofs.Machine.Instructions
import RegisterMachine.Proofs.Program.Lasting

namespace RegisterMachine

namespace Machine

variable {m : Machine}

theorem new_safe (config : MachineConfig) : (Machine.new config).heap.Safe := by
  have apart : Heap.Apart (Heap.new config.heap) (Machine.new config).heap := by constructor <;> rfl
  have rooted : ∀ v, (Machine.new config).heap.IsRoot v → v = .null := by
    intro v root
    cases root with
    | shadow member => cases member
    | persistent member => exact Option.some.inj (Array.eq_of_mem_replicate member)
    | register member => simp_all [Machine.new,Heap.new,Heap.resizeRegisters]
    | name member => simp_all [Machine.new,Heap.new,Heap.resizeRegisters]
    | callback member marked => simp [Machine.new,Heap.new,Heap.resizeRegisters] at member
  refine ⟨(Heap.Step.apart apart).intact (Heap.new_intact config.heap),?_,?_,Nat.le_refl _⟩
  · intro v root
    rw [rooted v root]
    exact Heap.sound_plain _ rfl
  · intro r object v present
    simp [Machine.new,Heap.new,Heap.resizeRegisters,Heap.object?] at present

theorem new_secure (config : MachineConfig) : (Machine.new config).Secure where
  safe := new_safe config
  ledger := by
    have ids : Ledger.ids (Machine.new config).heap (Machine.new config).pinned = [2,3,4,5,6,7,8,0,1] := rfl
    have size : (Machine.new config).heap.roots.size = 9 := rfl
    refine ⟨by rw [ids]; decide,?_,?_⟩
    · rw [ids,size]
      decide
    · intro p member
      have waits : p ∈ (Machine.new config).waiting := member
      simp only [waiting,List.mem_cons,List.not_mem_nil,or_false] at waits
      rcases waits with rfl | rfl <;> rfl
  functions := by simp [Machine.new]

theorem Secure.setLasting {id : Nat} (secure : m.Secure) (sound : m.heap.Sound v) (lasts : id ∈ Ledger.lasting) :
    { m with heap := m.heap.setRoot id v }.Secure where
  safe := Heap.setRoot_safe id secure.safe sound
  ledger := secure.ledger.setLasting v lasts
  functions := fun f member => (secure.functions f member).later fun _ immortal => immortal

theorem Secure.resizeRegisters (secure : m.Secure) (size : Nat) :
    { m with heap := m.heap.resizeRegisters size }.Secure := by
  have old : ∀ register ∈ (m.heap.resizeRegisters size).registers, register ∈ m.heap.registers ∨ register = {} := by
    intro register member
    rcases Array.mem_append.mp member with before | new
    · obtain ⟨i,_,rfl⟩ := Array.mem_extract_iff_getElem.mp before
      exact Or.inl (Array.getElem_mem _)
    · exact Or.inr (Array.eq_of_mem_replicate new)
  refine ⟨secure.safe.reroot (by constructor <;> rfl) ?_ secure.safe.opened,secure.ledger.steady rfl rfl,
    fun f member => (secure.functions f member).later fun _ immortal => immortal⟩
  intro v root
  cases root with
  | shadow member => exact secure.safe.rooted v (.shadow member)
  | persistent member => exact secure.safe.rooted v (.persistent member)
  | register member =>
      rcases old _ member with before | rfl
      · exact secure.safe.rooted _ (.register before)
      · exact Heap.sound_plain _ rfl
  | name member =>
      rcases old _ member with before | rfl
      · exact secure.safe.rooted _ (.name before)
      · exact Heap.sound_plain _ rfl
  | callback member marked => exact secure.safe.rooted v (.callback member marked)

theorem Secure.pushBlank (secure : m.Secure) (function base : Nat) :
    { m with frames := m.frames.push { function,base } }.Secure :=
  ⟨secure.safe,secure.ledger.blank.blank.blank.blank.perm (pinned_push m { function,base }).symm,secure.functions⟩

theorem releaseAll_books {books : Heap → List Pinned → Prop} (keeping : Bookkeeping books) {h : Heap} (frames : List Frame)
    (rest : List Pinned) (kept : books h (frames.flatMap Frame.pinned ++ rest)) :
    books (frames.foldl (fun h frame => frame.release h) h) rest := by
  induction frames generalizing h with
  | nil => exact kept
  | cons frame others ih =>
      rw [List.flatMap_cons,List.append_assoc] at kept
      exact ih (release_books keeping frame kept)

theorem releaseAll_parts {h : Heap} (frames : List Frame) (safe : h.Safe) :
    (frames.foldl (fun h frame => frame.release h) h).Safe ∧ Heap.Apart h (frames.foldl (fun h frame => frame.release h) h) := by
  induction frames generalizing h with
  | nil => exact ⟨safe,by constructor <;> rfl⟩
  | cons frame others ih =>
      obtain ⟨safe',apart⟩ := ih (release_safe frame safe)
      exact ⟨safe',(release_apart frame h).trans apart⟩

theorem Secure.unload {functions : Array Function} (secure : m.Secure) (lasting : ∀ f ∈ functions, f.Lasting m.heap) :
    (m.unload functions).Secure := by
  obtain ⟨safe,apart⟩ := releaseAll_parts m.frames.toList secure.safe
  have ledger := releaseAll_books Ledger.bookkeeping m.frames.toList m.waiting (secure.ledger.perm List.perm_append_comm)
  rw [Array.foldl_toList] at safe ledger apart
  have dropped : ({ m with
      heap := m.frames.foldl (fun h (frame : Frame) => frame.release h) m.heap
      frames := #[]
      functions
      intrinsicBase := functions.size
      state := .idle
      fault := none }).Secure := by
    refine ⟨safe,ledger,fun f member => ?_⟩
    exact (lasting f member).later fun r => (Heap.immortal_slots apart.slots r).mpr
  have result : resultRoot ∈ Ledger.lasting := by decide
  exact (dropped.setPending none (by simp)).setLasting (Heap.sound_plain _ rfl) result

theorem intrinsic_defaults (intrinsic : Intrinsic) : ∀ p ∈ intrinsic.parameters, p.2.handle? = none := by
  cases intrinsic <;> decide

theorem ofNative_grown {h : Heap} (name : String) (parameters : List (String × Value)) (native : Native) (safe : h.Safe)
    (plain : ∀ p ∈ parameters, p.2.handle? = none) :
    Heap.Grown h (Function.ofNative name parameters native h).2 ∧
      (Function.ofNative name parameters native h).1.Lasting (Function.ofNative name parameters native h).2 := by
  have built : ∀ state : Array Parameter × Heap, (Heap.Grown h state.2 ∧
      ∀ p ∈ state.1, state.2.Permanent p.name ∧ state.2.Permanent p.default) → ∀ p ∈ parameters,
      Heap.Grown h (state.2.intern p.1).2 ∧ ∀ q ∈ state.1.push { name := (state.2.intern p.1).1,default := p.2 },
        (state.2.intern p.1).2.Permanent q.name ∧ (state.2.intern p.1).2.Permanent q.default := by
    rintro state ⟨grown,permanent⟩ p member
    obtain ⟨later,named⟩ := Heap.interning_meets p.1 grown.safe
    refine ⟨grown.trans later,fun q listed => ?_⟩
    rcases Array.mem_push.mp listed with before | rfl
    · exact (permanent q before).imp (·.later later.extension.immortal) (·.later later.extension.immortal)
    · exact ⟨named,Or.inl (plain p member)⟩
  have whole := List.foldlRecOn (motive := fun state : Array Parameter × Heap => Heap.Grown h state.2 ∧
      ∀ p ∈ state.1, state.2.Permanent p.name ∧ state.2.Permanent p.default) parameters
    (fun (state : Array Parameter × Heap) p =>
      (state.1.push { name := (state.2.intern p.1).1,default := p.2 },(state.2.intern p.1).2))
    (b := (#[],h)) ⟨.refl safe,by simp⟩ built
  exact ⟨whole.1,by simp [Function.ofNative],whole.2⟩

theorem newTypeMaps_meets {h : Heap} (count : Nat) {maps : Array Value} (safe : h.Safe) (held : ∀ map ∈ maps, map ∈ h.shadow) :
    Meets (newTypeMaps count maps) h (Heap.Opened h) fun result s =>
      result.size = maps.size + count ∧ ∀ map ∈ result, map ∈ s.shadow := by
  induction count generalizing h maps with
  | zero => exact .pure (.refl safe) ⟨rfl,held⟩
  | succ count ih =>
      refine Heap.protectedMap_bind 16 safe (fun _ opened => opened) ?_
      intro r s opened present _
      have inside : ∀ map ∈ maps.push (.map r), map ∈ s.shadow := by
        intro map member
        rcases Array.mem_push.mp member with before | rfl
        · exact opened.extension.shadow (held map before)
        · exact present
      refine (ih opened.safe inside).mono (fun _ later => opened.trans later) fun result t _ holds => ?_
      obtain ⟨size,still⟩ := holds
      exact ⟨by rw [size,Array.size_push]; omega,still⟩

theorem fileMethod_meets {h : Heap} (kinds : List Kind) {maps : Array Value} (safe : h.Safe) (sound : ∀ map ∈ maps, h.Sound map)
    (named : h.Sound name) (filed : h.Sound f) :
    Meets (fileMethod maps name f kinds) h (Heap.Edited h) fun _ _ => True := by
  induction kinds generalizing h with
  | nil => exact .pure (.refl safe) trivial
  | cons kind rest ih =>
      unfold fileMethod
      simp only
      split
      · rename_i map found
        obtain ⟨i,_,place⟩ := Option.bind_eq_some_iff.mp found
        refine (Heap.mapSet_meets safe (sound map (Array.mem_of_getElem? place)) named filed).bind fun _ s edited _ => ?_
        exact (ih edited.safe (fun map member => edited.sound map (sound map member)) (edited.sound _ named)
          (edited.sound _ filed)).mono (fun _ later => edited.trans later) fun _ _ _ _ => trivial
      · exact ih safe sound named filed

-- The new function reference is not protected: nothing is allocated before the maps hold it.
theorem publish_meets {h : Heap} (text : String) (index : Nat) (kinds : List Kind) {maps : Array Value} (safe : h.Safe)
    (tabled : table ∈ h.shadow) (held : ∀ map ∈ maps, map ∈ h.shadow) :
    Meets (do
      let name ← Heap.interning text
      let f ← Heap.newFuncRef index .null
      Heap.mapSet table name f
      fileMethod maps name f kinds) h (Heap.Continues h) fun _ _ => True := by
  refine ((Heap.interning_meets text safe).since fun _ grown => grown.continues).bind ?_
  rintro name s _ ⟨grown,permanent⟩
  refine ((Heap.newFuncRef_meets index grown.safe (Heap.kept_plain _ rfl)).since fun _ later =>
    (grown.trans later).continues).bind ?_
  rintro f t _ ⟨later,filed⟩
  have whole := grown.trans later
  have protected_ : ∀ v ∈ h.shadow, t.Sound v := fun v member => whole.safe.rooted v (.shadow (whole.balanced.shadow ▸ member))
  have named := ((permanent.later later.extension.immortal).kept whole.safe.toIntact).1
  have stored := Heap.mapSet_meets whole.safe (protected_ table tabled) named filed
  refine (stored.since fun _ edited => whole.edited edited).bind ?_
  rintro _ u _ ⟨edited,_⟩
  refine (fileMethod_meets kinds edited.safe (fun map member => edited.sound map (protected_ map (held map member)))
    (edited.sound _ named) (edited.sound _ filed)).mono (fun _ further => whole.edited (edited.trans further))
    fun _ _ _ _ => trivial

-- A machine in the middle of installing: what `s` protects is still protected.
structure Installing (s : Heap) (m : Machine) : Prop where
  secure : m.Secure
  shadow : m.heap.shadow = s.shadow
  scopes : m.heap.scopes = s.scopes

section

variable {s : Heap} {maps : Array Value}

theorem installIntrinsic_meets (intrinsic : Intrinsic) (installing : Installing s m) (tabled : table ∈ s.shadow)
    (held : ∀ map ∈ maps, map ∈ s.shadow) :
    Meets (installIntrinsic table maps intrinsic) m (Installing s) fun _ _ => True := by
  obtain ⟨secure,shadow,scopes⟩ := installing
  obtain ⟨grown,lasting⟩ := ofNative_grown intrinsic.name intrinsic.parameters (.intrinsic intrinsic) secure.safe
    (intrinsic_defaults intrinsic)
  have added : ({ m with
      heap := (Function.ofNative intrinsic.name intrinsic.parameters (.intrinsic intrinsic) m.heap).2
      functions := m.functions.push
        (Function.ofNative intrinsic.name intrinsic.parameters (.intrinsic intrinsic) m.heap).1 }).Secure := by
    have later := secure.onHeap grown.safe grown.steady
    refine ⟨later.safe,later.ledger,fun f member => ?_⟩
    rcases Array.mem_push.mp member with before | rfl
    · exact later.functions f before
    · exact lasting
  have shadow' := grown.balanced.shadow.trans shadow
  have scopes' := grown.balanced.scopes.trans scopes
  refine Meets.get_bind (Meets.modify_bind ?_)
  refine (onHeap_parts (publish_meets intrinsic.name m.functions.size intrinsic.methodOf grown.safe (shadow' ▸ tabled)
    fun map member => shadow' ▸ held map member)).mono ?_ fun _ _ _ _ => trivial
  rintro _ ⟨h,rfl,continues⟩
  exact ⟨added.onHeap continues.safe continues.steady,continues.steady.shadow.trans shadow',continues.steady.scopes.trans scopes'⟩

theorem installAll_meets (intrinsics : List Intrinsic) (installing : Installing s m) (tabled : table ∈ s.shadow)
    (held : ∀ map ∈ maps, map ∈ s.shadow) :
    Meets (installAll table maps intrinsics) m (Installing s) fun _ _ => True := by
  induction intrinsics generalizing m with
  | nil => exact .pure installing trivial
  | cons intrinsic rest ih =>
      exact (installIntrinsic_meets intrinsic installing tabled held).bind fun _ _ installing' _ => ih installing'

theorem Installing.setRoot {id : Nat} (installing : Installing s m) (lasts : id ∈ Ledger.lasting) (member : v ∈ s.shadow) :
    Installing s { m with heap := m.heap.setRoot id v } := by
  obtain ⟨secure,shadow,scopes⟩ := installing
  have sound := secure.safe.rooted v (.shadow (shadow ▸ member))
  exact ⟨secure.setLasting sound lasts,shadow,scopes⟩

theorem Installing.rootMaps (installing : Installing s m) (tabled : table ∈ s.shadow) (held : ∀ map ∈ maps, map ∈ s.shadow)
    (size : maps.size = typeRootCount) : Installing s { m with
      heap := List.foldl (fun h (map,i) => h.setRoot (typeRoot i) map) (m.heap.setRoot intrinsicsRoot table) maps.toList.zipIdx } := by
  have first := installing.setRoot (by decide : intrinsicsRoot ∈ Ledger.lasting) tabled
  refine List.foldlRecOn (motive := fun h => Installing s { m with heap := h }) maps.toList.zipIdx _ first ?_
  rintro h later ⟨map,i⟩ member
  have place := List.mem_zipIdx_iff_getElem?.mp member
  have inside : i < typeRootCount := by
    rw [← size]
    simpa using (List.getElem?_eq_some_iff.mp place).1
  have lasts : typeRoot i ∈ Ledger.lasting := by
    simp only [Ledger.lasting,typeRoot,typeRootCount,List.mem_range'_1] at inside ⊢
    omega
  exact later.setRoot lasts (held map (Array.mem_toList_iff.mp (List.mem_of_getElem? place)))

theorem Installing.publish (installing : Installing s m) (tabled : table ∈ s.shadow) (held : ∀ map ∈ maps, map ∈ s.shadow)
    (size : maps.size = typeRootCount) :
    Meets (do
      installAll table maps Intrinsic.all
      modifyHeap fun h => maps.toList.zipIdx.foldl (fun h (map,i) => h.setRoot (typeRoot i) map) (h.setRoot intrinsicsRoot table))
      m (Installing s) fun _ _ => True :=
  (installAll_meets Intrinsic.all installing tabled held).bind fun _ _ installing' _ =>
    ⟨installing'.rootMaps tabled held size,trivial⟩

end

theorem inScope_secure {operation : MachineM α} (secure : m.Secure)
    (meets : Meets operation { m with heap := m.heap.pushScope }
      (fun m' => m'.Secure ∧ Heap.Nested m.heap.pushScope m'.heap) fun _ _ => True) :
    Meets (inScope operation) m Secure fun _ _ => True := by
  have closed : ∀ m' : Machine, m'.Secure ∧ Heap.Nested m.heap.pushScope m'.heap →
      { m' with heap := m'.heap.popScope }.Secure := by
    rintro m' ⟨inner,nested⟩
    have same := Heap.popScope_nested nested
    refine ⟨Heap.popScope_safe secure.safe nested inner.safe,?_,fun f member => ?_⟩
    · exact inner.ledger.steady (by rw [same]) (by rw [same])
    · exact (inner.functions f member).later fun r => (Heap.immortal_slots (Heap.popScope_apart m'.heap).slots r).mpr
  unfold Meets at meets ⊢
  unfold inScope
  cases result : operation { m with heap := m.heap.pushScope } with
  | ok a m' =>
      simp only [result] at meets ⊢
      exact ⟨closed m' meets.1,trivial⟩
  | error e m' =>
      simp only [result] at meets ⊢
      exact ⟨meets.1,closed m' meets.2⟩

theorem newMaps_meets {h : Heap} (safe : h.Safe) :
    Meets (do
      let table ← Heap.newMap 64
      modify (·.protect table)
      let maps ← newTypeMaps typeRootCount #[]
      pure (table,maps)) h (Heap.Opened h) fun made s =>
        made.1 ∈ s.shadow ∧ made.2.size = typeRootCount ∧ ∀ map ∈ made.2, map ∈ s.shadow := by
  refine Heap.protectedMap_bind 64 safe (fun _ opened => opened) ?_
  intro r s opened present _
  refine ((newTypeMaps_meets typeRootCount opened.safe (by simp)).since fun _ later => opened.trans later).bind ?_
  rintro maps t whole ⟨later,size,held⟩
  exact .pure whole ⟨later.extension.shadow present,by simpa using size,held⟩

theorem installIntrinsics_meets (secure : m.Secure) : Meets installIntrinsics m Secure fun _ _ => True := by
  refine inScope_secure secure ?_
  have inner : { m with heap := m.heap.pushScope }.Secure :=
    ⟨Heap.pushScope_safe secure.safe,secure.ledger.steady rfl rfl,
      fun f member => (secure.functions f member).later fun _ immortal => immortal⟩
  have opened : ∀ h, Heap.Opened m.heap.pushScope h → { m with heap := h }.Secure := fun h opened =>
    ⟨opened.safe,inner.ledger.steady opened.extension.roots opened.extension.freeRoots,
      fun f member => (inner.functions f member).later opened.extension.immortal⟩
  refine Meets.bind ((onHeap_parts (newMaps_meets inner.safe)).mono ?_ fun _ _ _ holds => holds) ?_
  · rintro _ ⟨h,rfl,holds⟩
    exact ⟨opened h holds,holds.nested⟩
  · rintro ⟨table,maps⟩ _ _ ⟨s,rfl,holds,tabled,size,held⟩
    have nested : ∀ m' : Machine, Installing s m' → m'.Secure ∧ Heap.Nested m.heap.pushScope m'.heap := fun m' installing =>
      ⟨installing.secure,holds.nested.trans ⟨installing.scopes,installing.shadow ▸ List.suffix_refl _⟩⟩
    have started : Installing s { m with heap := s } := ⟨opened s holds,rfl,rfl⟩
    exact (started.publish tabled held size).mono nested fun _ _ _ _ => trivial

theorem rejectLoad_meets {e : Error} {post : α → Machine → Prop} (secure : m.Secure) (other : e ≠ .staleReference) :
    Meets (rejectLoad e) m Secure post := ⟨other,secure.same rfl rfl rfl rfl⟩

theorem entryFunction_meets (secure : m.Secure) : Meets entryFunction m Secure fun _ _ => True := by
  refine Meets.get_bind ?_
  split
  · exact rejectLoad_meets secure Error.noConfusion
  · split
    · split
      · exact rejectLoad_meets secure Error.noConfusion
      · exact .pure secure trivial
    · exact rejectLoad_meets secure Error.noConfusion

theorem reset_meets {functions : Array Function} (secure : m.Secure) (lasting : ∀ f ∈ functions, f.Lasting m.heap) :
    Meets (reset functions) m Secure fun _ _ => True := by
  refine Meets.modify_bind ((entryFunction_meets (secure.unload lasting)).bind fun entry m₁ secure₁ _ => ?_)
  refine (installIntrinsics_meets secure₁).bind fun _ m₂ secure₂ _ => Meets.modify_bind ?_
  have framed := ((secure₂.resizeRegisters 0).resizeRegisters m₂.config.stackSlots).pushBlank entry 0
  have started : ({ m₂ with
      heap := (m₂.heap.resizeRegisters 0).resizeRegisters m₂.config.stackSlots
      pc := 0
      base := 0
      function := entry
      frames := m₂.frames.push { function := entry,base := 0 } }).Secure := framed.same rfl rfl rfl rfl
  refine Meets.get_bind ((ensureWindow_meets _ _ started).bind fun _ m₃ secure₃ _ => ?_)
  exact ⟨secure₃.same rfl rfl rfl rfl,trivial⟩

theorem execute_meets (budget : Nat) (secure : m.Secure) :
    Meets (execute budget) m Secure fun result m' => ∀ v, result = some v → m'.heap.Sound v := by
  induction budget generalizing m with
  | zero => exact .pure secure (by simp)
  | succ budget ih =>
      have stepped := step_meets secure
      simp only [Meets,execute] at stepped ⊢
      by_cases running : m.state ≠ .running
      · rw [if_pos running]
        exact ⟨secure,by simp⟩
      · rw [if_neg running]
        cases result : step m with
        | error e m' =>
            simp only [result] at stepped ⊢
            exact stepped
        | ok progress m' =>
            simp only [result] at stepped ⊢
            cases progress with
            | next => exact ih stepped.1
            | finished v => exact ⟨stepped.1,fun w same => by cases same; exact stepped.2 v rfl⟩

theorem Secure.run (secure : m.Secure) (budget : Nat) : (m.run budget).2.Secure := by
  have ran := execute_meets budget (m := { m with state := .running }) (secure.same rfl rfl rfl rfl)
  unfold Meets at ran
  unfold Machine.run
  split
  · exact secure
  · cases result : execute budget { m with state := .running } with
    | error e m' =>
        simp only [result] at ran ⊢
        exact ran.2.same rfl rfl rfl rfl
    | ok value m' =>
        simp only [result] at ran ⊢
        cases value with
        | none =>
            dsimp only
            split
            · exact ran.1.same rfl rfl rfl rfl
            · exact ran.1
        | some v =>
            have lasts : resultRoot ∈ Ledger.lasting := by decide
            exact (ran.1.setLasting (ran.2 v rfl) lasts).same rfl rfl rfl rfl

end Machine

end RegisterMachine
