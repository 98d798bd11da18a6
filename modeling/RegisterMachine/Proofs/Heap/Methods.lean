import RegisterMachine.Machine.Step
import RegisterMachine.Proofs.Heap.Copying

namespace RegisterMachine.Heap

theorem Meets.continued {operation : HeapM α} {post : α → Heap → Prop} (meets : Meets operation h (Edited h) post) :
    Meets operation h (Continues h) post :=
  meets.mono (fun _ edited => edited.continues) fun _ _ _ holds => holds

theorem Continues.refl {h : Heap} (safe : h.Safe) : Continues h h := (Edited.refl safe).continues

section

variable {h : Heap} {v old new : Value}

theorem add_meets (safe : h.Safe) (left : h.Kept a) (right : h.Kept b) :
    Meets (add a b) h (Continues h) fun w s => s.Sound w := by
  have plain : ∀ w, w.handle? = none → Meets (pure w : HeapM Value) h (Continues h) fun w s => s.Sound w :=
    fun w none => .pure (.refl safe) (sound_plain h none)
  unfold add
  split
  · exact plain _ (Value.ofInt_plain _)
  · exact Meets.continues (listConcat_meets safe left right)
  · exact mapMerge_meets safe left right
  · split
    · exact plain _ rfl
    · split
      · exact Meets.continues (stringConcat_meets safe left.1 right.1)
      · split
        · refine Meets.continues (Meets.bind (newString_meets _ safe) fun text s grown sound => ?_)
          exact (stringConcat_meets grown.safe (grown.extension.kept left).1 sound).mono (fun _ later => grown.trans later)
            fun _ _ _ sound => sound
        · split
          · refine Meets.continues (Meets.bind (newString_meets _ safe) fun text s grown sound => ?_)
            exact (stringConcat_meets grown.safe sound (grown.extension.kept right).1).mono (fun _ later => grown.trans later)
              fun _ _ _ sound => sound
          · split
            · exact .pure (.refl safe) left.1
            · exact plain _ rfl

theorem mult_meets (b : Value) (safe : h.Safe) (sound : h.Sound a) :
    Meets (mult a b) h (Continues h) fun w s => s.Sound w := by
  unfold mult
  split
  · exact .pure (.refl safe) (sound_plain h (Value.ofInt_plain _))
  · split
    · exact .pure (.refl safe) (sound_plain h rfl)
    · split
      · exact Meets.continues (stringRepeat_meets _ safe sound)
      · exact .pure (.refl safe) (sound_plain h rfl)

theorem div_meets (b : Value) (safe : h.Safe) (sound : h.Sound a) :
    Meets (div a b) h (Continues h) fun w s => s.Sound w := by
  unfold div
  split
  · exact .pure (.refl safe) (sound_plain h rfl)
  · split
    · exact mult_meets _ safe sound
    · exact .pure (.refl safe) (sound_plain h rfl)

theorem removeText_meets (pattern : Value) (safe : h.Safe) (kept : h.Kept v) :
    Meets (removeText v pattern) h (Grown h) fun w s => s.Sound w := by
  refine Meets.get_bind ?_
  split
  · exact .pure (.refl safe) kept.1
  · rename_i i _
    have inner := pushScope_safe safe
    have inside := (pushScope_extends h).kept kept
    refine inScope_meets ?_
    suffices whole : Meets (do
        let head ← stringSubstring v 0 (Int32.ofNat i)
        modify (·.protect head)
        let tail ← stringSlice v (Int32.ofNat i + Int32.ofNat (h.stringLength pattern)) Int32.maxValue
        modify (·.protect tail)
        stringConcat head tail) h.pushScope (Opened h.pushScope) fun w s => s.Sound w from
      whole.mono (fun s opened => opened.close safe) fun w s _ sound => sound.popScope
    refine Meets.bind ((stringSubstring_meets 0 (Int32.ofNat i) inner inside.1).mono (fun _ grown => grown.opened)
      fun _ _ _ sound => sound) fun head s opened sound => Meets.modify_bind ?_
    have first := opened.trans (protect_opened opened.safe sound)
    have sliced : Meets (stringSlice v (Int32.ofNat i + Int32.ofNat (h.stringLength pattern)) Int32.maxValue) (s.protect head)
        (Opened h.pushScope) fun tail t => head ∈ t.shadow ∧ t.Sound tail :=
      (stringSlice_meets _ _ first.safe (first.extension.kept inside).1).mono (fun _ grown => first.trans grown.opened)
        fun _ _ grown sound => ⟨grown.extension.shadow List.mem_cons_self,sound⟩
    refine sliced.bind ?_
    rintro tail t second ⟨held,sound'⟩
    refine Meets.modify_bind ?_
    have third := second.trans (protect_opened second.safe sound')
    have headSound := third.safe.rooted head (.shadow (List.mem_cons_of_mem tail held))
    exact (stringConcat_meets third.safe headSound (third.safe.rooted tail (.shadow List.mem_cons_self))).mono
      (fun _ grown => third.trans grown.opened) fun _ _ _ sound => sound

theorem removeFrom_meets (key : Value) (safe : h.Safe) (kept : h.Kept v) :
    Meets (removeFrom v key) h (Continues h) fun w s => s.Sound w := by
  unfold removeFrom
  split
  · exact .map (Meets.continued ((listRemove_meets _ safe kept.1).imp fun _ s _ _ => sound_plain s rfl))
  · exact .map (Meets.continued ((mapRemove_meets key safe kept.1).imp fun _ s _ _ => sound_plain s rfl))
  · exact Meets.continues (removeText_meets key safe kept)
  · exact Meets.continues (removeText_meets key safe kept)
  · exact .throw (.refl safe) Error.noConfusion

theorem giveBack {operation : HeapM Unit} (meets : Meets operation h (Edited h) fun _ _ => True) (sound : h.Sound v) :
    Meets (do operation; pure v) h (Edited h) fun w s => s.Sound w :=
  meets.bind fun _ _ edited _ => .pure edited (edited.sound v sound)

theorem pushOnto_meets (safe : h.Safe) (sound : h.Sound v) (added : h.Sound item) :
    Meets (pushOnto v item) h (Edited h) fun w s => s.Sound w := by
  unfold pushOnto
  split
  · exact giveBack (listPush_meets safe sound added) sound
  · exact giveBack (mapSet_meets safe sound added (sound_plain h rfl)) sound
  · exact .throw (.refl safe) Error.noConfusion

theorem insertText_meets (index inserted : Value) (safe : h.Safe) :
    Meets (insertText v index inserted) h (Grown h) fun w s => s.Sound w := by
  refine Meets.get_bind ?_
  simp only
  generalize (if index.asInt.toInt < 0 then index.asInt.toInt + h.stringLength v + 1 else index.asInt.toInt) = i
  split
  · exact .throw (.refl safe) Error.noConfusion
  · exact newString_meets _ safe

theorem insertInto_meets (index : Value) (safe : h.Safe) (sound : h.Sound v) (added : h.Sound inserted) :
    Meets (insertInto v index inserted) h (Continues h) fun w s => s.Sound w := by
  unfold insertInto
  split
  · exact Meets.continued (giveBack (listInsert_meets _ safe sound added) sound)
  · exact Meets.continues (insertText_meets index inserted safe)
  · exact Meets.continues (insertText_meets index inserted safe)
  · exact .throw (.refl safe) Error.noConfusion

-- The first key of a map leaves it, so it is protected until the map has let it go.
theorem takeFirstKey_meets (safe : h.Safe) (sound : h.Sound v) :
    Meets (takeFirstKey v) h (Edited h) fun w s => s.Sound w := by
  simp only [Meets,takeFirstKey]
  cases first : h.nthEntry? v 0 with
  | none => exact ⟨.refl safe,sound_plain h rfl⟩
  | some entry =>
      obtain ⟨key,value⟩ := entry
      have keySound := (safe.closed_sound.nthEntry? sound first).1
      have removed := mapRemove_meets key (protect_safe safe keySound) (sound.move fun _ => rfl)
      unfold Meets at removed
      simp only
      cases result : mapRemove v key (h.protect key) with
      | ok found s =>
          rw [result] at removed
          have edited := removed.1.unprotect safe
          exact ⟨edited,edited.sound key keySound⟩
      | error e s =>
          rw [result] at removed
          exact ⟨removed.1,removed.2.unprotect safe⟩

theorem popFrom_meets (safe : h.Safe) (sound : h.Sound v) : Meets (popFrom v) h (Edited h) fun w s => s.Sound w := by
  unfold popFrom
  split
  · exact listPop_meets safe sound
  · exact takeFirstKey_meets safe sound
  · exact .pure (.refl safe) (sound_plain h rfl)

theorem pullFrom_meets (safe : h.Safe) (sound : h.Sound v) : Meets (pullFrom v) h (Edited h) fun w s => s.Sound w := by
  unfold pullFrom
  split
  · exact listPull_meets safe sound
  · exact takeFirstKey_meets safe sound
  · exact .pure (.refl safe) (sound_plain h rfl)

theorem indexRange_meets (count : Nat) (safe : h.Safe) : Meets (indexRange count) h (Grown h) fun w s => s.Sound w := by
  refine listOf_meets _ safe fun item member => ?_
  obtain ⟨i,_,rfl⟩ := List.mem_map.mp (List.mem_toArray.mp member)
  exact kept_plain h rfl

theorem indexesOf_meets (safe : h.Safe) (kept : h.Kept v) : Meets (indexesOf v) h (Grown h) fun w s => s.Sound w := by
  unfold indexesOf
  split
  · exact Meets.get_bind (indexRange_meets _ safe)
  · exact Meets.get_bind (indexRange_meets _ safe)
  · exact Meets.get_bind (indexRange_meets _ safe)
  · exact mapKeys_meets safe kept
  · exact .throw (.refl safe) Error.noConfusion

theorem valuesOf_meets (safe : h.Safe) (kept : h.Kept v) : Meets (valuesOf v) h (Grown h) fun w s => s.Sound w := by
  unfold valuesOf
  split
  · exact mapValues_meets safe kept
  · exact stringSplit_meets _ _ safe
  · exact stringSplit_meets _ _ safe
  · exact .pure (.refl safe) kept.1

theorem joinItems_meets (delimiter : Value) (safe : h.Safe) :
    Meets (joinItems v delimiter) h (Grown h) fun w s => s.Sound w := by
  refine Meets.get_bind ?_
  split
  · exact .throw (.refl safe) Error.noConfusion
  · exact newString_meets _ safe

theorem splitAt_meets (safe : h.Safe) (sound : h.Sound delimiter) :
    Meets (splitAt v delimiter) h (Grown h) fun w s => s.Sound w := by
  unfold splitAt
  split
  · refine Meets.bind (toStringValue_meets safe sound) fun text s grown textSound => ?_
    have pieces := stringSplit_meets v text (protect_safe grown.safe textSound)
    unfold Meets at pieces ⊢
    cases result : stringSplit v text (s.protect text) with
    | ok w t =>
        simp only [result] at pieces ⊢
        exact ⟨grown.trans (pieces.1.unprotect grown.safe),pieces.2.unprotect⟩
    | error e t =>
        simp only [result] at pieces ⊢
        exact ⟨pieces.1,grown.trans (pieces.2.unprotect grown.safe)⟩
  · exact .throw (.refl safe) Error.noConfusion

theorem replaceItems_meets (old : Value) (items : List (Value × Nat)) (safe : h.Safe) (sound : h.Sound v) (added : h.Sound new) :
    Meets (replaceItems v old new items) h (Edited h) fun _ _ => True := by
  induction items generalizing h with
  | nil => exact .pure (.refl safe) trivial
  | cons item rest ih =>
      refine Meets.get_bind ?_
      have followed : ∀ s, Edited h s → Meets (replaceItems v old new rest) s (Edited h) fun _ _ => True := fun s edited =>
        (ih edited.safe (edited.sound v sound) (edited.sound new added)).mono
          (fun _ later => edited.trans later) fun _ _ _ _ => trivial
      split
      · exact (listSet_meets _ safe sound added).bind fun _ s edited _ => followed s edited
      · exact followed h (.refl safe)

theorem replaceEntries_meets (old : Value) (entries : List (Value × Value)) (safe : h.Safe) (sound : h.Sound v)
    (added : h.Sound new) (keys : ∀ key value, (key,value) ∈ entries → h.Sound key) :
    Meets (replaceEntries v old new entries) h (Edited h) fun _ _ => True := by
  induction entries generalizing h with
  | nil => exact .pure (.refl safe) trivial
  | cons entry rest ih =>
      refine Meets.get_bind ?_
      have followed : ∀ s, Edited h s → Meets (replaceEntries v old new rest) s (Edited h) fun _ _ => True := fun s edited =>
        (ih edited.safe (edited.sound v sound) (edited.sound new added) fun key value member =>
          edited.sound key (keys key value (List.mem_cons_of_mem _ member))).mono
            (fun _ later => edited.trans later) fun _ _ _ _ => trivial
      split
      · exact (mapSet_meets safe sound (keys _ _ List.mem_cons_self) added).bind fun _ s edited _ => followed s edited
      · exact followed h (.refl safe)

theorem replaceText_meets (safe : h.Safe) (kept : h.Kept v) (pattern : h.Kept old) (added : h.Kept new) :
    Meets (inScope do
      let old ← toStringValue old
      modify (·.protect old)
      let new ← toStringValue new
      modify (·.protect new)
      stringReplace v old new) h (Grown h) fun w s => s.Sound w := by
  have inner := pushScope_safe safe
  have inside : ∀ w, h.Kept w → h.pushScope.Kept w := fun w => (pushScope_extends h).kept
  refine inScope_meets ?_
  suffices whole : Meets (do
      let old ← toStringValue old
      modify (·.protect old)
      let new ← toStringValue new
      modify (·.protect new)
      stringReplace v old new) h.pushScope (Opened h.pushScope) fun w s => s.Sound w from
    whole.mono (fun s opened => opened.close safe) fun w s _ sound => sound.popScope
  refine Meets.bind ((toStringValue_meets inner (inside old pattern).1).mono (fun _ grown => grown.opened) fun _ _ _ sound => sound)
    fun first s opened sound => Meets.modify_bind ?_
  have held := opened.trans (protect_opened opened.safe sound)
  refine Meets.bind ((toStringValue_meets held.safe (held.extension.kept (inside new added)).1).mono (fun _ grown => held.trans grown.opened)
    fun _ _ _ sound => sound) fun second t opened' sound' => Meets.modify_bind ?_
  have both := opened'.trans (protect_opened opened'.safe sound')
  exact (stringReplace_meets first second both.safe (both.extension.kept (inside v kept)).1).mono (fun _ grown => both.trans grown.opened)
    fun _ _ _ sound => sound

theorem replaceIn_meets (safe : h.Safe) (kept : h.Kept v) (pattern : h.Kept old) (added : h.Kept new) :
    Meets (replaceIn v old new) h (Continues h) fun w s => s.Sound w := by
  unfold replaceIn
  split
  · exact Meets.continues (replaceText_meets safe kept pattern added)
  · exact Meets.continues (replaceText_meets safe kept pattern added)
  · exact Meets.continued (Meets.get_bind (giveBack (replaceItems_meets old _ safe kept.1 added.1) kept.1))
  · refine Meets.continued (Meets.get_bind (giveBack (replaceEntries_meets old _ safe kept.1 added.1 ?_) kept.1))
    exact fun key value member => (safe.closed_sound.entries kept.1 member).1
  · exact .throw (.refl safe) Error.noConfusion

theorem sliceOf_meets (start : Int32) (stop : Value) {refused : Heap → Error} (safe : h.Safe) (kept : h.Kept v)
    (other : ∀ h, refused h ≠ .staleReference) :
    Meets (sliceOf v start stop refused) h (Grown h) fun w s => s.Sound w := by
  refine Meets.get_bind ?_
  split
  · exact listSlice_meets _ _ safe kept
  · exact stringSlice_meets _ _ safe kept.1
  · exact stringSlice_meets _ _ safe kept.1
  · exact .throw (.refl safe) (other h)

theorem inScope_within {operation : HeapM Value} (safe : h.Safe)
    (meets : Meets operation h.pushScope (Within h.pushScope) fun w s => s.Sound w) :
    Meets (inScope operation) h (Continues h) fun w s => s.Sound w :=
  inScope_meets (meets.mono (fun _ within => within.close safe) fun _ _ _ sound => sound.popScope)

theorem newChild_meets (safe : h.Safe) (kept : h.Kept parent) :
    Meets (Machine.newChild parent) h (Continues h) fun w s => s.Sound w := by
  refine inScope_within safe (protectedMap_bind 2 (pushScope_safe safe) (fun _ opened => opened.within) ?_)
  intro r s opened _ sound
  have inside := opened.within.sound parent ((pushScope_extends h).kept kept)
  refine Meets.bind ((mapSet_meets opened.safe sound (sound_plain _ rfl) inside).mono
    (fun _ edited => opened.within.edited edited) fun _ _ edited _ => edited) ?_
  exact fun _ t within edited => .pure within (edited.sound _ sound)

theorem entryPair_meets (index : Int32) (safe : h.Safe) (kept : h.Kept v) :
    Meets (Machine.entryPair v index) h (Continues h) fun w s => s.Sound w := by
  refine Meets.get_bind ?_
  split
  · exact .pure (.refl safe) (sound_plain h rfl)
  · rename_i key value found
    have entry : h.Kept key ∧ h.Kept value := by
      split at found
      · cases found
      · exact safe.closed_kept.nthEntry? kept found
    refine inScope_within safe (protectedMap_bind 2 (pushScope_safe safe) (fun _ opened => opened.within) ?_)
    intro r s opened _ sound
    have inside : ∀ w, h.Kept w → s.Sound w := fun w kept => opened.within.sound w ((pushScope_extends h).kept kept)
    refine Meets.bind ((mapSet_meets opened.safe sound (sound_plain _ rfl) (inside key entry.1)).mono
      (fun _ edited => opened.within.edited edited) fun _ _ edited _ => edited) fun _ t within first => ?_
    refine Meets.bind ((mapSet_meets first.safe (first.sound _ sound) (sound_plain _ rfl) (first.sound _ (inside value entry.2))).mono
      (fun _ edited => within.edited edited) fun _ _ edited _ => edited) fun _ u within' second => ?_
    exact .pure within' (second.sound _ (first.sound _ sound))

end

end RegisterMachine.Heap
