import RegisterMachine.Proofs.Heap.Building

namespace RegisterMachine.Heap

-- Copies made so far are protected.
def Guarded (copies : Copies) (h : Heap) : Prop := ∀ pair ∈ copies, pair.2 ∈ h.shadow

theorem Guarded.later (guarded : Guarded copies h) (shadow : h.shadow ⊆ h'.shadow) : Guarded copies h' :=
  fun pair member => shadow (guarded pair member)

theorem Guarded.lookup (guarded : Guarded copies h) (found : copies.lookup r = some w) : w ∈ h.shadow :=
  guarded _ (lookup_mem found)

-- What copying one value promises.
def Copied (result : Value × Copies) (s : Heap) : Prop := s.Kept result.1 ∧ Guarded result.2 s

def Faithful (copy : Value → Copies → HeapM (Value × Copies)) : Prop :=
  ∀ v copies h, h.Safe → h.Kept v → Guarded copies h → Meets (copy v copies) h (Opened h) Copied

-- Items join the copy of their list one by one. They are kept from where the copy of the list began.
theorem copyItems_meets {copy : Value → Copies → HeapM (Value × Copies)} {h₀ s : Heap} {list : ListObject}
    (faithful : Faithful copy) (items : List Value) (opened : Opened h₀ s) (fresh : ¬ h₀.Survives r)
    (kept : ∀ item ∈ items, h₀.Kept item) (held : .list r ∈ s.shadow) (present : s.object? r = some (.list list))
    (open_ : list.frozen = false) (guarded : Guarded copies s) :
    Meets (copyItems copy (.list r) items copies) s (Opened h₀) fun copies t => Guarded copies t ∧ .list r ∈ t.shadow := by
  induction items generalizing s list copies with
  | nil => exact .pure opened ⟨guarded,held⟩
  | cons item rest ih =>
      have copied : Meets (copy item copies) s (Opened h₀) fun result t => Opened s t ∧ Copied result t :=
        (faithful item copies s opened.safe (opened.extension.kept (kept item List.mem_cons_self)) guarded).since
          fun _ inner => opened.trans inner
      refine copied.bind ?_
      rintro ⟨copy',copies'⟩ t total ⟨inner,sound,guarded'⟩
      have still : t.object? r = some (.list list) := by
        rw [inner.extension.objects r ((opened.safe.root_kept (.shadow held)).2 r rfl)]
        exact present
      obtain ⟨u,pushed,touched⟩ := listPush_opened total fresh still open_ sound.1
      refine pushed.bind ?_
      rintro _ _ opened' rfl
      have same := touched.roots.shadow
      refine ih opened' (fun other member => kept other (List.mem_cons_of_mem _ member)) ?_ touched.here open_ ?_
      · rw [same]
        exact inner.extension.shadow held
      · exact guarded'.later (by rw [same]; exact fun _ member => member)

theorem copyEntries_meets {copy : Value → Copies → HeapM (Value × Copies)} {h₀ s : Heap} {table : Table}
    (faithful : Faithful copy) (entries : List (Value × Value)) (opened : Opened h₀ s) (fresh : ¬ h₀.Survives r)
    (kept : ∀ key value, (key,value) ∈ entries → h₀.Kept key ∧ h₀.Kept value) (held : .map r ∈ s.shadow)
    (present : s.object? r = some (.map table)) (open_ : table.frozen = false) (plain : table.aliases = none)
    (guarded : Guarded copies s) :
    Meets (copyEntries copy (.map r) entries copies) s (Opened h₀) fun copies t => Guarded copies t ∧ .map r ∈ t.shadow := by
  induction entries generalizing s table copies with
  | nil => exact .pure opened ⟨guarded,held⟩
  | cons entry rest ih =>
      obtain ⟨key,value⟩ := entry
      obtain ⟨keyKept,valueKept⟩ := kept key value List.mem_cons_self
      have keyCopied : Meets (copy key copies) s (Opened h₀) fun result t => Opened s t ∧ Copied result t :=
        (faithful key copies s opened.safe (opened.extension.kept keyKept) guarded).since fun _ inner => opened.trans inner
      refine keyCopied.bind ?_
      rintro ⟨key',copies'⟩ t total ⟨inner,keySound,guarded'⟩
      -- The copy of the key is protected while the value is copied.
      have protected_ := protect_opened total.safe keySound.1
      refine Meets.modify_bind ?_
      have valueCopied : Meets (copy value copies') (t.protect key') (Opened h₀) fun result u =>
          Opened (t.protect key') u ∧ Copied result u :=
        (faithful value copies' (t.protect key') protected_.safe ((total.trans protected_).extension.kept valueKept)
          (guarded'.later protected_.extension.shadow)).since
          fun _ later => (total.trans protected_).trans later
      refine valueCopied.bind ?_
      rintro ⟨value',copies''⟩ u whole ⟨later,valueSound,guarded''⟩
      have since := inner.trans (protected_.trans later)
      have still : u.object? r = some (.map table) := by
        rw [since.extension.objects r ((opened.safe.root_kept (.shadow held)).2 r rfl)]
        exact present
      have keyHeld : key' ∈ u.shadow := later.extension.shadow List.mem_cons_self
      have touched := store_touched key' value' still
      have edited := store_edited whole.safe still (whole.safe.rooted _ (.shadow keyHeld)) valueSound.1
      have parts := @stored_parts u table key' value' (whole.safe.toIntact.table still)
      have set : Meets (mapSet (.map r) key' value') u (Opened h₀) fun _ t' => t' = u.store r key' value' := by
        rw [Meets,mapSet_plain still open_ plain]
        exact ⟨whole.touch touched fresh edited,rfl⟩
      refine set.bind ?_
      rintro _ _ opened' rfl
      have same := touched.roots.shadow
      refine ih opened' (fun k v member => kept k v (List.mem_cons_of_mem _ member)) ?_ touched.here (parts.1.trans open_)
        (parts.2.trans plain) ?_
      · rw [same]
        exact since.extension.shadow held
      · exact guarded''.later (by rw [same]; exact fun _ member => member)

theorem copyDeep_faithful (levels : Nat) : Faithful (copyDeep levels) := by
  induction levels with
  | zero =>
      intro v copies h safe kept guarded
      rw [copyDeep_zero]
      exact .pure (.refl safe) ⟨kept,guarded⟩
  | succ levels ih =>
      intro v copies h safe kept guarded
      have known : ∀ r w, copies.lookup r = some w → h.Kept w := fun r w found => safe.root_kept (.shadow (guarded.lookup found))
      cases v with
      | list r =>
          rw [copyDeep_list]
          cases found : copies.lookup r with
          | some copy => exact .pure (.refl safe) ⟨known r copy found,guarded⟩
          | none =>
              have items : ∀ item ∈ ((h.items? (.list r)).getD #[]).toList, h.Kept item := by
                cases listed : h.items? (.list r) with
                | none => simp
                | some items => exact fun item member => safe.closed_kept.items kept listed item (Array.mem_toList_iff.mp member)
              refine Meets.get_bind ?_
              refine Meets.bind ((newListOf_meets _ safe (by simp)).mono (fun _ grown => grown.opened) fun _ _ _ made => made) ?_
              rintro _ s opened ⟨q,rfl,present,fresh⟩
              have protected_ := opened.trans (protect_opened opened.safe (sound_list (r := q) present))
              have first : Guarded ((r,.list q) :: copies) (s.protect (.list q)) := by
                intro pair member
                rcases List.mem_cons.mp member with rfl | before
                · exact List.mem_cons_self
                · exact protected_.extension.shadow (guarded pair before)
              refine Meets.modify_bind (Meets.bind (copyItems_meets ih _ protected_ fresh items List.mem_cons_self present rfl first) ?_)
              rintro copies' t total ⟨guarded',held⟩
              exact .pure total ⟨total.safe.root_kept (.shadow held),guarded'⟩
      | map r =>
          rw [copyDeep_map]
          cases found : copies.lookup r with
          | some copy => exact .pure (.refl safe) ⟨known r copy found,guarded⟩
          | none =>
              refine Meets.get_bind ?_
              refine Meets.bind ((newMap_meets _ safe).mono (fun _ grown => grown.opened) fun _ _ _ made => made) ?_
              rintro _ s opened ⟨q,rfl,present,fresh⟩
              have protected_ := opened.trans (protect_opened opened.safe (sound_map (r := q) present))
              have first : Guarded ((r,.map q) :: copies) (s.protect (.map q)) := by
                intro pair member
                rcases List.mem_cons.mp member with rfl | before
                · exact List.mem_cons_self
                · exact protected_.extension.shadow (guarded pair before)
              refine Meets.modify_bind (Meets.bind (copyEntries_meets ih _ protected_ fresh
                (fun key value member => safe.closed_kept.entries kept member) List.mem_cons_self present rfl rfl first) ?_)
              rintro copies' t total ⟨guarded',held⟩
              exact .pure total ⟨total.safe.root_kept (.shadow held),guarded'⟩
      | null | int | double | short => rw [copyDeep_plain _ _ rfl]; exact .pure (.refl safe) ⟨kept,guarded⟩
      | str r | funcRef r =>
          rw [copyDeep_leaf (r := r) _ _ (by simp)]
          refine .pure (.refl safe) ⟨?_,guarded⟩
          cases found : copies.lookup r with
          | none => exact kept
          | some copy => exact known r copy found

theorem frozenCopy_meets {h : Heap} (safe : h.Safe) (kept : h.Kept v) :
    Meets (frozenCopy v) h (Continues h) fun w s => s.Sound w := by
  refine Meets.get_bind ?_
  have copied := copyDeep_faithful (h.slots.size + 2) v [] h.pushScope (pushScope_safe safe) ((pushScope_extends h).kept kept) (by simp [Guarded])
  have closed : Meets (inScope (copyDeep (h.slots.size + 2) v [])) h (Continues h) fun result s => Grown h s ∧ s.Sound result.1 :=
    inScope_meets (copied.mono (fun s opened => (opened.close safe).continues) fun result s opened made =>
      ⟨opened.close safe,made.1.1.popScope⟩)
  refine closed.bind ?_
  rintro result s _ ⟨grown,sound⟩
  have frozen := freeze_edited result.1 grown.safe
  exact Meets.modify_bind (.pure (grown.edited frozen) (frozen.sound _ sound))

end RegisterMachine.Heap
