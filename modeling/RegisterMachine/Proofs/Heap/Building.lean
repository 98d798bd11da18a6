import RegisterMachine.Proofs.Heap.Editing

namespace RegisterMachine.Heap

theorem Meets.continues {operation : HeapM α} {post : α → Heap → Prop} (meets : Meets operation h (Grown h) post) :
    Meets operation h (Continues h) post :=
  meets.mono (fun _ grown => grown.continues) fun _ _ _ holds => holds

theorem newString_meets {h : Heap} (text : String) (safe : h.Safe) :
    Meets (newString text) h (Grown h) fun v s => s.Sound v := by
  unfold newString
  split
  · exact .pure (.refl safe) (sound_plain h rfl)
  · split
    · exact (interning_meets text safe).imp fun v s grown permanent =>
        (permanent.kept grown.safe.toIntact).1
    · rename_i long
      refine .map ((allocate_meets safe (sane_str (Nat.le_of_not_lt long)) ?_).imp fun r s _ made => ?_)
      · intro v refers
        cases refers
      · intro q handle
        cases handle
        exact ⟨_,made.1,.str⟩

theorem newListOf_meets {h : Heap} {items : Array Value} (capacity : Nat) (safe : h.Safe) (kept : ∀ item ∈ items, h.Kept item) :
    Meets (newListOf items capacity) h (Grown h) fun v s =>
      ∃ r, v = .list r ∧ s.object? r = some (.list (.ofItems items capacity)) ∧ ¬ h.Survives r := by
  refine .map ((allocate_meets safe (sane_list _) ?_).imp fun r s _ made => ⟨r,rfl,made⟩)
  intro v refers
  cases refers with
  | item member => exact kept v member

theorem refers_empty {aliases : Option Aliases} (refers : (Object.map { Table.withCapacity n with aliases }).Refers v) :
    ∃ named register, aliases = some named ∧ (v,register) ∈ named.bindings := by
  cases refers with
  | key present => simp [Table.withCapacity] at present
  | value present => simp [Table.withCapacity] at present
  | aliased bound member => exact ⟨_,_,bound,member⟩

theorem newMap_meets {h : Heap} (capacity : Nat) (safe : h.Safe) :
    Meets (newMap capacity) h (Grown h) fun v s =>
      ∃ r, v = .map r ∧ s.object? r = some (.map (.withCapacity capacity)) ∧ ¬ h.Survives r := by
  refine .map ((allocate_meets safe (sane_map (Table.withCapacity_valid capacity)) ?_).imp
    fun r s _ made => ⟨r,rfl,made⟩)
  intro v refers
  obtain ⟨_,_,none,_⟩ := refers_empty refers
  cases none

theorem newAliasMap_meets {h : Heap} (first count : Nat) (safe : h.Safe) :
    Meets (newAliasMap first count) h (Grown h) fun v s => s.Sound v := by
  have valid : { Table.withCapacity 0 with aliases := some (h.aliasesFor first count) }.Valid :=
    (Table.withCapacity_valid 0).of_same rfl rfl
  have made := @allocate_meets h _ safe (sane_map valid) fun v refers => by
    obtain ⟨_,register,same,listed⟩ := refers_empty refers
    cases same
    have named : v = h.registerName register := h.aliasesFor_names first count _ listed
    rw [named]
    exact safe.closed_kept.registerName register
  refine Meets.map (made.imp fun r s _ made => ?_)
  intro q handle
  cases handle
  exact ⟨_,made.1,.map⟩

theorem newFuncRef_meets {h : Heap} (function : Nat) (safe : h.Safe) (kept : h.Kept outer) :
    Meets (newFuncRef function outer) h (Grown h) fun v s => s.Sound v := by
  refine .map ((allocate_meets safe (sane_funcRef _) ?_).imp fun r s _ made => ?_)
  · intro v refers
    cases refers
    exact kept
  · intro q handle
    cases handle
    exact ⟨_,made.1,.funcRef⟩

theorem sound_list {h : Heap} {list : ListObject} (present : h.object? r = some (.list list)) : h.Sound (.list r) := by
  intro q handle
  cases handle
  exact ⟨_,present,.list⟩

theorem sound_map {h : Heap} {table : Table} (present : h.object? r = some (.map table)) : h.Sound (.map r) := by
  intro q handle
  cases handle
  exact ⟨_,present,.map⟩

theorem protectedMap_bind {h : Heap} {rest : Value → HeapM β} {always : Heap → Prop} {post : β → Heap → Prop} (capacity : Nat)
    (safe : h.Safe) (wider : ∀ s, Opened h s → always s)
    (follows : ∀ r s, Opened h s → .map r ∈ s.shadow → s.Sound (.map r) → Meets (rest (.map r)) s always post) :
    Meets (do let map ← newMap capacity; modify (·.protect map); rest map) h always post := by
  have made : Meets (newMap capacity) h always fun v s => ∃ r, v = .map r ∧ Opened h (s.protect v) := by
    refine (newMap_meets capacity safe).mono (fun s grown => wider s grown.opened) ?_
    rintro _ s grown ⟨r,rfl,present,_⟩
    exact ⟨r,rfl,grown.opened.trans (protect_opened grown.safe (sound_map present))⟩
  refine made.bind ?_
  rintro _ s _ ⟨r,rfl,opened⟩
  have held : .map r ∈ (s.protect (.map r)).shadow := List.mem_cons_self
  exact Meets.modify_bind (follows r _ opened held (opened.safe.rooted _ (.shadow held)))

theorem newMap_sound {h : Heap} (capacity : Nat) (safe : h.Safe) :
    Meets (newMap capacity) h (Grown h) fun v s => s.Sound v := by
  refine (newMap_meets capacity safe).imp ?_
  rintro _ s _ ⟨r,rfl,present,_⟩
  exact sound_map present

theorem listOf_meets {h : Heap} {items : Array Value} (capacity : Nat) (safe : h.Safe) (kept : ∀ item ∈ items, h.Kept item) :
    Meets (newListOf items capacity) h (Grown h) fun v s => s.Sound v := by
  refine (newListOf_meets capacity safe kept).imp ?_
  rintro v s _ ⟨r,rfl,present,_⟩
  exact sound_list present

theorem textOf_bind {h : Heap} {rest : String → HeapM α} {post : α → Heap → Prop} (safe : h.Safe)
    (follows : ∀ text, Meets (rest text) h (Grown h) post) : Meets (textOf v >>= rest) h (Grown h) post := by
  refine Meets.bind (show Meets (textOf v) h (Grown h) fun _ s => s = h from ?_) fun text s _ same => same ▸ follows text
  simp only [Meets,textOf,reading,expectText]
  cases h.text? v with
  | some text => exact ⟨.refl safe,rfl⟩
  | none => exact ⟨Error.noConfusion,.refl safe⟩

theorem stringConcat_meets {h : Heap} (safe : h.Safe) (left : h.Sound a) (right : h.Sound b) :
    Meets (stringConcat a b) h (Grown h) fun v s => s.Sound v := by
  refine textOf_bind safe fun x => textOf_bind safe fun y => ?_
  split
  · exact .pure (.refl safe) left
  · split
    · exact .pure (.refl safe) right
    · exact newString_meets _ safe

theorem stringSubstring_meets {h : Heap} (start count : Int32) (safe : h.Safe) (sound : h.Sound v) :
    Meets (stringSubstring v start count) h (Grown h) fun w s => s.Sound w := by
  refine textOf_bind safe fun text => ?_
  simp only
  split
  · exact .pure (.refl safe) sound
  · exact newString_meets _ safe

theorem stringSlice_meets {h : Heap} (start stop : Int32) (safe : h.Safe) (sound : h.Sound v) :
    Meets (stringSlice v start stop) h (Grown h) fun w s => s.Sound w := by
  refine Meets.get_bind ?_
  simp only
  split
  · exact newString_meets _ safe
  · exact stringSubstring_meets _ _ safe sound

theorem stringReplace_meets {h : Heap} (old new : Value) (safe : h.Safe) (sound : h.Sound v) :
    Meets (stringReplace v old new) h (Grown h) fun w s => s.Sound w := by
  refine textOf_bind safe fun text => textOf_bind safe fun pattern => textOf_bind safe fun replacement => ?_
  split
  · exact .pure (.refl safe) sound
  · exact newString_meets _ safe

theorem mapText_meets {h : Heap} (change : String → String) (safe : h.Safe) (sound : h.Sound v) :
    Meets (mapText change v) h (Grown h) fun w s => s.Sound w := by
  refine textOf_bind safe fun text => ?_
  simp only
  split
  · exact .pure (.refl safe) sound
  · exact newString_meets _ safe

theorem stringRepeat_meets {h : Heap} (times : Double) (safe : h.Safe) (sound : h.Sound v) :
    Meets (stringRepeat v times) h (Grown h) fun w s => s.Sound w := by
  refine textOf_bind safe fun text => ?_
  split
  · exact newString_meets _ safe
  · split
    · exact .pure (.refl safe) sound
    · refine Meets.get_bind ?_
      simp only
      split
      · exact newString_meets _ safe
      · exact .throw (.refl safe) Error.noConfusion

theorem toStringValue_meets {h : Heap} (safe : h.Safe) (sound : h.Sound v) :
    Meets (toStringValue v) h (Grown h) fun w s => s.Sound w := by
  unfold toStringValue
  split
  · exact .pure (.refl safe) sound
  · exact Meets.get_bind (newString_meets _ safe)

theorem listPush_opened {h₀ s : Heap} {list : ListObject} (opened : Opened h₀ s) (fresh : ¬ h₀.Survives r)
    (present : s.object? r = some (.list list)) (open_ : list.frozen = false) (sound : s.Sound item) :
    ∃ t, Meets (listPush (.list r) item) s (Opened h₀) (fun _ t' => t' = t) ∧ Touched s t r (.list (list.push item)) := by
  obtain ⟨t,result,touched,steps⟩ := updateList_result (·.push item) present open_
  have edited : Edited s t := by
    refine touched.edited opened.safe steps present (fun v fits => by cases fits; exact .list) ?_
    intro v refers
    cases refers with
    | item member =>
        rcases Array.mem_push.mp member with before | rfl
        · exact opened.safe.item present before
        · exact sound
  refine ⟨t,?_,touched⟩
  rw [Meets,listPush,result]
  exact ⟨opened.touch touched fresh edited,rfl⟩

theorem pushStrings_meets {h₀ s : Heap} {list : ListObject} (pieces : List String) (opened : Opened h₀ s)
    (fresh : ¬ h₀.Survives r) (held : .list r ∈ s.shadow) (present : s.object? r = some (.list list))
    (open_ : list.frozen = false) : Meets (pushStrings (.list r) pieces) s (Opened h₀) fun _ t => t.Sound (.list r) := by
  induction pieces generalizing s list with
  | nil => exact .pure opened (sound_list present)
  | cons piece rest ih =>
      have made : Meets (newString piece) s (Opened h₀) fun item t => Grown s t ∧ t.Sound item :=
        (newString_meets piece opened.safe).since fun _ grown => opened.trans grown.opened
      refine made.bind ?_
      rintro item t made ⟨grown,sound⟩
      have kept := opened.safe.root_kept (.shadow held)
      have still : t.object? r = some (.list list) := by rw [grown.extension.objects r (kept.2 r rfl)]; exact present
      obtain ⟨u,pushed,touched⟩ := listPush_opened made fresh still open_ sound
      refine pushed.bind ?_
      rintro _ _ opened' rfl
      refine ih opened' ?_ touched.here open_
      rw [touched.roots.shadow,grown.balanced.shadow]
      exact held

theorem stringSplit_meets {h : Heap} (v delimiter : Value) (safe : h.Safe) :
    Meets (stringSplit v delimiter) h (Grown h) fun w s => s.Sound w := by
  refine textOf_bind safe fun text => textOf_bind safe fun pattern => ?_
  refine Meets.bind (newListOf_meets _ safe (by simp)) ?_
  rintro _ s grown ⟨r,rfl,present,fresh⟩
  have opened := grown.pushScope.trans (protect_opened (pushScope_safe grown.safe) (sound_list (r := r) present))
  have filled := pushStrings_meets (Text.split text pattern) opened (pushScope_fresh fresh) List.mem_cons_self present rfl
  have whole : Meets (inScope do modify (·.protect (.list r)); pushStrings (.list r) (Text.split text pattern)) s (Grown h)
      fun _ t => t.Sound (.list r) :=
    inScope_meets (Meets.modify_bind (filled.mono (fun t inner => inner.close safe) fun _ t _ sound => sound.popScope))
  exact whole.bind fun _ t grown' sound => .pure grown' sound

theorem expectItems_bind {h : Heap} {make : Array Value → HeapM Value} (safe : h.Safe) (kept : h.Kept v)
    (makes : ∀ items, (∀ item ∈ items, h.Kept item) → Meets (make items) h (Grown h) fun w s => s.Sound w) :
    Meets (fun h => match h.expectItems v with | .error e => .error e h | .ok items => make items h) h (Grown h)
      fun w s => s.Sound w := by
  simp only [Meets,expectItems]
  cases found : h.items? v with
  | none => exact ⟨Error.noConfusion,.refl safe⟩
  | some items => exact makes items (safe.closed_kept.items kept found)

theorem listSlice_meets {h : Heap} (start stop : Int32) (safe : h.Safe) (kept : h.Kept v) :
    Meets (listSlice v start stop) h (Grown h) fun w s => s.Sound w := by
  refine expectItems_bind safe kept fun items each => listOf_meets _ safe fun item member => each item ?_
  obtain ⟨i,found⟩ := Array.mem_iff_getElem?.mp member
  rw [Array.getElem?_extract] at found
  split at found
  · exact Array.mem_of_getElem? found
  · cases found

theorem listConcat_meets {h : Heap} (safe : h.Safe) (left : h.Kept a) (right : h.Kept b) :
    Meets (listConcat a b) h (Grown h) fun w s => s.Sound w := by
  have second : ∀ item ∈ (h.items? b).getD #[], h.Kept item := by
    cases found : h.items? b with
    | none => simp
    | some items => exact safe.closed_kept.items right found
  refine expectItems_bind safe left fun items first => ?_
  refine (listOf_meets (Capacity.grown items.size (items.size + ((h.items? b).getD #[]).size)) safe fun item member => ?_ :
    Meets (newListOf (items ++ (h.items? b).getD #[]) _) h (Grown h) fun w s => s.Sound w)
  rcases Array.mem_append.mp member with here | there
  · exact first item here
  · exact second item there

theorem mapKeys_meets {h : Heap} (safe : h.Safe) (kept : h.Kept v) :
    Meets (mapKeys v) h (Grown h) fun w s => s.Sound w := by
  have made := @listOf_meets h ((h.mapEntries v).map Prod.fst).toArray (h.entryRoom v) safe fun item member => by
    obtain ⟨entry,listed,rfl⟩ := List.mem_map.mp (List.mem_toArray.mp member)
    exact (safe.closed_kept.entries kept listed).1
  unfold Meets mapKeys
  exact made

theorem mapValues_meets {h : Heap} (safe : h.Safe) (kept : h.Kept v) :
    Meets (mapValues v) h (Grown h) fun w s => s.Sound w := by
  have made := @listOf_meets h ((h.mapEntries v).map Prod.snd).toArray (h.entryRoom v) safe fun item member => by
    obtain ⟨entry,listed,rfl⟩ := List.mem_map.mp (List.mem_toArray.mp member)
    exact (safe.closed_kept.entries kept listed).2
  unfold Meets mapValues
  exact made

theorem mapCopy_meets {h : Heap} (safe : h.Safe) (kept : h.Kept v) :
    Meets (mapCopy v) h (Grown h) fun w s => s.Sound w := by
  have made := newMap_meets (((h.mapEntries v).length * 4 + 2) / 3 + 1) safe
  simp only [Meets,mapCopy] at made ⊢
  cases result : newMap (((h.mapEntries v).length * 4 + 2) / 3 + 1) h with
  | error e s => simpa only [result] using made
  | ok copy s =>
      rw [result] at made
      obtain ⟨grown,r,rfl,present,fresh⟩ := made
      have handle : s.mapHandle (.map r) = .ok r := by simp [mapHandle,isLive,present]
      obtain ⟨table,touched,edited⟩ := storeAll_edited (h.mapEntries v) grown.safe present fun key value member =>
        have entry := safe.closed_kept.entries kept member
        ⟨(grown.extension.kept entry.1).1,(grown.extension.kept entry.2).1⟩
      simp only [handle]
      refine ⟨⟨edited.safe,touched.extends grown.extension fresh,?_⟩,sound_map touched.here⟩
      exact grown.balanced.trans touched.roots.balanced

theorem setAll_meets {h : Heap} (entries : List (Value × Value)) (safe : h.Safe) (sound : h.Sound out)
    (each : ∀ key value, (key,value) ∈ entries → h.Sound key ∧ h.Sound value) :
    Meets (setAll out entries) h (Edited h) fun _ _ => True := by
  induction entries generalizing h with
  | nil => exact .pure (.refl safe) trivial
  | cons entry rest ih =>
      have known := each entry.1 entry.2 List.mem_cons_self
      refine Meets.bind (mapSet_meets safe sound known.1 known.2) fun _ s edited _ => ?_
      refine (ih edited.safe (edited.sound _ sound) fun key value member => ?_).mono
        (fun _ later => edited.trans later) fun _ _ _ _ => trivial
      have later := each key value (List.mem_cons_of_mem _ member)
      exact ⟨edited.sound _ later.1,edited.sound _ later.2⟩

theorem mapMerge_meets {h : Heap} (safe : h.Safe) (left : h.Kept a) (right : h.Kept b) :
    Meets (mapMerge a b) h (Continues h) fun w s => s.Sound w := by
  have copied : Meets (mapCopy a) h (Continues h) fun out s => Grown h s ∧ s.Sound out :=
    (mapCopy_meets safe left).since fun _ grown => grown.continues
  refine copied.bind ?_
  rintro out s _ ⟨grown,sound⟩
  have inner := pushScope_safe grown.safe
  have sound' : s.pushScope.Sound out := sound.move fun _ => rfl
  have opened := grown.pushScope.trans (protect_opened inner sound')
  have merged := setAll_meets ((s.pushScope.protect out).mapEntries b) opened.safe (sound'.move fun _ => rfl)
    fun key value member =>
    opened.safe.closed_sound.entries (opened.within.sound b ((pushScope_extends h).kept right)) member
  have whole : Meets (inScope do modify (·.protect out); setAll out ((← get).mapEntries b)) s (Continues h)
      fun _ t => t.Sound out := by
    refine inScope_meets (Meets.modify_bind (Meets.get_bind ?_))
    refine merged.mono (fun t edited => (opened.within.edited edited).close safe) fun _ t edited _ => ?_
    exact (edited.sound out (sound'.move fun _ => rfl)).popScope
  exact whole.bind fun _ t within sound => .pure within sound

end RegisterMachine.Heap
