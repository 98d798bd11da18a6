import RegisterMachine.Proofs.Heap.Copying
import RegisterMachine.Proofs.Heap.Reachable

namespace RegisterMachine.Heap

-- However an operation ends, something holds of the heap; of a result, something more.
def Concludes (operation : HeapM α) (h : Heap) (always : Heap → Prop) (post : α → Heap → Prop) : Prop :=
  match operation h with
  | .ok a s => always s ∧ post a s
  | .error _ s => always s

namespace Concludes

variable {always : Heap → Prop}

theorem pure {a : α} {post : α → Heap → Prop} (kept : always h) (held : post a h) : Concludes (Pure.pure a) h always post :=
  ⟨kept,held⟩

theorem bind {first : HeapM α} {rest : α → HeapM β} {middle : α → Heap → Prop} {post : β → Heap → Prop}
    (concludes : Concludes first h always middle) (follows : ∀ a s, always s → middle a s → Concludes (rest a) s always post) :
    Concludes (first >>= rest) h always post := by
  simp only [Concludes,Bind.bind,EStateM.bind] at concludes ⊢
  cases done : first h with
  | ok a s =>
      simp only [done] at concludes
      exact follows a s concludes.1 concludes.2
  | error e s => simpa only [done] using concludes

theorem mono {operation : HeapM α} {always' : Heap → Prop} {post post' : α → Heap → Prop}
    (concludes : Concludes operation h always post) (wider : ∀ s, always s → always' s)
    (weaker : ∀ a s, always s → post a s → post' a s) : Concludes operation h always' post' := by
  unfold Concludes at concludes ⊢
  cases done : operation h with
  | ok a s =>
      simp only [done] at concludes ⊢
      exact ⟨wider s concludes.1,weaker a s concludes.1 concludes.2⟩
  | error e s =>
      simp only [done] at concludes ⊢
      exact wider s concludes

theorem map {operation : HeapM α} {f : α → β} {post : β → Heap → Prop}
    (concludes : Concludes operation h always fun a s => post (f a) s) : Concludes (f <$> operation) h always post := by
  simp only [Concludes,Functor.map,EStateM.map] at concludes ⊢
  cases done : operation h with
  | ok a s => simpa only [done] using concludes
  | error e s => simpa only [done] using concludes

theorem get_bind {rest : Heap → HeapM β} {post : β → Heap → Prop} (follows : Concludes (rest h) h always post) :
    Concludes (MonadState.get >>= rest) h always post := follows

theorem modify_bind {change : Heap → Heap} {rest : PUnit → HeapM β} {post : β → Heap → Prop}
    (follows : Concludes (rest ⟨⟩) (change h) always post) : Concludes (modify change >>= rest) h always post := follows

-- What is known of the heap after an operation, besides.
theorem since {operation : HeapM α} {always' : Heap → Prop} {post : α → Heap → Prop}
    (concludes : Concludes operation h always post) (wider : ∀ s, always s → always' s) :
    Concludes operation h always' fun a s => always s ∧ post a s :=
  concludes.mono wider fun _ _ kept held => ⟨kept,held⟩

theorem after {operation : HeapM α} {post : α → Heap → Prop} (concludes : Concludes operation h always post) :
    always (Heap.after operation h) := by
  unfold Concludes at concludes
  unfold Heap.after
  cases done : operation h with
  | ok a s =>
      simp only [done] at concludes ⊢
      exact concludes.1
  | error e s => simpa only [done] using concludes

theorem ok {operation : HeapM α} {post : α → Heap → Prop} (concludes : Concludes operation h always post)
    (done : operation h = .ok a s) : always s ∧ post a s := by
  simpa only [Concludes,done] using concludes

theorem failed {operation : HeapM α} {post : α → Heap → Prop} (concludes : Concludes operation h always post)
    (failed : operation h = .error e s) : always s := by
  simpa only [Concludes,failed] using concludes

end Concludes

-- A later heap that spares what the earlier one would have kept in a collection.
structure Spared (h h' : Heap) : Prop where
  intact : h'.Intact
  extension : Extends h h'
  nested : Nested h h'

theorem Spared.refl {h : Heap} (intact : h.Intact) : Spared h h := ⟨intact,.refl h,.refl h⟩

theorem Spared.trans (first : Spared h h') (second : Spared h' h'') : Spared h h'' :=
  ⟨second.intact,first.extension.trans second.extension,first.nested.trans second.nested⟩

theorem Spared.touch {object : Object} (spared : Spared h₀ h) (touched : Touched h h' r object) (fresh : ¬ h₀.Survives r)
    (steps : Steps h h') : Spared h₀ h' where
  intact := steps.intact spared.intact
  extension := touched.extends spared.extension fresh
  nested := ⟨touched.roots.scopes.trans spared.nested.scopes,touched.roots.shadow ▸ spared.nested.shadow⟩

theorem Spared.held {object : Object} (spared : Spared h h') (held : v ∈ h.shadow) (handle : v.handle? = some r)
    (present : h.object? r = some object) : h'.object? r = some object := by
  have live : h.isLive r = true := by
    rw [isLive,present]
    rfl
  rw [spared.extension.objects r (Or.inr (.root (.shadow held) handle live))]
  exact present

theorem protect_spared {h : Heap} (intact : h.Intact) (v : Value) : Spared h (h.protect v) where
  intact := (Step.apart (protect_apart h v)).intact intact
  extension := protect_extends h v
  nested := ⟨rfl,List.suffix_cons v h.shadow⟩

theorem pushScope_intact {h : Heap} (intact : h.Intact) : h.pushScope.Intact := (Step.apart (pushScope_apart h)).intact intact

theorem Spared.close {h s : Heap} (spared : Spared h.pushScope s) : Spared h s.popScope := by
  have extension := (pushScope_extends h).trans spared.extension
  have closed := popScope_nested spared.nested
  refine ⟨(Step.apart (popScope_apart s)).intact spared.intact,?_,?_⟩
  · rw [closed]
    exact ⟨extension.registers,extension.roots,extension.freeRoots,extension.callbacks,fun _ member => member,
      extension.objects,extension.immortal⟩
  · rw [closed]
    exact ⟨rfl,List.suffix_refl _⟩

theorem Spared.pushScope {h s : Heap} (spared : Spared h s) (balanced : Balanced h s) : Spared h.pushScope s.pushScope where
  intact := pushScope_intact spared.intact
  extension := ((extends_pushScope h).trans spared.extension).trans (pushScope_extends s)
  nested := by
    constructor
    · simp [Heap.pushScope,balanced.scopes,balanced.shadow]
    · simp [Heap.pushScope,balanced.shadow]

theorem Concludes.inScope {operation : HeapM α} {h s : Heap}
    (concludes : Concludes operation s.pushScope (Spared h.pushScope) fun _ _ => True) :
    Concludes (inScope operation) s (Spared h) fun _ _ => True := by
  simp only [Concludes,Heap.inScope] at concludes ⊢
  cases done : operation s.pushScope with
  | ok a t =>
      simp only [done] at concludes ⊢
      exact ⟨concludes.1.close,trivial⟩
  | error e t =>
      simp only [done] at concludes ⊢
      exact concludes.close

abbrev Spares (operation : HeapM α) : Prop := ∀ h : Heap, h.Intact → Concludes operation h (Spared h) fun _ _ => True

theorem Concludes.spares {operation : HeapM α} {post : α → Heap → Prop} (concludes : Concludes operation h (Spared h) post) :
    Concludes operation h (Spared h) fun _ _ => True :=
  concludes.mono (fun _ kept => kept) fun _ _ _ _ => trivial

theorem Spares.pure (a : α) : Spares (Pure.pure a : HeapM α) := fun _ intact => .pure (.refl intact) trivial

theorem Spares.throw (e : Error) : Spares (MonadExcept.throw e : HeapM α) := fun _ intact => .refl intact

theorem Spares.bind {first : HeapM α} {rest : α → HeapM β} (spares : Spares first) (follows : ∀ a, Spares (rest a)) :
    Spares (first >>= rest) := by
  intro h intact
  refine (spares h intact).bind fun a s spared _ => ?_
  exact (follows a s spared.intact).mono (fun _ later => spared.trans later) fun _ _ _ held => held

theorem Spares.get_bind {rest : Heap → HeapM β} (follows : ∀ h, Spares (rest h)) : Spares (MonadState.get >>= rest) :=
  fun h intact => follows h h intact

theorem Spares.inScope {operation : HeapM α} (spares : Spares operation) : Spares (inScope operation) := by
  intro h intact
  exact Concludes.inScope (spares h.pushScope (pushScope_intact intact))

theorem Swept.spared {h h' : Heap} (swept : Swept h h') (intact : h.Intact) : Spared h h' := by
  induction swept with
  | refl => exact .refl intact
  | @tail s _ _ last ih =>
      subst last
      exact ih.trans ⟨collect_intact ih.intact,collect_extends ih.intact,s.collect_roots.balanced.nested⟩

theorem allocate_spared {h : Heap} {object : Object} (sane : object.Sane) (intact : h.Intact) :
    Concludes (allocate object) h (Spared h) fun r s => s.object? r = some object ∧ ¬ h.Survives r ∧ SameRoots h s := by
  obtain ⟨s,swept,⟨_,failed⟩ | ⟨room,done⟩⟩ := allocate_parts object h
  · rw [Concludes,failed]
    exact Swept.spared swept intact
  · rw [Concludes,done]
    have spared := Swept.spared swept intact
    have installed := allocated_installed spared.intact object
    have roots := allocated_roots s object
    refine ⟨spared.trans ⟨?_,installed.extends spared.intact roots,roots.balanced.nested⟩,installed.object,?_,?_⟩
    · exact (Step.install sane room).intact spared.intact
    · exact spared.extension.fresh (installed.fresh spared.intact)
    · exact (Swept.roots swept).trans roots

theorem newListOf_spared {h : Heap} (items : Array Value) (capacity : Nat) (intact : h.Intact) :
    Concludes (newListOf items capacity) h (Spared h) fun v s =>
      ∃ r, v = .list r ∧ s.object? r = some (.list (.ofItems items capacity)) ∧ ¬ h.Survives r ∧ SameRoots h s := by
  apply Concludes.map
  exact (allocate_spared (sane_list _) intact).mono (fun _ spared => spared) fun r _ _ made => ⟨r,rfl,made⟩

theorem newMap_spared {h : Heap} (capacity : Nat) (intact : h.Intact) :
    Concludes (newMap capacity) h (Spared h) fun v s =>
      ∃ r, v = .map r ∧ s.object? r = some (.map (.withCapacity capacity)) ∧ ¬ h.Survives r ∧ SameRoots h s := by
  apply Concludes.map
  exact (allocate_spared (sane_map (Table.withCapacity_valid _)) intact).mono (fun _ spared => spared) fun r _ _ made => ⟨r,rfl,made⟩

theorem newAliasMap_spares (first count : Nat) : Spares (newAliasMap first count) := by
  intro h intact
  show Concludes (Value.map <$> allocate (.map (aliasTable (h.aliasesFor first count)))) h (Spared h) fun _ _ => True
  apply Concludes.map
  exact (allocate_spared (sane_aliasTable _) intact).spares

theorem newFuncRef_spares (function : Nat) (outer : Value) : Spares (newFuncRef function outer) := by
  intro h intact
  apply Concludes.map
  exact (allocate_spared (sane_funcRef _) intact).spares

theorem intern_spared {h : Heap} (text : String) (intact : h.Intact) : Spared h (h.intern text).2 := by
  refine ⟨intern_intact text intact,?_,?_⟩
  · rcases intern_cases text intact with ⟨t,_,made⟩ | ⟨r,_,made⟩ | ⟨r,h',made,installed,roots,_⟩
    · rw [made]
      exact .refl h
    · rw [made]
      exact .refl h
    · rw [made]
      exact installed.extends intact roots
  · rcases intern_cases text intact with ⟨t,_,made⟩ | ⟨r,_,made⟩ | ⟨r,h',made,installed,roots,_⟩
    · rw [made]
      exact .refl h
    · rw [made]
      exact .refl h
    · rw [made]
      exact roots.balanced.nested

theorem newString_spares (text : String) : Spares (newString text) := by
  unfold newString
  split
  · exact .pure _
  · split
    · exact fun h intact => ⟨intern_spared text intact,trivial⟩
    · rename_i long
      intro h intact
      apply Concludes.map
      exact (allocate_spared (sane_str (Nat.le_of_not_lt long)) intact).spares

theorem reading_spares (read : Heap → Except Error α) : Spares (reading read) := by
  intro h intact
  simp only [Concludes,reading]
  cases read h with
  | ok result => exact ⟨.refl intact,trivial⟩
  | error e => exact .refl intact

theorem updateList_spared {h₀ s : Heap} (change : ListObject → ListObject) (spared : Spared h₀ s) (fresh : ¬ h₀.Survives r) :
    Concludes (updateList (.list r) change) s (Spared h₀) fun _ _ => True := by
  have performs : Performs (fun _ => True) (updateList (.list r) change) := updateList_acts _ change
  have steps := (performs s (.all s)).steps
  simp only [Concludes,after,updateList] at steps ⊢
  cases accepted : s.writableList (.list r) with
  | error e => exact spared
  | ok q =>
      obtain ⟨same,_,list,present⟩ := writableList_parts accepted
      cases same
      simp only [accepted] at steps ⊢
      have touched := modifyList_touched change present
      refine ⟨?_,trivial⟩
      split at steps
      · rename_i room
        rw [if_pos room]
        exact spared.touch touched fresh steps
      · rename_i room
        rw [if_neg room]
        exact spared.touch (touched.recharge r) fresh steps

theorem store_spared {h₀ s : Heap} {table : Table} (key value : Value) (spared : Spared h₀ s) (fresh : ¬ h₀.Survives r)
    (present : s.object? r = some (.map table)) : Spared h₀ (s.store r key value) :=
  spared.touch (store_touched key value present) fresh (store_steps s r key value)

theorem stringConcat_spares (a b : Value) : Spares (stringConcat a b) := by
  refine (reading_spares _).bind fun left => (reading_spares _).bind fun right => ?_
  split
  · exact .pure a
  · split
    · exact .pure b
    · exact newString_spares _

theorem stringSubstring_spares (v : Value) (start count : Int32) : Spares (stringSubstring v start count) := by
  refine (reading_spares _).bind fun text => ?_
  dsimp only
  split
  · exact .pure v
  · exact newString_spares _

theorem stringSlice_spares (v : Value) (start stop : Int32) : Spares (stringSlice v start stop) := by
  refine .get_bind fun h => ?_
  dsimp only
  split
  · exact newString_spares _
  · exact stringSubstring_spares _ _ _

theorem stringReplace_spares (v old new : Value) : Spares (stringReplace v old new) := by
  refine (reading_spares _).bind fun text => (reading_spares _).bind fun pattern => (reading_spares _).bind fun replacement => ?_
  split
  · exact .pure v
  · exact newString_spares _

theorem mapText_spares (change : String → String) (v : Value) : Spares (mapText change v) := by
  refine (reading_spares _).bind fun text => ?_
  dsimp only
  split
  · exact .pure v
  · exact newString_spares _

theorem stringRepeat_spares (v : Value) (times : Double) : Spares (stringRepeat v times) := by
  refine (reading_spares _).bind fun text => ?_
  split
  · exact newString_spares _
  · split
    · exact .pure v
    · refine .get_bind fun h => ?_
      dsimp only
      split
      · exact newString_spares _
      · exact .throw _

theorem toStringValue_spares (v : Value) : Spares (toStringValue v) := by
  unfold toStringValue
  split
  · exact .pure v
  · exact .get_bind fun h => newString_spares _

theorem pushStrings_spared {h₀ s : Heap} (pieces : List String) (spared : Spared h₀ s) (fresh : ¬ h₀.Survives r) :
    Concludes (pushStrings (.list r) pieces) s (Spared h₀) fun _ _ => True := by
  induction pieces generalizing s with
  | nil => exact .pure spared trivial
  | cons piece rest ih =>
      refine ((newString_spares piece s spared.intact).mono (fun _ later => spared.trans later) fun _ _ _ held => held).bind ?_
      intro item t made _
      exact (updateList_spared _ made fresh).bind fun _ u pushed _ => ih pushed

theorem stringSplit_spares (v delimiter : Value) : Spares (stringSplit v delimiter) := by
  refine (reading_spares _).bind fun text => (reading_spares _).bind fun pattern => ?_
  intro h intact
  refine (newListOf_spared _ _ intact).bind ?_
  rintro _ s spared ⟨r,rfl,_,fresh,roots⟩
  have inner : Concludes (do modify (·.protect (.list r)); pushStrings (.list r) (Text.split text pattern)) s.pushScope
      (Spared h.pushScope) fun _ _ => True := by
    have opened := spared.pushScope roots.balanced
    refine Concludes.modify_bind (pushStrings_spared _ ?_ (pushScope_fresh fresh))
    exact opened.trans (protect_spared opened.intact _)
  exact (Concludes.inScope inner).bind fun _ t done _ => .pure done trivial

theorem expectItems_spares {make : Array Value → HeapM Value} (v : Value) (spares : ∀ items, Spares (make items)) :
    Spares fun h => match h.expectItems v with | .error e => .error e h | .ok items => make items h := by
  intro h intact
  simp only [Concludes]
  cases h.expectItems v with
  | error e => exact .refl intact
  | ok items => exact spares items h intact

theorem newListOf_spares (items : Array Value) (capacity : Nat) : Spares (newListOf items capacity) :=
  fun _ intact => (newListOf_spared items capacity intact).spares

theorem listConcat_spares (a b : Value) : Spares (listConcat a b) := by
  intro h intact
  simp only [Concludes,listConcat]
  cases h.expectItems a with
  | error e => exact .refl intact
  | ok items => exact newListOf_spares _ _ h intact

theorem newMap_spares (capacity : Nat) : Spares (newMap capacity) := fun _ intact => (newMap_spared capacity intact).spares

-- An open map without aliases, made since the start.
structure Blank (h₀ s : Heap) (r : Handle) : Prop where
  fresh : ¬ h₀.Survives r
  map : ∃ table, s.object? r = some (.map table) ∧ table.frozen = false ∧ table.aliases = none

theorem Blank.store {h₀ s : Heap} (blank : Blank h₀ s r) (key value : Value) (spared : Spared h₀ s) :
    Spared h₀ (s.store r key value) ∧ Blank h₀ (s.store r key value) r ∧ SameRoots s (s.store r key value) := by
  obtain ⟨table,present,open_,plain⟩ := blank.map
  have touched := store_touched key value present
  obtain ⟨frozen,aliases⟩ := @stored_parts s table key value (spared.intact.table present)
  refine ⟨store_spared key value spared blank.fresh present,⟨blank.fresh,_,touched.here,?_,?_⟩,touched.roots⟩
  · rw [frozen,open_]
  · rw [aliases,plain]

theorem Blank.mapSet {h₀ s : Heap} (blank : Blank h₀ s r) (key value : Value) : mapSet (.map r) key value s = .ok () (s.store r key value) := by
  obtain ⟨table,present,open_,plain⟩ := blank.map
  exact mapSet_plain present open_ plain

theorem Blank.storeAll {h₀ s : Heap} (blank : Blank h₀ s r) (entries : List (Value × Value)) (spared : Spared h₀ s) :
    Spared h₀ (s.storeAll r entries) ∧ Blank h₀ (s.storeAll r entries) r ∧ SameRoots s (s.storeAll r entries) := by
  induction entries generalizing s with
  | nil => exact ⟨spared,blank,.refl s⟩
  | cons entry rest ih =>
      obtain ⟨spared',blank',roots⟩ := blank.store entry.1 entry.2 spared
      obtain ⟨whole,filled,later⟩ := ih blank' spared'
      exact ⟨whole,filled,roots.trans later⟩

theorem Blank.setAll {h₀ s : Heap} (blank : Blank h₀ s r) (entries : List (Value × Value)) (spared : Spared h₀ s) :
    Concludes (setAll (.map r) entries) s (Spared h₀) fun _ _ => True := by
  induction entries generalizing s with
  | nil => exact .pure spared trivial
  | cons entry rest ih =>
      obtain ⟨spared',blank',_⟩ := blank.store entry.1 entry.2 spared
      have set : Concludes (Heap.mapSet (.map r) entry.1 entry.2) s (Spared h₀) fun _ t => t = s.store r entry.1 entry.2 := by
        rw [Concludes,blank.mapSet]
        exact ⟨spared',rfl⟩
      refine set.bind ?_
      rintro _ _ _ rfl
      exact ih blank' spared'

theorem mapCopy_spared {h : Heap} (v : Value) (intact : h.Intact) :
    Concludes (mapCopy v) h (Spared h) fun w s => ∃ r, w = .map r ∧ Blank h s r ∧ SameRoots h s := by
  have made := newMap_spared (((h.mapEntries v).length * 4 + 2) / 3 + 1) intact
  simp only [Concludes,mapCopy] at made ⊢
  cases done : newMap (((h.mapEntries v).length * 4 + 2) / 3 + 1) h with
  | error e s => simpa only [done] using made
  | ok copy s =>
      simp only [done] at made ⊢
      obtain ⟨spared,r,rfl,present,fresh,roots⟩ := made
      have blank : Blank h s r := ⟨fresh,_,present,rfl,rfl⟩
      have handle : s.mapHandle (.map r) = .ok r := by simp [mapHandle,isLive,present]
      obtain ⟨spared',blank',roots'⟩ := blank.storeAll (h.mapEntries v) spared
      simp only [handle]
      exact ⟨spared',r,rfl,blank',roots.trans roots'⟩

theorem mapMerge_spares (a b : Value) : Spares (mapMerge a b) := by
  intro h intact
  refine (mapCopy_spared a intact).bind ?_
  rintro _ s spared ⟨r,rfl,blank,roots⟩
  have inner : Concludes (do modify (·.protect (.map r)); setAll (.map r) ((← get).mapEntries b)) s.pushScope
      (Spared h.pushScope) fun _ _ => True := by
    have opened := spared.pushScope roots.balanced
    have protected_ := opened.trans (protect_spared opened.intact (.map r))
    exact Concludes.modify_bind (Blank.setAll (s := s.pushScope.protect (.map r)) ⟨pushScope_fresh blank.fresh,blank.map⟩ _ protected_)
  exact (Concludes.inScope inner).bind fun _ t done _ => .pure done trivial

theorem add_spares (a b : Value) : Spares (add a b) := by
  unfold add
  split
  · exact .pure _
  · exact listConcat_spares _ _
  · exact mapMerge_spares _ _
  · split
    · exact .pure _
    · split
      · exact stringConcat_spares _ _
      · split
        · exact (newString_spares _).bind fun right => stringConcat_spares _ _
        · split
          · exact (newString_spares _).bind fun left => stringConcat_spares _ _
          · split
            · exact .pure _
            · exact .pure _

theorem mult_spares (a b : Value) : Spares (mult a b) := by
  unfold mult
  split
  · exact .pure _
  · split
    · exact .pure _
    · split
      · exact stringRepeat_spares _ _
      · exact .pure _

theorem div_spares (a b : Value) : Spares (div a b) := by
  unfold div
  split
  · exact .pure _
  · split
    · exact mult_spares _ _
    · exact .pure _

def CopySpares (copy : Value → Copies → HeapM (Value × Copies)) : Prop := ∀ v copies, Spares (copy v copies)

theorem copyItems_spared {copy : Value → Copies → HeapM (Value × Copies)} {h₀ s : Heap} (spares : CopySpares copy) (items : List Value)
    (spared : Spared h₀ s) (fresh : ¬ h₀.Survives r) :
    Concludes (copyItems copy (.list r) items copies) s (Spared h₀) fun _ _ => True := by
  induction items generalizing s copies with
  | nil => exact .pure spared trivial
  | cons item rest ih =>
      refine ((spares item copies s spared.intact).mono (fun _ later => spared.trans later) fun _ _ _ held => held).bind ?_
      intro copied t copying _
      exact (updateList_spared _ copying fresh).bind fun _ u pushed _ => ih pushed

theorem copyEntries_spared {copy : Value → Copies → HeapM (Value × Copies)} {h₀ s : Heap} (spares : CopySpares copy)
    (entries : List (Value × Value)) (spared : Spared h₀ s) (blank : Blank h₀ s r) (held : .map r ∈ s.shadow) :
    Concludes (copyEntries copy (.map r) entries copies) s (Spared h₀) fun _ _ => True := by
  induction entries generalizing s copies with
  | nil => exact .pure spared trivial
  | cons entry rest ih =>
      refine ((spares entry.1 copies s spared.intact).since fun _ later => spared.trans later).bind ?_
      intro key t whole first
      refine Concludes.modify_bind ?_
      have protected_ := protect_spared whole.intact key.1
      refine ((spares entry.2 key.2 (t.protect key.1) protected_.intact).since fun _ later => (whole.trans protected_).trans later).bind ?_
      intro value u total second
      have since : Spared s u := first.1.trans (protected_.trans second.1)
      obtain ⟨table,present,open_,plain⟩ := blank.map
      have blank' : Blank h₀ u r := ⟨blank.fresh,table,since.held held rfl present,open_,plain⟩
      obtain ⟨spared',stored,roots⟩ := blank'.store key.1 value.1 total
      have set : Concludes (mapSet (.map r) key.1 value.1) u (Spared h₀) fun _ w => w = u.store r key.1 value.1 := by
        rw [Concludes,blank'.mapSet]
        exact ⟨spared',rfl⟩
      refine set.bind ?_
      rintro _ _ _ rfl
      refine ih spared' stored ?_
      rw [roots.shadow]
      exact since.extension.shadow held

theorem copyDeep_spares (levels : Nat) : CopySpares (copyDeep levels) := by
  induction levels with
  | zero =>
      intro v copies
      rw [copyDeep_zero]
      exact .pure _
  | succ levels ih =>
      intro v copies
      cases v with
      | list r =>
          rw [copyDeep_list]
          split
          · exact .pure _
          · intro h intact
            refine Concludes.get_bind ((newListOf_spared _ _ intact).bind ?_)
            rintro _ s spared ⟨q,rfl,_,fresh,_⟩
            refine Concludes.modify_bind ?_
            have protected_ := spared.trans (protect_spared spared.intact (.list q))
            exact (copyItems_spared ih _ protected_ fresh).bind fun _ t done _ => .pure done trivial
      | map r =>
          rw [copyDeep_map]
          split
          · exact .pure _
          · intro h intact
            refine Concludes.get_bind ((newMap_spared _ intact).bind ?_)
            rintro _ s spared ⟨q,rfl,present,fresh,_⟩
            refine Concludes.modify_bind ?_
            have protected_ := spared.trans (protect_spared spared.intact (.map q))
            have blank : Blank h (s.protect (.map q)) q := ⟨fresh,_,present,rfl,rfl⟩
            exact (copyEntries_spared ih _ protected_ blank List.mem_cons_self).bind fun _ t done _ => .pure done trivial
      | null | int | double | short => rw [copyDeep_plain _ _ rfl]; exact .pure _
      | str r | funcRef r => rw [copyDeep_leaf (r := r) _ _ (by simp)]; exact .pure _

end RegisterMachine.Heap
