import RegisterMachine.Proofs.Heap.Limit

namespace RegisterMachine.Heap

-- A later heap that spares what there was and is not led beyond the limit.
structure Frugal (h h' : Heap) : Prop extends Spared h h', Confined h h'

theorem Frugal.refl {h : Heap} (intact : h.Intact) : Frugal h h := ⟨.refl intact,.refl h⟩

theorem Frugal.trans (first : Frugal h h') (second : Frugal h' h'') : Frugal h h'' :=
  ⟨first.toSpared.trans second.toSpared,first.toConfined.trans second.toConfined⟩

theorem Concludes.frugal {operation : HeapM α} {post : α → Heap → Prop} (concludes : Concludes operation h (Spared h) post)
    (confined : Confined h (Heap.after operation h)) : Concludes operation h (Frugal h) post := by
  unfold Concludes at concludes ⊢
  unfold Heap.after at confined
  cases done : operation h with
  | ok a s =>
      simp only [done] at concludes confined ⊢
      exact ⟨⟨concludes.1,confined⟩,concludes.2⟩
  | error e s =>
      simp only [done] at concludes confined ⊢
      exact ⟨concludes,confined⟩

theorem protect_frugal {h : Heap} (intact : h.Intact) (v : Value) : Frugal h (h.protect v) :=
  ⟨protect_spared intact v,.smaller (.apart (protect_apart h v)) (Nat.le_refl _)⟩

theorem Confined.close {h s : Heap} (confined : Confined h.pushScope s) : Confined h s.popScope := by
  have opened : Confined h h.pushScope := .smaller (.apart (pushScope_apart h)) (Nat.le_refl _)
  have closed : Confined s s.popScope := .smaller (.apart (popScope_apart s)) (Nat.le_of_eq (popScope_apart s).bytes)
  exact (opened.trans confined).trans closed

theorem Frugal.pushScope {h s : Heap} (frugal : Frugal h s) (balanced : Balanced h s) : Frugal h.pushScope s.pushScope := by
  have closed : Confined h.pushScope h := .smaller (.apart (by constructor <;> rfl)) (Nat.le_refl _)
  have opened : Confined s s.pushScope := .smaller (.apart (pushScope_apart s)) (Nat.le_refl _)
  exact ⟨frugal.toSpared.pushScope balanced,(closed.trans frugal.toConfined).trans opened⟩

theorem inScope_frugal {operation : HeapM α} {h s : Heap}
    (concludes : Concludes operation s.pushScope (Frugal h.pushScope) fun _ _ => True) :
    Concludes (inScope operation) s (Frugal h) fun _ _ => True := by
  simp only [Concludes,Heap.inScope] at concludes ⊢
  cases done : operation s.pushScope with
  | ok a t =>
      simp only [done] at concludes ⊢
      exact ⟨⟨concludes.1.toSpared.close,concludes.1.toConfined.close⟩,trivial⟩
  | error e t =>
      simp only [done] at concludes ⊢
      exact ⟨concludes.toSpared.close,concludes.toConfined.close⟩

theorem Confines.of_frugal {operation : HeapM α} (performs : Performs (fun _ => True) operation)
    (frugal : ∀ h : Heap, h.Intact → Concludes operation h (Frugal h) fun _ _ => True) : Confines operation :=
  fun h => ⟨(performs h (.all h)).steps,fun intact => (frugal h intact).after.bytes intact⟩

-- A protected list, made since the start, with room for some more items.
structure Roomy (h₀ s : Heap) (r : Handle) (more : Nat) : Prop where
  fresh : ¬ h₀.Survives r
  held : .list r ∈ s.shadow
  list : ∃ list, s.object? r = some (.list list) ∧ list.frozen = false ∧ list.items.size + more ≤ list.capacity

theorem Roomy.later (roomy : Roomy h₀ s r more) (spared : Spared s t) : Roomy h₀ t r more := by
  obtain ⟨list,present,open_,room⟩ := roomy.list
  exact ⟨roomy.fresh,spared.extension.shadow roomy.held,list,spared.held roomy.held rfl present,open_,room⟩

theorem Roomy.push {h₀ s : Heap} (roomy : Roomy h₀ s r (more + 1)) (frugal : Frugal h₀ s) (item : Value) :
    Concludes (listPush (.list r) item) s (Frugal h₀) fun _ t => Roomy h₀ t r more := by
  obtain ⟨list,present,open_,room⟩ := roomy.list
  have accepted : s.writableList (.list r) = .ok r := by simp [writableList,listHandle,isLive,list?,present,open_]
  have touched := modifyList_touched (·.push item) present
  have same : (list.push item).capacity = list.capacity := by
    simp only [ListObject.push,Capacity.grown,Array.size_push]
    rw [if_pos (by omega)]
  have pushed : listPush (.list r) item s = .ok () (s.modifyList r (·.push item)) := by
    simp only [listPush,updateList,accepted,listCapacity,list?,present,touched.here,same,if_true]
  have steps := modifyList_steps s r (·.push item)
  rw [Concludes,pushed]
  refine ⟨⟨frugal.toSpared.touch touched roomy.fresh steps,frugal.toConfined.trans (.smaller steps (Nat.le_refl _))⟩,roomy.fresh,?_,
    _,touched.here,open_,?_⟩
  · rw [touched.roots.shadow]
    exact roomy.held
  · rw [same,ListObject.push,Array.size_push]
    omega

theorem pushStrings_frugal {h₀ s : Heap} (pieces : List String) (roomy : Roomy h₀ s r pieces.length) (frugal : Frugal h₀ s) :
    Concludes (pushStrings (.list r) pieces) s (Frugal h₀) fun _ _ => True := by
  induction pieces generalizing s with
  | nil => exact .pure frugal trivial
  | cons piece rest ih =>
      have made := (newString_spares piece s frugal.intact).frugal (newString_confines piece s)
      refine (made.since fun _ later => frugal.trans later).bind ?_
      intro item t whole made
      exact ((roomy.later made.1.toSpared).push whole item).bind fun _ u pushed roomy' => ih roomy' pushed

theorem stringSplit_confines (v delimiter : Value) : Confines (stringSplit v delimiter) := by
  refine (textOf_confines v).bind fun text => (textOf_confines delimiter).bind fun pattern => ?_
  refine .of_frugal ((newListOf_acts _ _).bind fun out => ?_) fun h intact => ?_
  · exact (((protecting_acts out).bind fun _ => pushStrings_acts out _).inScope).bind fun _ => .pure out
  · refine ((newListOf_spared #[] _ intact).frugal (newListOf_confines _ _ h)).bind ?_
    rintro _ s frugal ⟨r,rfl,present,fresh,roots⟩
    have opened := frugal.pushScope roots.balanced
    have inner : Concludes (do modify (·.protect (.list r)); pushStrings (.list r) (Text.split text pattern)) s.pushScope
        (Frugal h.pushScope) fun _ _ => True := by
      refine Concludes.modify_bind (pushStrings_frugal _ ⟨pushScope_fresh fresh,List.mem_cons_self,_,present,rfl,?_⟩ ?_)
      · exact Nat.le_of_eq (Nat.zero_add _)
      · exact opened.trans (protect_frugal opened.intact _)
    exact (inScope_frugal inner).bind fun _ t done _ => .pure done trivial

theorem le_cellsFor (wanted : Nat) : wanted ≤ Table.cellsFor wanted := by
  unfold Table.cellsFor
  split
  · assumption
  · have above : wanted - 1 < Nat.pow 2 ((wanted - 1).log2 + 1) := Nat.lt_log2_self
    omega

theorem store_still {h : Heap} {table : Table} (key value : Value) (present : h.object? r = some (.map table))
    (room : table.needsGrowth = false) : (h.store r key value).bytes = h.bytes := by
  have quiet : h.growsOnInsert (.map r) = false := by simp only [growsOnInsert,table?,present,room]
  unfold store
  simp only [quiet]
  split <;> rfl

theorem stored_room {h : Heap} {table : Table} (key value : Value) (room : table.needsGrowth = false) :
    (h.stored table key value).count ≤ table.count + 1 ∧ (h.stored table key value).cells.size = table.cells.size := by
  unfold stored
  split
  · exact ⟨Nat.le_succ _,Table.size_setValue _ _ _⟩
  · refine ⟨?_,Table.size_insertNew _ room⟩
    simp [Table.insertNew,room]

-- An open map without aliases, made since the start, with room for some more keys.
structure RoomyMap (h₀ s : Heap) (r : Handle) (more : Nat) : Prop where
  fresh : ¬ h₀.Survives r
  map : ∃ table, s.object? r = some (.map table) ∧ table.frozen = false ∧ table.aliases = none ∧
    (table.count + more) * 4 ≤ table.cells.size * 3

theorem RoomyMap.made {h₀ s : Heap} (fresh : ¬ h₀.Survives r) (present : s.object? r = some (.map (.withCapacity wanted)))
    (room : more * 4 ≤ wanted * 3) : RoomyMap h₀ s r more := by
  refine ⟨fresh,_,present,rfl,rfl,?_⟩
  have cells := le_cellsFor wanted
  simp only [Table.withCapacity,Array.size_replicate]
  omega

theorem RoomyMap.mapSet {h₀ s : Heap} (roomy : RoomyMap h₀ s r more) (key value : Value) :
    mapSet (.map r) key value s = .ok () (s.store r key value) := by
  obtain ⟨table,present,open_,plain,_⟩ := roomy.map
  exact mapSet_plain present open_ plain

theorem RoomyMap.store {h₀ s : Heap} (roomy : RoomyMap h₀ s r (more + 1)) (frugal : Frugal h₀ s) (key value : Value) :
    Frugal h₀ (s.store r key value) ∧ RoomyMap h₀ (s.store r key value) r more ∧ SameRoots s (s.store r key value) := by
  obtain ⟨table,present,open_,plain,room⟩ := roomy.map
  have small : table.needsGrowth = false := by
    simp only [Table.needsGrowth,decide_eq_false_iff_not]
    omega
  have touched := store_touched key value present
  have confined : Confined s (s.store r key value) := .smaller (store_steps s r key value) (Nat.le_of_eq (store_still key value present small))
  obtain ⟨frozen,aliases⟩ := @stored_parts s table key value (frugal.intact.table present)
  obtain ⟨count,cells⟩ := @stored_room s table key value small
  refine ⟨⟨store_spared key value frugal.toSpared roomy.fresh present,frugal.toConfined.trans confined⟩,⟨roomy.fresh,_,touched.here,?_,?_,?_⟩,
    touched.roots⟩
  · rw [frozen,open_]
  · rw [aliases,plain]
  · rw [cells]
    omega

theorem RoomyMap.storeAll {h₀ s : Heap} (entries : List (Value × Value)) (roomy : RoomyMap h₀ s r entries.length) (frugal : Frugal h₀ s) :
    Frugal h₀ (s.storeAll r entries) := by
  induction entries generalizing s with
  | nil => exact frugal
  | cons entry rest ih =>
      obtain ⟨stored,roomy',_⟩ := roomy.store frugal entry.1 entry.2
      exact ih roomy' stored

theorem mapCopy_confines (v : Value) : Confines (mapCopy v) := by
  refine .of_frugal (mapCopy_makes v).performs fun h intact => ?_
  have made := (newMap_spared (((h.mapEntries v).length * 4 + 2) / 3 + 1) intact).frugal (newMap_confines _ h)
  simp only [Concludes,mapCopy] at made ⊢
  cases done : newMap (((h.mapEntries v).length * 4 + 2) / 3 + 1) h with
  | error e s => simpa only [done] using made
  | ok copy s =>
      simp only [done] at made ⊢
      obtain ⟨frugal,r,rfl,present,fresh,_⟩ := made
      have handle : s.mapHandle (.map r) = .ok r := by simp [mapHandle,isLive,present]
      have roomy : RoomyMap h s r (h.mapEntries v).length := .made fresh present (by omega)
      simp only [handle]
      exact ⟨roomy.storeAll _ frugal,trivial⟩

def CopyFrugal (copy : Value → Copies → HeapM (Value × Copies)) : Prop :=
  ∀ v copies h, h.Intact → Concludes (copy v copies) h (Frugal h) fun _ _ => True

theorem copyItems_frugal {copy : Value → Copies → HeapM (Value × Copies)} {h₀ s : Heap} (copying : CopyFrugal copy) (items : List Value)
    (roomy : Roomy h₀ s r items.length) (frugal : Frugal h₀ s) :
    Concludes (copyItems copy (.list r) items copies) s (Frugal h₀) fun _ _ => True := by
  induction items generalizing s copies with
  | nil => exact .pure frugal trivial
  | cons item rest ih =>
      refine ((copying item copies s frugal.intact).since fun _ later => frugal.trans later).bind ?_
      intro copied t whole made
      exact ((roomy.later made.1.toSpared).push whole _).bind fun _ u pushed roomy' => ih roomy' pushed

theorem copyEntries_frugal {copy : Value → Copies → HeapM (Value × Copies)} {h₀ s : Heap} (copying : CopyFrugal copy)
    (entries : List (Value × Value)) (roomy : RoomyMap h₀ s r entries.length) (held : .map r ∈ s.shadow) (frugal : Frugal h₀ s) :
    Concludes (copyEntries copy (.map r) entries copies) s (Frugal h₀) fun _ _ => True := by
  induction entries generalizing s copies with
  | nil => exact .pure frugal trivial
  | cons entry rest ih =>
      refine ((copying entry.1 copies s frugal.intact).since fun _ later => frugal.trans later).bind ?_
      intro key t whole first
      have protected_ := protect_frugal whole.intact key.1
      refine Concludes.modify_bind (((copying entry.2 key.2 (t.protect key.1) protected_.intact).since
        fun _ later => (whole.trans protected_).trans later).bind ?_)
      intro value u total second
      have since : Spared s u := first.1.toSpared.trans (protected_.toSpared.trans second.1.toSpared)
      obtain ⟨table,present,rest'⟩ := roomy.map
      have roomy' : RoomyMap h₀ u r (rest.length + 1) := ⟨roomy.fresh,table,since.held held rfl present,rest'⟩
      obtain ⟨stored,left,roots⟩ := roomy'.store total key.1 value.1
      have set : Concludes (mapSet (.map r) key.1 value.1) u (Frugal h₀) fun _ w => w = u.store r key.1 value.1 := by
        rw [Concludes,roomy'.mapSet]
        exact ⟨stored,rfl⟩
      refine set.bind ?_
      rintro _ _ _ rfl
      refine ih left ?_ stored
      rw [roots.shadow]
      exact since.extension.shadow held

theorem copyDeep_frugal (levels : Nat) : CopyFrugal (copyDeep levels) := by
  induction levels with
  | zero =>
      intro v copies h intact
      rw [copyDeep_zero]
      exact .pure (.refl intact) trivial
  | succ levels ih =>
      intro v copies h intact
      cases v with
      | list r =>
          rw [copyDeep_list]
          split
          · exact .pure (.refl intact) trivial
          · refine Concludes.get_bind (((newListOf_spared #[] _ intact).frugal (newListOf_confines _ _ h)).bind ?_)
            rintro _ s frugal ⟨q,rfl,present,fresh,_⟩
            have protected_ := frugal.trans (protect_frugal frugal.intact (.list q))
            have roomy : Roomy h (s.protect (.list q)) q ((h.items? (.list r)).getD #[]).toList.length :=
              ⟨fresh,List.mem_cons_self,_,present,rfl,Nat.le_of_eq (Nat.zero_add _)⟩
            exact Concludes.modify_bind ((copyItems_frugal ih _ roomy protected_).bind fun _ t done _ => .pure done trivial)
      | map r =>
          rw [copyDeep_map]
          split
          · exact .pure (.refl intact) trivial
          · refine Concludes.get_bind (((newMap_spared _ intact).frugal (newMap_confines _ h)).bind ?_)
            rintro _ s frugal ⟨q,rfl,present,fresh,_⟩
            have protected_ := frugal.trans (protect_frugal frugal.intact (.map q))
            have roomy : RoomyMap h (s.protect (.map q)) q (h.mapEntries (.map r)).length := .made fresh present (by omega)
            exact Concludes.modify_bind ((copyEntries_frugal ih _ roomy List.mem_cons_self protected_).bind
              fun _ t done _ => .pure done trivial)
      | null | int | double | short => rw [copyDeep_plain _ _ rfl]; exact .pure (.refl intact) trivial
      | str r | funcRef r => rw [copyDeep_leaf (r := r) _ _ (by simp)]; exact .pure (.refl intact) trivial

theorem freeze_confined (h : Heap) (v : Value) : Confined h (h.freeze v) := .smaller (freeze_steps h v) (Nat.le_refl _)

theorem frozenCopy_confines (v : Value) : Confines (frozenCopy v) := by
  refine .get_bind fun h => ?_
  have copying : Confines (inScope (copyDeep (h.slots.size + 2) v [])) := by
    refine .of_frugal ?_ fun s intact => inScope_frugal (copyDeep_frugal _ v [] _ (pushScope_intact intact))
    exact (copyDeep_acts _ v [] (by simp [Bare])).inScope
  refine copying.bind fun copied => ?_
  have frozen : Confines (modify (·.freeze copied.1) : HeapM PUnit) := fun s => freeze_confined s copied.1
  exact frozen.bind fun _ => .pure copied.1

theorem add_confines (a b : Value) (apart : (a.isMap && b.isMap) = false) : Confines (add a b) := by
  unfold add
  split
  · exact .pure _
  · exact listConcat_confines _ _
  · cases apart
  · split
    · exact .pure _
    · split
      · exact stringConcat_confines _ _
      · split
        · exact (newString_confines _).bind fun right => stringConcat_confines _ _
        · split
          · exact (newString_confines _).bind fun left => stringConcat_confines _ _
          · split
            · exact .pure _
            · exact .pure _

-- Beyond a bound by no more than the charge of one slot.
def Overgrown (bound i : Nat) (h : Heap) : Prop := h.bytes ≤ bound + (h.slotAt i).charge

-- An operation under which no other slot takes the heap further beyond a bound.
def Overgrows (bound i : Nat) (operation : HeapM α) : Prop := ∀ h, Overgrown bound i h → Overgrown bound i (after operation h)

theorem Overgrown.of_le (within : h.bytes ≤ bound) (i : Nat) : Overgrown bound i h := within.trans (Nat.le_add_right _ _)

theorem Overgrown.slots (grown : Overgrown bound i h) (slots : h'.slots = h.slots) (bytes : h'.bytes = h.bytes) : Overgrown bound i h' := by
  rwa [Overgrown,bytes,slotAt,slots]

theorem Overgrown.modifyObject (grown : Overgrown bound i h) (r : Handle) (change : Object → Object) :
    Overgrown bound i (h.modifyObject r change) := by
  unfold Overgrown at grown ⊢
  rw [modifyObject_slotAt]
  split <;> exact grown

theorem Overgrown.recharge (grown : Overgrown bound r.index h) : Overgrown bound r.index (h.recharge r) := by
  rcases recharge_cases h r with ⟨same,_⟩ | ⟨slot,object,present,_,_,bytes,_,here,_⟩
  · rwa [same]
  · unfold Overgrown at grown ⊢
    rw [slotAt_some present] at grown
    rw [bytes,here]
    dsimp only
    omega

theorem Overgrown.store (grown : Overgrown bound r.index h) (key value : Value) : Overgrown bound r.index (h.store r key value) := by
  unfold Heap.store
  simp only
  split
  · exact grown.modifyObject r _
  · split
    · exact (grown.modifyObject r _).recharge
    · exact grown.modifyObject r _

theorem Overgrown.storeAll (entries : List (Value × Value)) (grown : Overgrown bound r.index h) :
    Overgrown bound r.index (h.storeAll r entries) := by
  induction entries generalizing h with
  | nil => exact grown
  | cons entry rest ih => exact ih (grown.store entry.1 entry.2)

namespace Overgrows

theorem bind {first : HeapM α} {rest : α → HeapM β} (overgrows : Overgrows bound i first) (follows : ∀ a, Overgrows bound i (rest a)) :
    Overgrows bound i (first >>= rest) := by
  intro h grown
  have start := overgrows h grown
  rcases after_bind first rest h with stopped | ⟨a,_,next⟩
  · rw [stopped]
    exact start
  · rw [next]
    exact follows a _ start

theorem inScope {operation : HeapM α} (overgrows : Overgrows bound i operation) : Overgrows bound i (inScope operation) := by
  intro h grown
  have inside := overgrows h.pushScope grown
  rw [after_inScope]
  exact inside.slots (popScope_apart _).slots (popScope_apart _).bytes

end Overgrows

-- The slot that a container stands in.
def slotOf (v : Value) : Nat := (v.handle?.map Handle.index).getD 0

theorem updateList_overgrows (v : Value) (change : ListObject → ListObject) : Overgrows bound (slotOf v) (updateList v change) := by
  intro h grown
  simp only [after,updateList]
  cases accepted : h.writableList v with
  | error e => exact grown
  | ok r =>
      obtain ⟨rfl,_⟩ := writableList_parts accepted
      simp only
      split
      · exact grown.modifyObject r _
      · exact (grown.modifyObject r _).recharge

theorem listInsert_overgrows (v : Value) (index : Int32) (item : Value) : Overgrows bound (slotOf v) (listInsert v index item) := by
  intro h grown
  rcases after_listInsert v index item h with same | ⟨i,inserted⟩
  · rw [same]
    exact grown
  · rw [inserted]
    exact updateList_overgrows v _ h grown

theorem mapSet_overgrows (v key value : Value) : Overgrows bound (slotOf v) (mapSet v key value) := by
  intro h grown
  simp only [after,mapSet]
  cases accepted : h.writableMap v with
  | error e => exact grown
  | ok r =>
      obtain ⟨rfl,_⟩ := writableMap_parts accepted
      simp only
      cases h.aliasOf? (.map r) key with
      | some register => exact grown
      | none => exact grown.store key value

theorem bindRegister_overgrows (v name : Value) (register : Nat) : Overgrows bound (slotOf v) (bindRegister v name register) := by
  intro h grown
  simp only [after,bindRegister]
  cases accepted : h.mapHandle v with
  | error e => exact grown
  | ok r =>
      obtain ⟨rfl,_⟩ := mapHandle_parts accepted
      cases h.isAliasMap (.map r) && (h.aliasOf? (.map r) name).isNone with
      | true => exact (grown.modifyObject r _).recharge
      | false => exact grown

theorem gather_overgrows (v : Value) : Overgrows bound (slotOf v) (gather v) := by
  intro h grown
  simp only [after,gather]
  cases accepted : h.mapHandle v with
  | error e => exact grown
  | ok r =>
      obtain ⟨rfl,_⟩ := mapHandle_parts accepted
      simp only
      cases (h.table? (.map r)).bind Table.aliases with
      | none => exact grown
      | some aliases => exact (Overgrown.storeAll _ (grown.modifyObject r _)).recharge

theorem setAll_overgrows (out : Value) (entries : List (Value × Value)) : Overgrows bound (slotOf out) (setAll out entries) := by
  induction entries with
  | nil => exact fun _ grown => grown
  | cons entry rest ih => exact (mapSet_overgrows out entry.1 entry.2).bind fun _ => ih

theorem mapMerge_overgrown {h : Heap} (a b : Value) (copied : (after (mapCopy a) h).bytes ≤ bound) :
    ∃ i, Overgrown bound i (after (mapMerge a b) h) := by
  have filling : ∀ out, Overgrows bound (slotOf out) (do
      inScope do
        modify (·.protect out)
        setAll out ((← get).mapEntries b)
      pure out) := by
    intro out
    refine (Overgrows.inScope ?_).bind fun _ _ grown => grown
    exact fun s grown => setAll_overgrows out _ (s.protect out) grown
  unfold mapMerge
  rcases after_bind (mapCopy a) _ h with stopped | ⟨out,_,next⟩
  · rw [stopped]
    exact ⟨0,.of_le copied 0⟩
  · rw [next]
    exact ⟨slotOf out,filling out _ (.of_le copied _)⟩

-- The calls that may make a container grow in place.
def Call.grows : Call → Bool
  | listPush _ _ | listInsert _ _ _ | mapSet _ _ _ | bindRegister _ _ _ | gather _ => true
  | add a b => a.isMap && b.isMap
  | _ => false

theorem Call.confined {call : Call} (apart : call.grows = false) (h : Heap) : Confined h (call.run h) := by
  have still : ∀ {s : Heap}, Apart h s → Confined h s := fun apart => .smaller (.apart apart) (Nat.le_of_eq apart.bytes)
  cases call with
  | listPush | listInsert | mapSet | bindRegister | gather => cases apart
  | protect v => exact still (protect_apart h v)
  | unprotect => exact still (unprotect_apart h)
  | pushScope => exact still (pushScope_apart h)
  | popScope => exact still (popScope_apart h)
  | addRoot v => exact still (addRoot_apart h v)
  | removeRoot id => exact still (removeRoot_apart h id)
  | unregisterCallback id => exact still (unregisterCallback_apart h id)
  | setRoot | registerCallback | disable | enable | setStress | resizeRegisters | setRegisterValue | setRegisterName | assignRegister |
      unassign => exact still (by constructor <;> rfl)
  | collect => exact .smaller (.single .collect) (collect_bytes_le h)
  | intern text => exact interning_confines text h
  | newString text => exact newString_confines text h
  | newFuncRef function outer => exact newFuncRef_confines function outer h
  | newList capacity => exact newListOf_confines #[] capacity h
  | newListOf items capacity => exact newListOf_confines items capacity h
  | newMap capacity => exact newMap_confines capacity h
  | newAliasMap first count => exact newAliasMap_confines first count h
  | listSet v index item => exact listSet_confines v index item h
  | listPop v => exact listPop_confines v h
  | listPull v => exact listPull_confines v h
  | listRemove v index => exact listRemove_confines v index h
  | listClear v => exact listClear_confines v h
  | listSlice v => exact expectItems_confines v (fun items => newListOf_confines _ _) h
  | listConcat a b => exact listConcat_confines a b h
  | listCopy v => exact expectItems_confines v (fun items => newListOf_confines _ _) h
  | listSort v byKey => exact listSort_confines v byKey h
  | mapRemove v key => exact mapRemove_confines v key h
  | mapClear v => exact mapClear_confines v h
  | mapKeys v => exact mapKeys_confines v h
  | mapValues v => exact mapValues_confines v h
  | mapCopy v => exact mapCopy_confines v h
  | freeze v => exact freeze_confined h v
  | frozenCopy v => exact frozenCopy_confines v h
  | stringConcat a b => exact stringConcat_confines a b h
  | stringSubstring v start count => exact stringSubstring_confines v start count h
  | stringSlice v start stop => exact stringSlice_confines v start stop h
  | stringReplace v old new => exact stringReplace_confines v old new h
  | stringSplit v delimiter => exact stringSplit_confines v delimiter h
  | mapText change v => exact mapText_confines change v h
  | stringRepeat v times => exact stringRepeat_confines v times h
  | toStringValue v => exact toStringValue_confines v h
  | add a b => exact add_confines a b apart h
  | mult a b => exact mult_confines a b h
  | div a b => exact div_confines a b h

theorem Calls.confined {calls : List Call} (apart : ∀ call ∈ calls, call.grows = false) (h : Heap) : Confined h (calls.foldl Call.run h) := by
  induction calls generalizing h with
  | nil => exact .refl h
  | cons call rest ih =>
      have first := Call.confined (apart call List.mem_cons_self) h
      exact first.trans (ih (fun other member => apart other (List.mem_cons_of_mem _ member)) _)

theorem maps_of_isMap {a b : Value} (maps : (a.isMap && b.isMap) = true) : ∃ r q, a = .map r ∧ b = .map q := by
  cases a with
  | map r =>
      cases b with
      | map q => exact ⟨r,q,rfl,rfl⟩
      | _ => cases maps
  | _ => cases maps

theorem Call.overgrown (call : Call) {h : Heap} (intact : h.Intact) (known : h.config.maxBytes = some limit) :
    ∃ i, Overgrown (max h.bytes limit) i (call.run h) := by
  have start : ∀ i, Overgrown (max h.bytes limit) i h := fun i => .of_le (Nat.le_max_left _ _) i
  cases grows : call.grows with
  | false => exact ⟨0,.of_le ((Call.confined grows h).bytes intact limit known) 0⟩
  | true =>
      cases call with
      | listPush v item => exact ⟨_,updateList_overgrows v _ h (start _)⟩
      | listInsert v index item => exact ⟨_,listInsert_overgrows v index item h (start _)⟩
      | mapSet v key value => exact ⟨_,mapSet_overgrows v key value h (start _)⟩
      | bindRegister v name register => exact ⟨_,bindRegister_overgrows v name register h (start _)⟩
      | gather v => exact ⟨_,gather_overgrows v h (start _)⟩
      | add a b =>
          obtain ⟨r,q,rfl,rfl⟩ := maps_of_isMap grows
          exact mapMerge_overgrown (.map r) (.map q) ((mapCopy_confines (.map r) h).bytes intact limit known)
      | _ => cases grows

-- What holds of a limit on bytes.
structure Limited (limit : Nat) (h : Heap) : Prop where
  -- An allocation fails exactly when the object does not fit after a collection; one that succeeds is within the limit.
  fails : ∀ object e s, allocate object h = .error e s ↔
    e = .outOfMemory object.charge ∧ s = h.collectIfDue.collect.2 ∧ limit < s.bytes + object.charge
  fits : ∀ object r s, allocate object h = .ok r s → s.bytes ≤ limit
  -- Calls that make nothing grow in place do not lead beyond it, however many they are.
  calls : ∀ calls : List Call, (∀ call ∈ calls, call.grows = false) → (calls.foldl Call.run h).bytes ≤ max h.bytes limit
  -- A call that does is not checked: it leads beyond it by no more than the charge of the object that grew.
  grown : ∀ call : Call, ∃ i, (call.run h).bytes ≤ max h.bytes limit + ((call.run h).slotAt i).charge

theorem limit_outgrown {h : Heap} (reachable : Reachable h) (known : h.config.maxBytes = some limit) : h.Limited limit where
  fails := by
    intro object e s
    rw [allocate_error]
    constructor
    · rintro ⟨failed,forced,other,same,grown⟩
      rw [known] at same
      cases same
      exact ⟨failed,forced,grown⟩
    · rintro ⟨failed,forced,grown⟩
      exact ⟨failed,forced,limit,known,grown⟩
  fits := by
    intro object r s made
    obtain ⟨t,swept,⟨_,failed⟩ | ⟨room,done⟩⟩ := allocate_parts object h
    · rw [made] at failed
      cases failed
    · rw [made] at done
      cases done
      exact (allocated_bytes t object).trans_le (room_fits room ((Swept.config swept).symm ▸ known))
  calls := fun calls apart => (Calls.confined apart h).bytes reachable.intact limit known
  grown := fun call => call.overgrown reachable.intact known

-- The first push onto an empty list takes room for four items. It is not refused, and takes the heap from 88 bytes, within a
-- limit of 100, to 152.
theorem limit_outgrown_push : ∃ h : Heap, h.Reachable ∧ h.Limited 100 ∧ h.bytes = 88 ∧
    (∃ s, listPush (.list ⟨0,0⟩) .null h = .ok () s ∧ s.bytes = 152 ∧ (s.slotAt 0).charge = 152) ∧
    ∃ s, allocate (.list ⟨#[],0,false⟩) h = .error (.outOfMemory 88) s := by
  have reachable := Reachable.calls [.newList 0,.protect (.list ⟨0,0⟩)] (.new { maxBytes := some 100 })
  exact ⟨_,reachable,limit_outgrown reachable rfl,by decide +kernel,⟨_,rfl,by decide +kernel,by decide +kernel⟩,⟨_,rfl⟩⟩

-- So calls can take a heap beyond its limit.
theorem limit_not_hard : ¬ ∀ (config : HeapConfig) (limit : Nat) (calls : List Call), config.maxBytes = some limit →
    (calls.foldl Call.run (Heap.new config)).bytes ≤ limit := by
  intro hard
  have beyond := hard { maxBytes := some 100 } 100 [.newList 0,.protect (.list ⟨0,0⟩),.listPush (.list ⟨0,0⟩) (.int 1)] rfl
  revert beyond
  decide +kernel

end RegisterMachine.Heap
