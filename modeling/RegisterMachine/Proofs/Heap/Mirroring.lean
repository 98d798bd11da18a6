import RegisterMachine.Proofs.Heap.Mirrors

namespace RegisterMachine.Heap

-- One object exchanged for another by an operation that neither allocates nor collects.
structure Wrote (h h' : Heap) (r : Handle) (object : Object) : Prop extends Touched h h' r object where
  steps : Steps h h'
  interned : h'.interned = h.interned
  config : h'.config = h.config

theorem recharge_config (h : Heap) (r : Handle) : (h.recharge r).config = h.config := by
  unfold recharge
  repeat' split
  all_goals rfl

theorem Wrote.recharge (wrote : Wrote h h' r object) (q : Handle) : Wrote h (h'.recharge q) r object where
  toTouched := wrote.toTouched.recharge q
  steps := wrote.steps.trans (recharge_steps h' q)
  interned := (recharge_others h' q).2.2.2.trans wrote.interned
  config := (recharge_config h' q).trans wrote.config

theorem modifyList_wrote {h : Heap} {list : ListObject} (change : ListObject → ListObject) (present : h.object? r = some (.list list)) :
    Wrote h (h.modifyList r change) r (.list (change list)) :=
  ⟨modifyList_touched change present,modifyList_steps h r change,rfl,rfl⟩

theorem modifyTable_wrote {h : Heap} {table : Table} (change : Table → Table) (present : h.object? r = some (.map table))
    (valid : table.Valid → (change table).Valid) : Wrote h (h.modifyTable r change) r (.map (change table)) := by
  refine ⟨modifyTable_touched change present,modifyTable_steps fun slot other found content => ?_,rfl,rfl⟩
  obtain ⟨slot',found',_,content'⟩ := object?_slot.mp present
  rw [found] at found'
  cases found'
  rw [content] at content'
  cases content'
  exact valid

theorem updateList_wrote {h : Heap} {list : ListObject} (change : ListObject → ListObject) (present : h.object? r = some (.list list))
    (open_ : list.frozen = false) : ∃ h', updateList (.list r) change h = .ok () h' ∧ Wrote h h' r (.list (change list)) := by
  have writable : h.writableList (.list r) = .ok r := by simp [Heap.writableList,Heap.listHandle,isLive,list?,present,open_]
  have wrote := modifyList_wrote change present
  simp only [updateList,writable]
  split
  · exact ⟨_,rfl,wrote⟩
  · exact ⟨_,rfl,wrote.recharge r⟩

theorem store_wrote {h : Heap} {table : Table} (key value : Value) (present : h.object? r = some (.map table)) :
    Wrote h (h.store r key value) r (.map (h.stored table key value)) := by
  refine ⟨store_touched key value present,store_steps h r key value,?_,?_⟩
  · unfold store
    simp only
    split
    · rfl
    · split
      · exact (recharge_others _ r).2.2.2
      · rfl
  · unfold store
    simp only
    split
    · rfl
    · split
      · exact recharge_config _ r
      · rfl

namespace Mirrors

variable {f f' : Handle → Handle} {known known' : Handle → Prop} {h h' k k' : Heap}

theorem live (mirrors : Mirrors f known h k) (here : known r) : h.isLive r = true := by
  obtain ⟨object,present,_⟩ := mirrors.objects r here
  rw [Heap.isLive,present]
  rfl

theorem rename_within {v : Value} (grows : ∀ r, known r → f' r = f r) (within : v.Within known) : v.rename f' = v.rename f :=
  Value.rename_congr fun r handle => grows r (within r handle)

theorem alter (mirrors : Mirrors f known h k) (left : h'.Intact) (right : k'.Intact) (roots : SameRoots h h') (roots' : SameRoots k k')
    (grows : ∀ r, known r → known' r ∧ f' r = f r) (apart : ∀ r q, known' r → known' q → f' r = f' q → r = q)
    (objects : ∀ r, known' r → ∃ object, h'.object? r = some object ∧ k'.object? (f' r) = some (object.rename f') ∧
      ∀ v, object.Refers v → v.Within known')
    (immortal : ∀ r, known' r → (k'.Immortal (f' r) ↔ h'.Immortal r))
    (interned : ∀ text, k'.interned.get? text = (h'.interned.get? text).map f')
    (words : ∀ text r, h'.interned.get? text = some r → known' r)
    (unlimited : h'.config.maxBytes = none ∧ k'.config.maxBytes = none) : Mirrors f' known' h' k' := by
  have same : ∀ v, h.IsRoot v → v.rename f = v.rename f' := fun v root =>
    (rename_within (fun r here => (grows r here).2) (mirrors.rooted v root)).symm
  refine ⟨left,right,apart,objects,immortal,?_,?_,?_,?_,?_,?_,?_,interned,words,unlimited⟩
  · rw [roots'.shadow,roots.shadow,mirrors.shadow]
    exact List.map_congr_left fun v member => same v (.shadow member)
  · rw [roots'.scopes,roots.scopes,mirrors.scopes]
  · rw [roots'.roots,roots.roots,mirrors.roots]
    refine Array.map_congr_left fun place member => ?_
    cases place with
    | none => rfl
    | some v => exact congrArg some (same v (.persistent member))
  · rw [roots'.freeRoots,roots.freeRoots,mirrors.freeRoots]
  · rw [roots'.callbacks,roots.callbacks,mirrors.callbacks]
    refine Array.map_congr_left fun place member => ?_
    cases place with
    | none => rfl
    | some marked => exact congrArg some (List.map_congr_left fun v held => same v (.callback member held))
  · rw [roots'.registers,roots.registers,mirrors.registers]
    refine Array.map_congr_left fun register member => ?_
    simp only [Register.rename,same _ (.register member),same _ (.name member)]
  · intro v root
    exact (mirrors.rooted v (roots.isRoot.mp root)).mono fun r here => (grows r here).1

theorem wrote {object : Object} (mirrors : Mirrors f known h k) (here : known r) (left : Wrote h h' r object)
    (right : Wrote k k' (f r) (object.rename f)) (refs : ∀ v, object.Refers v → v.Within known) : Mirrors f known h' k' := by
  refine mirrors.alter (left.steps.intact mirrors.intact) (right.steps.intact mirrors.image) left.roots right.roots
    (fun q there => ⟨there,rfl⟩) mirrors.apart ?_ ?_ ?_ ?_ ?_
  · intro q there
    by_cases same : q = r
    · subst same
      exact ⟨object,left.here,right.here,refs⟩
    · obtain ⟨other,present,image,inner⟩ := mirrors.objects q there
      refine ⟨other,(left.others q same).trans present,?_,inner⟩
      rw [right.others (f q) fun equal => same (mirrors.apart q r there here equal)]
      exact image
  · intro q there
    rw [right.immortal,left.immortal]
    exact mirrors.immortal q there
  · rw [left.interned,right.interned]
    exact mirrors.interned
  · rw [left.interned]
    exact mirrors.words
  · rw [left.config,right.config]
    exact mirrors.unlimited

theorem reroot (mirrors : Mirrors f known h k) (left : Apart h h') (right : Apart k k')
    (shadow : k'.shadow = h'.shadow.map (Value.rename f)) (scopes : k'.scopes = h'.scopes)
    (roots : k'.roots = h'.roots.map (Option.map (Value.rename f))) (freeRoots : k'.freeRoots = h'.freeRoots)
    (callbacks : k'.callbacks = h'.callbacks.map (Option.map (List.map (Value.rename f))))
    (registers : k'.registers = h'.registers.map (Register.rename f)) (rooted : ∀ v, h'.IsRoot v → v.Within known) :
    Mirrors f known h' k' where
  intact := (Step.apart left).intact mirrors.intact
  image := (Step.apart right).intact mirrors.image
  apart := mirrors.apart
  objects := by
    intro r here
    rw [object?_slots left.slots,object?_slots right.slots]
    exact mirrors.objects r here
  immortal := by
    intro r here
    rw [immortal_slots left.slots,immortal_slots right.slots]
    exact mirrors.immortal r here
  shadow := shadow
  scopes := scopes
  roots := roots
  freeRoots := freeRoots
  callbacks := callbacks
  registers := registers
  rooted := rooted
  interned := by
    rw [left.interned,right.interned]
    exact mirrors.interned
  words := by
    rw [left.interned]
    exact mirrors.words
  unlimited := by
    rw [left.limit,right.limit]
    exact mirrors.unlimited

theorem reshadow {shadow shadow' : List Value} {scopes scopes' : List Nat} (mirrors : Mirrors f known h k)
    (same : shadow' = shadow.map (Value.rename f)) (levels : scopes' = scopes) (within : ∀ v ∈ shadow, v.Within known) :
    Mirrors f known { h with shadow,scopes } { k with shadow := shadow',scopes := scopes' } := by
  refine mirrors.reroot ⟨rfl,rfl,rfl,rfl,rfl,rfl,rfl,rfl,rfl,rfl⟩ ⟨rfl,rfl,rfl,rfl,rfl,rfl,rfl,rfl,rfl,rfl⟩ same levels mirrors.roots
    mirrors.freeRoots mirrors.callbacks mirrors.registers fun v root => ?_
  cases root with
  | shadow member => exact within v member
  | persistent member => exact mirrors.rooted v (.persistent member)
  | register member => exact mirrors.rooted _ (.register member)
  | name member => exact mirrors.rooted _ (.name member)
  | callback member marked => exact mirrors.rooted v (.callback member marked)

theorem protect (mirrors : Mirrors f known h k) (within : v.Within known) : Mirrors f known (h.protect v) (k.protect (v.rename f)) := by
  refine mirrors.reshadow (by rw [mirrors.shadow,List.map_cons]) mirrors.scopes fun w member => ?_
  rcases List.mem_cons.mp member with rfl | old
  · exact within
  · exact mirrors.rooted w (.shadow old)

theorem depth (mirrors : Mirrors f known h k) : k.shadow.length = h.shadow.length := by
  rw [mirrors.shadow,List.length_map]

theorem pushScope (mirrors : Mirrors f known h k) : Mirrors f known h.pushScope k.pushScope :=
  mirrors.reshadow mirrors.shadow (by rw [mirrors.depth,mirrors.scopes]) fun v member => mirrors.rooted v (.shadow member)

theorem popScope (mirrors : Mirrors f known h k) : Mirrors f known h.popScope k.popScope := by
  have changed : ∀ start rest, Mirrors f known { h with scopes := rest,shadow := h.shadow.drop (h.shadow.length - start) }
      { k with scopes := rest,shadow := k.shadow.drop (k.shadow.length - start) } := fun start rest =>
    mirrors.reshadow (by rw [mirrors.depth,mirrors.shadow,List.map_drop]) rfl fun v member =>
      mirrors.rooted v (.shadow (List.mem_of_mem_drop member))
  unfold Heap.popScope
  rw [mirrors.scopes]
  cases h.scopes with
  | nil => exact mirrors
  | cons start rest => exact changed start rest

theorem unprotect (mirrors : Mirrors f known h k) : Mirrors f known h.unprotect.2 k.unprotect.2 ∧
    k.unprotect.1 = h.unprotect.1.map (Value.rename f) ∧ ∀ v, h.unprotect.1 = some v → v.Within known := by
  have shadows := mirrors.shadow
  have rooted : ∀ v ∈ h.shadow, v.Within known := fun v member => mirrors.rooted v (.shadow member)
  unfold Heap.unprotect
  rw [mirrors.scopes,mirrors.depth]
  cases held : h.shadow with
  | nil =>
      rw [held] at shadows
      rw [shadows]
      exact ⟨mirrors,rfl,fun v none => by cases none⟩
  | cons v rest =>
      rw [held] at shadows rooted
      rw [shadows]
      simp only [List.map_cons]
      split
      · exact ⟨mirrors.reshadow rfl rfl fun w member => rooted w (List.mem_cons_of_mem _ member),rfl,
          fun w same => by cases same; exact rooted v List.mem_cons_self⟩
      · exact ⟨mirrors,rfl,fun v none => by cases none⟩

theorem reroots {roots roots' : Array (Option Value)} {freeRoots freeRoots' : List Nat} (mirrors : Mirrors f known h k)
    (same : roots' = roots.map (Option.map (Value.rename f))) (free : freeRoots' = freeRoots) (within : ∀ v, some v ∈ roots → v.Within known) :
    Mirrors f known { h with roots,freeRoots } { k with roots := roots',freeRoots := freeRoots' } := by
  refine mirrors.reroot ⟨rfl,rfl,rfl,rfl,rfl,rfl,rfl,rfl,rfl,rfl⟩ ⟨rfl,rfl,rfl,rfl,rfl,rfl,rfl,rfl,rfl,rfl⟩ mirrors.shadow mirrors.scopes same
    free mirrors.callbacks mirrors.registers fun v root => ?_
  cases root with
  | shadow member => exact mirrors.rooted v (.shadow member)
  | persistent member => exact within v member
  | register member => exact mirrors.rooted _ (.register member)
  | name member => exact mirrors.rooted _ (.name member)
  | callback member marked => exact mirrors.rooted v (.callback member marked)

theorem setRoot (mirrors : Mirrors f known h k) (within : v.Within known) (id : Nat) {freeRoots freeRoots' : List Nat}
    (free : freeRoots' = freeRoots) : Mirrors f known { h with roots := h.roots.setIfInBounds id (some v),freeRoots }
      { k with roots := k.roots.setIfInBounds id (some (v.rename f)),freeRoots := freeRoots' } := by
  refine mirrors.reroots (by rw [mirrors.roots,Array.map_setIfInBounds]; rfl) free fun w member => ?_
  rcases Array.mem_or_eq_of_mem_setIfInBounds member with old | same
  · exact mirrors.rooted w (.persistent old)
  · cases same
    exact within

theorem addRoot (mirrors : Mirrors f known h k) (within : v.Within known) :
    (k.addRoot (v.rename f)).1 = (h.addRoot v).1 ∧ Mirrors f known (h.addRoot v).2 (k.addRoot (v.rename f)).2 := by
  have pushed : Mirrors f known { h with roots := h.roots.push (some v) } { k with roots := k.roots.push (some (v.rename f)) } := by
    refine mirrors.reroots (by rw [mirrors.roots,Array.map_push]; rfl) mirrors.freeRoots fun w member => ?_
    rcases Array.mem_push.mp member with old | same
    · exact mirrors.rooted w (.persistent old)
    · cases same
      exact within
  have same := mirrors.freeRoots
  cases free : h.freeRoots with
  | cons id rest =>
      rw [free] at same
      unfold Heap.addRoot
      rw [free,same]
      exact ⟨rfl,mirrors.setRoot within id rfl⟩
  | nil =>
      rw [free] at same
      have left : h.addRoot v = (h.roots.size,{ h with roots := h.roots.push (some v) }) := by simp only [Heap.addRoot,free]
      have right : k.addRoot (v.rename f) = (k.roots.size,{ k with roots := k.roots.push (some (v.rename f)) }) := by
        simp only [Heap.addRoot,same]
      rw [left,right]
      exact ⟨by rw [mirrors.roots,Array.size_map],pushed⟩

theorem removeRoot (mirrors : Mirrors f known h k) (id : Nat) : Mirrors f known (h.removeRoot id) (k.removeRoot id) := by
  have taken : (k.roots.getD id none).isSome = (h.roots.getD id none).isSome := by
    simp only [mirrors.roots,Array.getD_eq_getD_getElem?,Array.getElem?_map]
    cases h.roots[id]? with
    | none => rfl
    | some place => cases place <;> rfl
  unfold Heap.removeRoot
  cases held : h.roots.getD id none with
  | none =>
      rw [held,Option.isSome_none,Option.isSome_eq_false_iff,Option.isNone_iff_eq_none] at taken
      rw [taken]
      exact mirrors
  | some v =>
      rw [held] at taken
      obtain ⟨w,here⟩ := Option.isSome_iff_exists.mp taken
      rw [here]
      refine mirrors.reroots (by rw [mirrors.roots,Array.map_setIfInBounds]; rfl) (by rw [mirrors.freeRoots]) fun w member => ?_
      rcases Array.mem_or_eq_of_mem_setIfInBounds member with old | same
      · exact mirrors.rooted w (.persistent old)
      · cases same

theorem recallbacks {callbacks callbacks' : Array (Option (List Value))} (mirrors : Mirrors f known h k)
    (same : callbacks' = callbacks.map (Option.map (List.map (Value.rename f))))
    (within : ∀ marked, some marked ∈ callbacks → ∀ v ∈ marked, v.Within known) :
    Mirrors f known { h with callbacks } { k with callbacks := callbacks' } := by
  refine mirrors.reroot ⟨rfl,rfl,rfl,rfl,rfl,rfl,rfl,rfl,rfl,rfl⟩ ⟨rfl,rfl,rfl,rfl,rfl,rfl,rfl,rfl,rfl,rfl⟩ mirrors.shadow mirrors.scopes
    mirrors.roots mirrors.freeRoots same mirrors.registers fun v root => ?_
  cases root with
  | shadow member => exact mirrors.rooted v (.shadow member)
  | persistent member => exact mirrors.rooted v (.persistent member)
  | register member => exact mirrors.rooted _ (.register member)
  | name member => exact mirrors.rooted _ (.name member)
  | callback member marked => exact within _ member v marked

theorem registerCallback {marked : List Value} (mirrors : Mirrors f known h k) (within : ∀ v ∈ marked, v.Within known) :
    (k.registerCallback (marked.map (Value.rename f))).1 = (h.registerCallback marked).1 ∧
      Mirrors f known (h.registerCallback marked).2 (k.registerCallback (marked.map (Value.rename f))).2 := by
  refine ⟨by simp only [Heap.registerCallback,mirrors.callbacks,Array.size_map],?_⟩
  refine mirrors.recallbacks (by rw [mirrors.callbacks,Array.map_push]; rfl) fun values member => ?_
  rcases Array.mem_push.mp member with old | same
  · exact fun v held => mirrors.rooted v (.callback old held)
  · cases same
    exact within

theorem unregisterCallback (mirrors : Mirrors f known h k) (id : Nat) : (k.unregisterCallback id).1 = (h.unregisterCallback id).1 ∧
    Mirrors f known (h.unregisterCallback id).2 (k.unregisterCallback id).2 := by
  have taken : (k.callbacks.getD id none).isSome = (h.callbacks.getD id none).isSome := by
    simp only [mirrors.callbacks,Array.getD_eq_getD_getElem?,Array.getElem?_map]
    cases h.callbacks[id]? with
    | none => rfl
    | some place => cases place <;> rfl
  unfold Heap.unregisterCallback
  cases held : h.callbacks.getD id none with
  | none =>
      rw [held,Option.isSome_none,Option.isSome_eq_false_iff,Option.isNone_iff_eq_none] at taken
      rw [taken]
      exact ⟨rfl,mirrors⟩
  | some marked =>
      rw [held] at taken
      obtain ⟨values,here⟩ := Option.isSome_iff_exists.mp taken
      rw [here]
      refine ⟨rfl,mirrors.recallbacks (by rw [mirrors.callbacks,Array.map_setIfInBounds]; rfl) fun values member => ?_⟩
      rcases Array.mem_or_eq_of_mem_setIfInBounds member with old | same
      · exact fun v held => mirrors.rooted v (.callback old held)
      · cases same

theorem reregister {registers registers' : Array Register} (mirrors : Mirrors f known h k)
    (same : registers' = registers.map (Register.rename f))
    (within : ∀ register ∈ registers, register.value.Within known ∧ register.name.Within known) :
    Mirrors f known { h with registers } { k with registers := registers' } := by
  refine mirrors.reroot ⟨rfl,rfl,rfl,rfl,rfl,rfl,rfl,rfl,rfl,rfl⟩ ⟨rfl,rfl,rfl,rfl,rfl,rfl,rfl,rfl,rfl,rfl⟩ mirrors.shadow mirrors.scopes
    mirrors.roots mirrors.freeRoots mirrors.callbacks same fun v root => ?_
  cases root with
  | shadow member => exact mirrors.rooted v (.shadow member)
  | persistent member => exact mirrors.rooted v (.persistent member)
  | register member => exact (within _ member).1
  | name member => exact (within _ member).2
  | callback member marked => exact mirrors.rooted v (.callback member marked)

theorem modifyRegister {change change' : Register → Register} (mirrors : Mirrors f known h k) (i : Nat)
    (agree : ∀ register : Register, change' (register.rename f) = (change register).rename f)
    (within : ∀ register ∈ h.registers, (change register).value.Within known ∧ (change register).name.Within known) :
    Mirrors f known { h with registers := h.registers.modify i change } { k with registers := k.registers.modify i change' } := by
  refine mirrors.reregister (Array.ext_getElem? fun j => ?_) fun register member => ?_
  · simp only [mirrors.registers,Array.getElem?_modify,Array.getElem?_map]
    split
    · cases h.registers[j]? with
      | none => rfl
      | some register => exact congrArg some (agree register)
    · rfl
  · rcases mem_modify member with old | ⟨before,old,rfl⟩
    · exact ⟨mirrors.rooted _ (.register old),mirrors.rooted _ (.name old)⟩
    · exact within before old

theorem resizeRegisters (mirrors : Mirrors f known h k) (size : Nat) : Mirrors f known (h.resizeRegisters size) (k.resizeRegisters size) := by
  have blank : ({} : Register).rename f = {} := rfl
  refine mirrors.reregister ?_ fun register member => ?_
  · simp only [mirrors.registers,Array.map_append,Array.map_replicate,blank,Array.size_map,Array.take_eq_extract,Array.map_extract]
  · rcases Array.mem_append.mp member with old | fresh
    · rw [Array.take_eq_extract,Array.mem_extract_iff_getElem] at old
      obtain ⟨i,_,rfl⟩ := old
      exact ⟨mirrors.rooted _ (.register (Array.getElem_mem _)),mirrors.rooted _ (.name (Array.getElem_mem _))⟩
    · rw [(Array.mem_replicate.mp fresh).2]
      exact ⟨Value.within_plain rfl,Value.within_plain rfl⟩

theorem isRoot (mirrors : Mirrors f known h k) : k.IsRoot w ↔ ∃ v, h.IsRoot v ∧ v.rename f = w := by
  constructor
  · intro root
    cases root with
    | shadow member =>
        rw [mirrors.shadow] at member
        obtain ⟨v,held,rfl⟩ := List.mem_map.mp member
        exact ⟨v,.shadow held,rfl⟩
    | persistent member =>
        rw [mirrors.roots] at member
        obtain ⟨place,held,same⟩ := Array.mem_map.mp member
        obtain ⟨v,rfl,rfl⟩ := Option.map_eq_some_iff.mp same
        exact ⟨v,.persistent held,rfl⟩
    | register member =>
        rw [mirrors.registers] at member
        obtain ⟨register,held,rfl⟩ := Array.mem_map.mp member
        exact ⟨_,.register held,rfl⟩
    | name member =>
        rw [mirrors.registers] at member
        obtain ⟨register,held,rfl⟩ := Array.mem_map.mp member
        exact ⟨_,.name held,rfl⟩
    | callback member marked =>
        rw [mirrors.callbacks] at member
        obtain ⟨place,held,same⟩ := Array.mem_map.mp member
        obtain ⟨values,rfl,rfl⟩ := Option.map_eq_some_iff.mp same
        obtain ⟨v,inner,rfl⟩ := List.mem_map.mp marked
        exact ⟨v,.callback held inner,rfl⟩
  · rintro ⟨v,root,rfl⟩
    cases root with
    | shadow member => exact .shadow (by rw [mirrors.shadow]; exact List.mem_map_of_mem member)
    | persistent member => exact .persistent (by rw [mirrors.roots]; exact Array.mem_map.mpr ⟨_,member,rfl⟩)
    | register member => exact .register (by rw [mirrors.registers]; exact Array.mem_map.mpr ⟨_,member,rfl⟩)
    | name member => exact .name (by rw [mirrors.registers]; exact Array.mem_map.mpr ⟨_,member,rfl⟩)
    | callback member marked =>
        exact .callback (by rw [mirrors.callbacks]; exact Array.mem_map.mpr ⟨_,member,rfl⟩) (List.mem_map_of_mem marked)

theorem reached (mirrors : Mirrors f known h k) (reached : h.Reached r) : known r ∧ k.Reached (f r) := by
  induction reached with
  | root root handle live =>
      have here := mirrors.rooted _ root _ handle
      exact ⟨here,.root (mirrors.isRoot.mpr ⟨_,root,rfl⟩) (by rw [Value.rename_handle,handle]; rfl) (by rw [mirrors.isLive here]; exact live)⟩
  | @refers q object v r _ present refers handle live ih =>
      obtain ⟨there,reached⟩ := ih
      obtain ⟨other,found,image,inner⟩ := mirrors.objects q there
      rw [present] at found
      cases found
      have here := inner v refers r handle
      exact ⟨here,.refers reached image (Object.refers_rename.mpr ⟨v,refers,rfl⟩) (by rw [Value.rename_handle,handle]; rfl)
        (by rw [mirrors.isLive here]; exact live)⟩

theorem reached_back (mirrors : Mirrors f known h k) (reached : k.Reached p) : ∃ r, known r ∧ f r = p ∧ h.Reached r := by
  induction reached with
  | root root handle live =>
      obtain ⟨v,origin,rfl⟩ := mirrors.isRoot.mp root
      rw [Value.rename_handle] at handle
      obtain ⟨r,held,rfl⟩ := Option.map_eq_some_iff.mp handle
      have here := mirrors.rooted v origin r held
      exact ⟨r,here,rfl,.root origin held (mirrors.live here)⟩
  | @refers q object v p _ present refers handle live ih =>
      obtain ⟨r,there,rfl,reached⟩ := ih
      obtain ⟨other,found,image,inner⟩ := mirrors.objects r there
      rw [present] at image
      cases image
      obtain ⟨w,referred,rfl⟩ := Object.refers_rename.mp refers
      rw [Value.rename_handle] at handle
      obtain ⟨q,held,rfl⟩ := Option.map_eq_some_iff.mp handle
      have here := inner w referred q held
      exact ⟨q,here,rfl,.refers reached found referred held (mirrors.live here)⟩

theorem survives (mirrors : Mirrors f known h k) (here : known r) : k.Survives (f r) ↔ h.Survives r := by
  refine or_congr (mirrors.immortal r here) ⟨fun reached => ?_,fun reached => (mirrors.reached reached).2⟩
  obtain ⟨q,there,same,origin⟩ := mirrors.reached_back reached
  rwa [← mirrors.apart q r there here same]

-- What would be collected may be forgotten.
theorem survivors (mirrors : Mirrors f known h k) : Mirrors f (fun r => known r ∧ h.Survives r) h k where
  intact := mirrors.intact
  image := mirrors.image
  apart := fun r q left right => mirrors.apart r q left.1 right.1
  objects := by
    intro r ⟨here,survives⟩
    obtain ⟨object,present,image,inner⟩ := mirrors.objects r here
    refine ⟨object,present,image,fun v refers q handle => ?_⟩
    have there := inner v refers q handle
    exact ⟨there,refers_survives mirrors.intact survives present refers handle (mirrors.live there)⟩
  immortal := fun r here => mirrors.immortal r here.1
  shadow := mirrors.shadow
  scopes := mirrors.scopes
  roots := mirrors.roots
  freeRoots := mirrors.freeRoots
  callbacks := mirrors.callbacks
  registers := mirrors.registers
  rooted := by
    intro v root r handle
    have here := mirrors.rooted v root r handle
    exact ⟨here,Or.inr (.root root handle (mirrors.live here))⟩
  interned := mirrors.interned
  words := by
    intro text r listed
    obtain ⟨slot,found,generation,immortal,_⟩ := mirrors.intact.interned text r listed
    exact ⟨mirrors.words text r listed,Or.inl ⟨slot,found,generation,immortal⟩⟩
  unlimited := mirrors.unlimited

end Mirrors

theorem collect_config (h : Heap) : h.collect.2.config = h.config := by
  by_cases enabled : h.disabled = 0
  · rw [collect_enabled enabled]
    rfl
  · rw [collect_disabled enabled]

theorem collect_kept {h : Heap} {object : Object} (intact : h.Intact) (survives : h.Survives r) (present : h.object? r = some object) :
    h.collect.2.object? r = some object ∧ (h.collect.2.Immortal r ↔ h.Immortal r) := by
  have kept := (collect_extends intact).objects r survives
  refine ⟨kept.trans present,fun immortal => ?_,collect_immortal⟩
  -- Nothing becomes immortal.
  by_cases enabled : h.disabled = 0
  · rw [collect_enabled enabled] at immortal
    obtain ⟨slot,found,generation,eternal⟩ := immortal
    obtain ⟨before,origin,same⟩ := swept_slot.mp found
    obtain ⟨here,there,age,_⟩ := object?_slot.mp present
    rw [origin] at there
    cases there
    refine ⟨before,origin,age,?_⟩
    rw [← same] at eternal
    split at eternal
    · exact eternal
    · exact eternal
  · rwa [collect_disabled enabled] at immortal

namespace Mirrors

variable {f f' : Handle → Handle} {known known' : Handle → Prop} {h h' k k' : Heap}

theorem collect_left (mirrors : Mirrors f known h k) (kept : ∀ r, known r → h.Survives r) : Mirrors f known h.collect.2 k := by
  refine mirrors.alter (collect_intact mirrors.intact) mirrors.image (collect_roots h) (.refl k) (fun r here => ⟨here,rfl⟩) mirrors.apart
    ?_ ?_ ?_ ?_ ?_
  · intro r here
    obtain ⟨object,present,image,inner⟩ := mirrors.objects r here
    exact ⟨object,(collect_kept mirrors.intact (kept r here) present).1,image,inner⟩
  · intro r here
    obtain ⟨object,present,_,_⟩ := mirrors.objects r here
    rw [(collect_kept mirrors.intact (kept r here) present).2]
    exact mirrors.immortal r here
  · rw [collect_interned]
    exact mirrors.interned
  · rw [collect_interned]
    exact mirrors.words
  · rw [collect_config]
    exact mirrors.unlimited

theorem collect_right (mirrors : Mirrors f known h k) (kept : ∀ r, known r → h.Survives r) : Mirrors f known h k.collect.2 := by
  have spared : ∀ r, known r → k.Survives (f r) := fun r here => (mirrors.survives here).mpr (kept r here)
  refine mirrors.alter mirrors.intact (collect_intact mirrors.image) (.refl h) (collect_roots k) (fun r here => ⟨here,rfl⟩) mirrors.apart
    ?_ ?_ ?_ mirrors.words ?_
  · intro r here
    obtain ⟨object,present,image,inner⟩ := mirrors.objects r here
    exact ⟨object,present,(collect_kept mirrors.image (spared r here) image).1,inner⟩
  · intro r here
    obtain ⟨object,_,image,_⟩ := mirrors.objects r here
    rw [(collect_kept mirrors.image (spared r here) image).2]
    exact mirrors.immortal r here
  · rw [collect_interned]
    exact mirrors.interned
  · rw [collect_config]
    exact mirrors.unlimited

end Mirrors

theorem freeze_eternal (h : Heap) (v : Value) (r : Handle) : (h.freeze v).Immortal r ↔ h.Immortal r := by
  refine ⟨fun immortal => ?_,freeze_immortal v⟩
  obtain ⟨slot,found,generation,eternal⟩ := immortal
  simp only [freeze,Array.getElem?_mapIdx] at found
  obtain ⟨before,origin,same⟩ := Option.map_eq_some_iff.mp found
  refine ⟨before,origin,?_⟩
  rw [← generation,← eternal,← same]
  split <;> exact ⟨rfl,rfl⟩

theorem Installed.immortal_here {object : Object} (installed : Installed h object charge immortal r h') : h'.Immortal r ↔ immortal = true := by
  simp only [Immortal,installed.slots,if_pos]
  simp

theorem Installed.immortal_kept {object other : Object} (installed : Installed h object charge immortal r h')
    (present : h.object? q = some other) : h'.Immortal q ↔ h.Immortal q := by
  obtain ⟨slot,found,_,content⟩ := object?_slot.mp present
  simp only [Immortal,found,installed.others found (by rw [content]; rfl)]

namespace Mirrors

variable {f f' : Handle → Handle} {known known' : Handle → Prop} {h h' k k' : Heap}

theorem contents (mirrors : Mirrors f known h k) (here : known q) :
    k.contents (f q) = (h.contents q).map (Value.rename f) ∧ ∀ w ∈ h.contents q, w.Within known := by
  have within : Value.Within known (.map q) := fun r handle => by cases handle; exact here
  have entries := mirrors.mapEntries within
  simp only [Value.rename] at entries
  obtain ⟨object,present,image,inner⟩ := mirrors.objects q here
  simp only [Heap.contents,present,image]
  cases object with
  | str | funcRef => exact ⟨rfl,fun w member => by cases member⟩
  | list l =>
      refine ⟨by simp [Object.rename,ListObject.rename],fun w member => inner w (.item (Array.mem_toList_iff.mp member))⟩
  | map table =>
      refine ⟨?_,fun w member => ?_⟩
      · simp only [Object.rename,entries,List.flatMap_map,List.map_flatMap]
        rfl
      · obtain ⟨entry,listed,held⟩ := List.mem_flatMap.mp member
        obtain ⟨left,right⟩ := mirrors.closed.entries within listed
        simp only [List.mem_cons,List.not_mem_nil,or_false] at held
        rcases held with rfl | rfl
        · exact left
        · exact right

theorem contained (mirrors : Mirrors f known h k) (within : v.Within known) (contains : Contains h v r) :
    known r ∧ Contains k (v.rename f) (f r) := by
  induction contains with
  | self handle live =>
      have here := within _ handle
      exact ⟨here,.self (by rw [Value.rename_handle,handle]; rfl) (by rw [mirrors.isLive here]; exact live)⟩
  | part _ member handle live ih =>
      obtain ⟨there,contains⟩ := ih
      obtain ⟨listed,inner⟩ := mirrors.contents there
      have here := inner _ member _ handle
      exact ⟨here,.part contains (by rw [listed]; exact List.mem_map_of_mem member) (by rw [Value.rename_handle,handle]; rfl)
        (by rw [mirrors.isLive here]; exact live)⟩

theorem contained_back (mirrors : Mirrors f known h k) (within : v.Within known) (contains : Contains k (v.rename f) p) :
    ∃ r, known r ∧ f r = p ∧ Contains h v r := by
  induction contains with
  | self handle live =>
      rw [Value.rename_handle] at handle
      obtain ⟨r,held,rfl⟩ := Option.map_eq_some_iff.mp handle
      have here := within r held
      exact ⟨r,here,rfl,.self held (mirrors.live here)⟩
  | part _ member handle live ih =>
      obtain ⟨q,there,rfl,contains⟩ := ih
      obtain ⟨listed,inner⟩ := mirrors.contents there
      rw [listed] at member
      obtain ⟨w,held,rfl⟩ := List.mem_map.mp member
      rw [Value.rename_handle] at handle
      obtain ⟨r,inside,rfl⟩ := Option.map_eq_some_iff.mp handle
      have here := inner w held r inside
      exact ⟨r,here,rfl,.part contains held inside (mirrors.live here)⟩

theorem insideOf (mirrors : Mirrors f known h k) (within : v.Within known) (here : known r) :
    (k.insideOf (v.rename f)).getD (f r).index false = (h.insideOf v).getD r.index false := by
  have live := mirrors.live here
  rw [Bool.eq_iff_iff,insideOf_contains _ live,insideOf_contains _ (by rwa [mirrors.isLive here])]
  refine ⟨fun contains => ?_,fun contains => (mirrors.contained within contains).2⟩
  obtain ⟨q,there,same,origin⟩ := mirrors.contained_back within contains
  rwa [← mirrors.apart q r there here same]

theorem freeze (mirrors : Mirrors f known h k) (within : v.Within known) : Mirrors f known (h.freeze v) (k.freeze (v.rename f)) := by
  refine mirrors.alter ((freeze_steps h v).intact mirrors.intact) ((freeze_steps k _).intact mirrors.image)
    ⟨rfl,rfl,rfl,rfl,rfl,rfl⟩ ⟨rfl,rfl,rfl,rfl,rfl,rfl⟩ (fun r here => ⟨here,rfl⟩) mirrors.apart ?_ ?_
    mirrors.interned mirrors.words mirrors.unlimited
  · intro r here
    obtain ⟨object,present,image,inner⟩ := mirrors.objects r here
    rw [freeze_object,freeze_object,present,image,mirrors.insideOf within here]
    refine ⟨_,rfl,?_,?_⟩
    · simp only [Option.map_some]
      split
      · rw [Object.freeze_rename]
      · rfl
    · intro w refers
      split at refers
      · exact inner w (freezeObject_refers refers)
      · exact inner w refers
  · intro r here
    rw [freeze_eternal,freeze_eternal]
    exact mirrors.immortal r here

theorem installed {object : Object} {eternal : Bool} (mirrors : Mirrors f known h k) (left : Installed h object charge eternal r h')
    (right : Installed k (object.rename f) charge' eternal q k') (intact : h'.Intact) (image : k'.Intact) (roots : SameRoots h h')
    (roots' : SameRoots k k') (refs : ∀ v, object.Refers v → v.Within known)
    (texts : ∀ text, (h'.interned.get? text = h.interned.get? text ∧ k'.interned.get? text = k.interned.get? text) ∨
      (h'.interned.get? text = some r ∧ k'.interned.get? text = some q))
    (config : h'.config = h.config) (config' : k'.config = k.config) :
    Mirrors (Function.update f r q) (fun p => known p ∨ p = r) h' k' := by
  have fresh : ∀ p, known p → p ≠ r := by
    rintro p here rfl
    have live := mirrors.live here
    rw [left.dead] at live
    cases live
  have fresh' : ∀ p, known p → f p ≠ q := by
    rintro p here rfl
    have live := mirrors.isLive here
    rw [right.dead,mirrors.live here] at live
    cases live
  have same : ∀ p, known p → Function.update f r q p = f p := fun p here => Function.update_of_ne (fresh p here) q f
  have renamed : ∀ {other : Object}, (∀ v, other.Refers v → v.Within known) → other.rename f = other.rename (Function.update f r q) :=
    fun inner => Object.rename_congr fun v refers => (rename_within same (inner v refers)).symm
  refine mirrors.alter intact image roots roots' (fun p here => ⟨Or.inl here,same p here⟩) ?_ ?_ ?_ ?_ ?_ ?_
  · intro a b first second equal
    rcases first with first | rfl
    · rcases second with second | rfl
      · rw [same a first,same b second] at equal
        exact mirrors.apart a b first second equal
      · rw [same a first,Function.update_self] at equal
        exact absurd equal (fresh' a first)
    · rcases second with second | rfl
      · rw [same b second,Function.update_self] at equal
        exact absurd equal.symm (fresh' b second)
      · rfl
  · intro p here
    rcases here with here | rfl
    · obtain ⟨other,present,mirrored,inner⟩ := mirrors.objects p here
      refine ⟨other,left.kept_object present,?_,fun v refers => (inner v refers).mono fun _ => Or.inl⟩
      rw [same p here,← renamed inner]
      exact right.kept_object mirrored
    · refine ⟨object,left.object,?_,fun v refers => (refs v refers).mono fun _ => Or.inl⟩
      rw [Function.update_self,← renamed refs]
      exact right.object
  · intro p here
    rcases here with here | rfl
    · obtain ⟨other,present,mirrored,_⟩ := mirrors.objects p here
      rw [same p here,left.immortal_kept present,right.immortal_kept mirrored]
      exact mirrors.immortal p here
    · rw [Function.update_self,left.immortal_here,right.immortal_here]
  · intro text
    rcases texts text with ⟨old,old'⟩ | ⟨new,new'⟩
    · rw [old,old',mirrors.interned]
      cases listed : h.interned.get? text with
      | none => rfl
      | some p => exact congrArg some (same p (mirrors.words text p listed)).symm
    · rw [new,new',Option.map_some,Function.update_self]
  · intro text p listed
    rcases texts text with ⟨old,_⟩ | ⟨new,_⟩
    · exact Or.inl (mirrors.words text p (old ▸ listed))
    · rw [new] at listed
      cases listed
      exact Or.inr rfl
  · rw [config,config']
    exact mirrors.unlimited

end Mirrors

theorem install_config (h : Heap) (object : Object) (charge : Nat) (immortal : Bool) :
    (h.install object charge immortal).2.config = h.config := by
  unfold install
  split <;> rfl

theorem intern_config (h : Heap) (text : String) : (h.intern text).2.config = h.config := by
  have made := install_config h (.str text) 0 true
  unfold Heap.intern
  cases ShortText.ofString? text with
  | some t => rfl
  | none =>
      cases h.interned.get? text with
      | some r => rfl
      | none => exact made

theorem collectIfDue_config (h : Heap) : h.collectIfDue.config = h.config := by
  unfold collectIfDue
  split
  · exact collect_config h
  · rfl

theorem allocate_unlimited {h : Heap} (unlimited : h.config.maxBytes = none) (object : Object) :
    allocate object h = .ok (h.collectIfDue.allocated object).1 (h.collectIfDue.allocated object).2 := by
  have room : h.collectIfDue.exceedsLimit object.charge = false := by
    simp only [exceedsLimit,collectIfDue_config,unlimited]
  simp [Heap.allocate,room,allocated]

theorem collectIfDue_quiet {h : Heap} (quiet : h.collectIfDue.history.size ≤ h.history.size) : h.collectIfDue = h := by
  unfold collectIfDue at quiet ⊢
  split
  · rename_i due
    rw [if_pos due,collect_history (by simpa using (Bool.and_eq_true_iff.mp due).1)] at quiet
    omega
  · rfl

namespace Mirrors

variable {f f' : Handle → Handle} {known known' : Handle → Prop} {h h' k k' : Heap}

theorem collectIfDue (mirrors : Mirrors f known h k) (calm : (∀ r, known r → h.Survives r) ∨
    (h.collectIfDue.history.size ≤ h.history.size ∧ k.collectIfDue.history.size ≤ k.history.size)) :
    Mirrors f known h.collectIfDue k.collectIfDue := by
  rcases calm with kept | ⟨quiet,quiet'⟩
  · have right : Mirrors f known h k.collectIfDue := by
      unfold Heap.collectIfDue
      split
      · exact mirrors.collect_right kept
      · exact mirrors
    unfold Heap.collectIfDue at right ⊢
    split
    · exact right.collect_left kept
    · exact right
  · rw [collectIfDue_quiet quiet,collectIfDue_quiet quiet']
    exact mirrors

theorem allocated {object : Object} (mirrors : Mirrors f known h k) (refs : ∀ v, object.Refers v → v.Within known) (sane : object.Sane)
    (sane' : (object.rename f).Sane) (calm : (∀ r, known r → h.Survives r) ∨
      ((h.collectIfDue.allocated object).2.history.size ≤ h.history.size ∧
        (k.collectIfDue.allocated (object.rename f)).2.history.size ≤ k.history.size)) :
    Mirrors (Function.update f (h.collectIfDue.allocated object).1 (k.collectIfDue.allocated (object.rename f)).1)
      (fun p => known p ∨ p = (h.collectIfDue.allocated object).1) (h.collectIfDue.allocated object).2
      (k.collectIfDue.allocated (object.rename f)).2 := by
  have left := allocated_installed ((Swept.steps (collectIfDue_swept h)).intact mirrors.intact) object
  have right := allocated_installed ((Swept.steps (collectIfDue_swept k)).intact mirrors.image) (object.rename f)
  rw [left.history,right.history] at calm
  have due := mirrors.collectIfDue calm
  have room : ∀ charge, h.collectIfDue.exceedsLimit charge = false ∧ k.collectIfDue.exceedsLimit charge = false := by
    simp [exceedsLimit,due.unlimited]
  have words : (h.collectIfDue.allocated object).2.interned = h.collectIfDue.interned := install_interned _ _ _ _
  have words' : (k.collectIfDue.allocated (object.rename f)).2.interned = k.collectIfDue.interned := install_interned _ _ _ _
  exact due.installed left right ((Step.install sane (room _).1).intact due.intact) ((Step.install sane' (room _).2).intact due.image)
    (allocated_roots _ _) (allocated_roots _ _) refs (fun text => Or.inl ⟨by rw [words],by rw [words']⟩) (install_config _ _ _ _)
    (install_config _ _ _ _)

theorem undisturbed {object : Object} (mirrors : Mirrors f known h k) (here : known p) (calm : (∀ r, known r → h.Survives r) ∨
    (h.collectIfDue.allocated object).2.history.size ≤ h.history.size) : (h.collectIfDue.allocated object).2.object? p = h.object? p := by
  obtain ⟨other,present,_⟩ := mirrors.objects p here
  have installed := allocated_installed ((Swept.steps (collectIfDue_swept h)).intact mirrors.intact) object
  have due : h.collectIfDue.object? p = some other := by
    rcases calm with kept | quiet
    · unfold Heap.collectIfDue
      split
      · exact (collect_kept mirrors.intact (kept p here) present).1
      · exact present
    · rw [installed.history] at quiet
      rw [collectIfDue_quiet quiet]
      exact present
  rw [installed.kept_object due,present]

theorem intern (mirrors : Mirrors f known h k) (text : String) : ∃ f' known', Mirrors f' known' (h.intern text).2 (k.intern text).2 ∧
    (∀ r, known r → known' r ∧ f' r = f r) ∧ (∀ r, known' r → known r ∨ (h.intern text).2.Immortal r) ∧
    (k.intern text).1 = (h.intern text).1.rename f' ∧ (h.intern text).1.Within known' := by
  rcases intern_cases text mirrors.intact with ⟨t,rfl,short⟩ | ⟨r,listed,found⟩ | ⟨r,h',new,installed,roots,words,absent,long⟩
  · have short' : k.intern t.text = (.short t,k) := by
      simp only [Heap.intern,ofString?_some.mpr rfl]
    rw [short,short']
    exact ⟨f,known,mirrors,fun r here => ⟨here,rfl⟩,fun r here => Or.inl here,rfl,Value.within_plain rfl⟩
  · have listed' : k.interned.get? text = some (f r) := by
      rw [mirrors.interned,listed]
      rfl
    have long : ShortText.ofString? text = none := by
      simp only [Heap.intern] at found
      cases short : ShortText.ofString? text with
      | none => rfl
      | some t =>
          rw [short] at found
          cases found
    have found' : k.intern text = (.str (f r),k) := by
      simp only [Heap.intern,long,listed']
    rw [found,found']
    exact ⟨f,known,mirrors,fun r here => ⟨here,rfl⟩,fun r here => Or.inl here,rfl,fun q handle => by cases handle; exact mirrors.words text r listed⟩
  · have absent' : k.interned.get? text = none := by
      rw [mirrors.interned,absent]
      rfl
    rcases intern_cases text mirrors.image with ⟨t,rfl,_⟩ | ⟨q,listed',_⟩ | ⟨q,k',new',installed',roots',words',_,_⟩
    · exact absurd t.fits (by omega)
    · rw [absent'] at listed'
      cases listed'
    · have config := intern_config h text
      have config' := intern_config k text
      have intact := intern_intact text mirrors.intact
      have image := intern_intact text mirrors.image
      rw [new] at config intact ⊢
      rw [new'] at config' image ⊢
      refine ⟨_,_,mirrors.installed installed installed' intact image roots roots' (fun v refers => by cases refers) ?_ config config',
        ?_,?_,?_,?_⟩
      · intro other
        simp only [words,words',Std.TreeMap.get?_eq_getElem?,Std.TreeMap.getElem?_insert]
        split
        · exact Or.inr ⟨rfl,rfl⟩
        · exact Or.inl ⟨rfl,rfl⟩
      · intro p here
        refine ⟨Or.inl here,Function.update_of_ne (fun same => ?_) _ _⟩
        have live := mirrors.live here
        rw [same,installed.dead] at live
        cases live
      · intro p here
        rcases here with here | rfl
        · exact Or.inl here
        · exact Or.inr (installed.immortal_here.mpr rfl)
      · simp only [Value.rename,Function.update_self]
      · intro p handle
        cases handle
        exact Or.inr rfl

end Mirrors

end RegisterMachine.Heap
