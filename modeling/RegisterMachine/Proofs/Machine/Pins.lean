import RegisterMachine.Machine.Basic
import RegisterMachine.Proofs.Heap.Reachable
import RegisterMachine.Proofs.Heap.Scopes

namespace RegisterMachine

theorem Heap.Apart.sound {h h' : Heap} (apart : Heap.Apart h h') (sound : h.Sound v) : h'.Sound v :=
  sound.move (Heap.object?_slots apart.slots)

theorem Heap.Apart.trans {h h' h'' : Heap} (first : Heap.Apart h h') (second : Heap.Apart h' h'') : Heap.Apart h h'' :=
  ⟨second.slots.trans first.slots,second.marks.trans first.marks,second.work.trans first.work,second.free.trans first.free,
    second.live.trans first.live,second.bytes.trans first.bytes,second.threshold.trans first.threshold,
    second.history.trans first.history,second.interned.trans first.interned,second.limit.trans first.limit⟩

theorem Heap.roots_safe {h : Heap} {roots : Array (Option Value)} {freeRoots : List Nat} (safe : h.Safe)
    (sound : ∀ w, some w ∈ roots → h.Sound w) : { h with roots,freeRoots }.Safe := by
  refine safe.reroot (by constructor <;> rfl) ?_ safe.opened
  intro v root
  cases root with
  | shadow member => exact safe.rooted v (.shadow member)
  | persistent member => exact sound v member
  | register member => exact safe.rooted _ (.register member)
  | name member => exact safe.rooted _ (.name member)
  | callback member marked => exact safe.rooted v (.callback member marked)

theorem Heap.setRoots_safe {h : Heap} {place : Option Value} {freeRoots : List Nat} (id : Nat) (safe : h.Safe)
    (sound : ∀ w, place = some w → h.Sound w) : { h with roots := h.roots.setIfInBounds id place,freeRoots }.Safe := by
  refine Heap.roots_safe safe fun w member => ?_
  rcases Array.mem_or_eq_of_mem_setIfInBounds member with before | same
  · exact safe.rooted w (.persistent before)
  · exact sound w same.symm

theorem Heap.setRoot_safe {h : Heap} (id : Nat) (safe : h.Safe) (sound : h.Sound v) : (h.setRoot id v).Safe :=
  Heap.setRoots_safe id safe fun w same => by cases same; exact sound

theorem Heap.addRoot_safe {h : Heap} (safe : h.Safe) (sound : h.Sound v) : (h.addRoot v).2.Safe := by
  unfold Heap.addRoot
  split
  · exact Heap.setRoots_safe _ safe fun w same => by cases same; exact sound
  · refine Heap.roots_safe safe fun w member => ?_
    rcases Array.mem_push.mp member with before | same
    · exact safe.rooted w (.persistent before)
    · cases same
      exact sound

theorem Heap.removeRoot_safe {h : Heap} (id : Nat) (safe : h.Safe) : (h.removeRoot id).Safe := by
  unfold Heap.removeRoot
  split
  · exact Heap.setRoots_safe id safe (by simp)
  · exact safe

namespace Pinned

def Holds (h : Heap) (p : Pinned) : Prop :=
  match p.pin with
  | some id => h.roots[id]? = some (some p.value)
  | none => p.value.handle? = none

theorem Holds.kept {h : Heap} {p : Pinned} (holds : p.Holds h) (safe : h.Safe) : h.Kept p.value := by
  unfold Holds at holds
  split at holds
  · exact safe.root_kept (.persistent (Array.mem_of_getElem? holds))
  · exact Heap.kept_plain h holds

theorem Holds.move {h h' : Heap} {p : Pinned} (holds : p.Holds h) (same : ∀ id, p.pin = some id → h'.roots[id]? = h.roots[id]?) :
    p.Holds h' := by
  unfold Holds at holds ⊢
  cases pinned : p.pin with
  | none => simpa only [pinned] using holds
  | some id =>
      simp only [pinned] at holds ⊢
      rw [same id pinned]
      exact holds

theorem set_value (p : Pinned) (h : Heap) (v : Value) : (p.set h v).1.value = v := by
  unfold set
  split
  · rfl
  · split <;> rfl

theorem set_safe {h : Heap} (p : Pinned) (safe : h.Safe) (sound : h.Sound v) : (p.set h v).2.Safe := by
  unfold set
  split
  · exact Heap.setRoot_safe _ safe sound
  · split
    · exact Heap.addRoot_safe safe sound
    · exact safe

theorem set_apart (p : Pinned) (h : Heap) (v : Value) : Heap.Apart h (p.set h v).2 := by
  unfold set
  split
  · constructor <;> rfl
  · split
    · exact Heap.addRoot_apart h v
    · constructor <;> rfl

theorem release_safe {h : Heap} (p : Pinned) (safe : h.Safe) : (p.release h).Safe := by
  unfold release
  split
  · exact Heap.removeRoot_safe _ safe
  · exact safe

theorem release_apart (p : Pinned) (h : Heap) : Heap.Apart h (p.release h) := by
  unfold release
  split
  · exact Heap.removeRoot_apart h _
  · constructor <;> rfl

end Pinned

-- The roots of the type maps, of the intrinsics and of the result.
def Ledger.lasting : List Nat := List.range' (Machine.typeRoot 0) (Machine.typeRootCount + 2)

-- The numbers of roots in use or free.
def Ledger.ids (h : Heap) (pinned : List Pinned) : List Nat :=
  Ledger.lasting ++ (pinned.flatMap (·.pin.toList) ++ h.freeRoots)

structure Ledger (h : Heap) (pinned : List Pinned) : Prop where
  once : (Ledger.ids h pinned).Nodup
  inside : ∀ id ∈ Ledger.ids h pinned, id < h.roots.size
  held : ∀ p ∈ pinned, p.Holds h

namespace Ledger

variable {h h' : Heap} {p : Pinned} {pinned rest : List Pinned} {id : Nat}

theorem mem_pin (member : p ∈ pinned) (pin : p.pin = some id) : id ∈ pinned.flatMap (·.pin.toList) :=
  List.mem_flatMap.mpr ⟨p,member,by rw [pin]; exact List.mem_singleton.mpr rfl⟩

theorem perm (ledger : Ledger h pinned) (same : pinned.Perm rest) : Ledger h rest := by
  have ids : (Ledger.ids h pinned).Perm (Ledger.ids h rest) := ((same.flatMap_right _).append_right _).append_left _
  exact ⟨ids.nodup_iff.mp ledger.once,fun id member => ledger.inside id (ids.mem_iff.mpr member),
    fun p member => ledger.held p (same.mem_iff.mpr member)⟩

theorem steady (ledger : Ledger h pinned) (roots : h'.roots = h.roots) (free : h'.freeRoots = h.freeRoots) :
    Ledger h' pinned := by
  have ids : Ledger.ids h' pinned = Ledger.ids h pinned := by rw [Ledger.ids,Ledger.ids,free]
  exact ⟨ids ▸ ledger.once,fun id member => roots ▸ ledger.inside id (ids ▸ member),
    fun p member => (ledger.held p member).move fun _ _ => by rw [roots]⟩

theorem away (ledger : Ledger h pinned) (unused : id ∉ pinned.flatMap (·.pin.toList))
    (same : ∀ j, j ≠ id → h'.roots[j]? = h.roots[j]?) : ∀ p ∈ pinned, p.Holds h' := by
  intro p member
  refine (ledger.held p member).move fun j pin => same j ?_
  rintro rfl
  exact unused (mem_pin member pin)

theorem setRoot_others (h : Heap) (id : Nat) (v : Value) : ∀ j, j ≠ id → (h.setRoot id v).roots[j]? = h.roots[j]? := by
  intro j other
  simp only [Heap.setRoot,Array.getElem?_setIfInBounds]
  rw [if_neg (Ne.symm other)]

theorem setRoot_here (inside : id < h.roots.size) (v : Value) : (h.setRoot id v).roots[id]? = some (some v) := by
  simp [Heap.setRoot,inside]

theorem setRoot_size (h : Heap) (id : Nat) (v : Value) : (h.setRoot id v).roots.size = h.roots.size := by
  simp [Heap.setRoot]

theorem setLasting (ledger : Ledger h pinned) (v : Value) (lasts : id ∈ Ledger.lasting) :
    Ledger (h.setRoot id v) pinned where
  once := ledger.once
  inside := fun j member => (setRoot_size h id v).symm ▸ ledger.inside j member
  held := by
    refine ledger.away (fun member => ?_) (setRoot_others h id v)
    exact (List.nodup_append.mp ledger.once).2.2 id lasts id (List.mem_append_left _ member) rfl

theorem blank (ledger : Ledger h pinned) : Ledger h ({} :: pinned) where
  once := ledger.once
  inside := ledger.inside
  held := by
    intro p member
    rcases List.mem_cons.mp member with rfl | before
    · rfl
    · exact ledger.held p before

theorem tail (ledger : Ledger h (p :: rest)) : Ledger h rest := by
  have fewer : (Ledger.ids h rest).Sublist (Ledger.ids h (p :: rest)) := by
    refine List.Sublist.append_left (List.Sublist.append_right ?_ _) _
    rw [List.flatMap_cons]
    exact List.sublist_append_right _ _
  exact ⟨ledger.once.sublist fewer,fun id member => ledger.inside id (fewer.subset member),
    fun q member => ledger.held q (List.mem_cons_of_mem _ member)⟩

theorem cons_ids (h : Heap) (p : Pinned) (pin : p.pin = some id) (rest : List Pinned) :
    (Ledger.ids h (p :: rest)).Perm (id :: Ledger.ids h rest) := by
  simp only [Ledger.ids,List.flatMap_cons,pin,Option.toList_some]
  exact List.perm_middle

theorem pin_unused (ledger : Ledger h (p :: rest)) (pin : p.pin = some id) :
    id ∉ rest.flatMap (·.pin.toList) ∧ id < h.roots.size := by
  have perm := cons_ids h p pin rest
  have once := (List.nodup_cons.mp (perm.nodup_iff.mp ledger.once)).1
  refine ⟨fun member => once ?_,ledger.inside id (perm.mem_iff.mpr List.mem_cons_self)⟩
  exact List.mem_append_right _ (List.mem_append_left _ member)

theorem add (ledger : Ledger h rest) (v : Value) :
    Ledger (h.addRoot v).2 ({ value := v,pin := some (h.addRoot v).1 } :: rest) := by
  cases free : h.freeRoots with
  | nil =>
      have made : h.addRoot v = (h.roots.size,{ h with roots := h.roots.push (some v) }) := by simp only [Heap.addRoot,free]
      have ids := cons_ids { h with roots := h.roots.push (some v) } { value := v,pin := some h.roots.size } rfl rest
      have known : Ledger.ids { h with roots := h.roots.push (some v) } rest = Ledger.ids h rest := rfl
      have fresh : h.roots.size ∉ Ledger.ids h rest := fun member => Nat.lt_irrefl _ (ledger.inside _ member)
      rw [known] at ids
      rw [made]
      refine ⟨ids.nodup_iff.mpr (List.nodup_cons.mpr ⟨fresh,ledger.once⟩),fun j member => ?_,fun q member => ?_⟩
      · rw [Array.size_push]
        rcases List.mem_cons.mp (ids.mem_iff.mp member) with rfl | old
        · exact Nat.lt_succ_self _
        · exact Nat.lt_succ_of_lt (ledger.inside j old)
      · rcases List.mem_cons.mp member with rfl | old
        · exact Array.getElem?_push_size
        · refine (ledger.held q old).move fun j pin => ?_
          have bound := ledger.inside j (List.mem_append_right _ (List.mem_append_left _ (mem_pin old pin)))
          simp [Array.getElem?_push,Nat.ne_of_lt bound]
  | cons id others =>
      have made : h.addRoot v = (id,{ h with freeRoots := others,roots := h.roots.setIfInBounds id (some v) }) := by
        simp only [Heap.addRoot,free]
      rw [made]
      have ids : (Ledger.ids { h with freeRoots := others,roots := h.roots.setIfInBounds id (some v) }
          ({ value := v,pin := some id } :: rest)).Perm (Ledger.ids h rest) := by
        simp only [Ledger.ids,free,List.flatMap_cons,Option.toList_some,List.cons_append,List.nil_append]
        exact List.Perm.append_left _ List.perm_middle.symm
      have listed : id ∈ Ledger.ids h rest := List.mem_append_right _ (List.mem_append_right _ (by simp [free]))
      have unused : id ∉ rest.flatMap (·.pin.toList) := by
        intro member
        have tail := (List.nodup_append.mp ledger.once).2.1
        exact (List.nodup_append.mp tail).2.2 id member id (by simp [free]) rfl
      refine ⟨ids.nodup_iff.mpr ledger.once,fun j member => ?_,fun q member => ?_⟩
      · simpa using ledger.inside j (ids.mem_iff.mp member)
      · rcases List.mem_cons.mp member with rfl | old
        · exact setRoot_here (ledger.inside id listed) v
        · refine (ledger.held q old).move fun j pin => setRoot_others h id v j ?_
          rintro rfl
          exact unused (mem_pin old pin)

theorem set (ledger : Ledger h (p :: rest)) (v : Value) : Ledger (p.set h v).2 ((p.set h v).1 :: rest) := by
  cases pin : p.pin with
  | some id =>
      have made : p.set h v = ({ value := v,pin := some id },h.setRoot id v) := by simp only [Pinned.set,pin]
      obtain ⟨unused,inside⟩ := ledger.pin_unused pin
      have ids : Ledger.ids (h.setRoot id v) ({ value := v,pin := some id } :: rest) = Ledger.ids h (p :: rest) := by
        simp [Ledger.ids,pin,Heap.setRoot]
      rw [made]
      refine ⟨ids ▸ ledger.once,fun j member => ?_,fun q member => ?_⟩
      · rw [setRoot_size]
        exact ledger.inside j (ids ▸ member)
      · rcases List.mem_cons.mp member with rfl | before
        · exact setRoot_here inside v
        · refine (ledger.held q (List.mem_cons_of_mem _ before)).move fun j other => setRoot_others h id v j ?_
          rintro rfl
          exact unused (mem_pin before other)
  | none =>
      have later := ledger.tail
      by_cases behind : v.handle?.isSome = true
      · have made : p.set h v = ({ value := v,pin := some (h.addRoot v).1 },(h.addRoot v).2) := by
          simp only [Pinned.set,pin,behind,if_true]
        rw [made]
        exact later.add v
      · have made : p.set h v = ({ value := v,pin := none },h) := by
          simp only [Pinned.set,pin,behind,Bool.false_eq_true,if_false]
        rw [made]
        refine ⟨later.once,later.inside,fun q member => ?_⟩
        rcases List.mem_cons.mp member with rfl | before
        · exact Option.not_isSome_iff_eq_none.mp behind
        · exact later.held q before

theorem release (ledger : Ledger h (p :: rest)) : Ledger (p.release h) rest := by
  cases pin : p.pin with
  | none =>
      have made : p.release h = h := by simp only [Pinned.release,pin]
      rw [made]
      exact ledger.tail
  | some id =>
      have made : p.release h = h.removeRoot id := by simp only [Pinned.release,pin]
      rw [made]
      obtain ⟨unused,inside⟩ := ledger.pin_unused pin
      have holds := ledger.held p List.mem_cons_self
      simp only [Pinned.Holds,pin] at holds
      have given : h.removeRoot id = { h with roots := h.roots.setIfInBounds id none,freeRoots := id :: h.freeRoots } := by
        simp only [Heap.removeRoot,Array.getD_eq_getD_getElem?,holds,Option.getD_some]
      have ids : (Ledger.ids h (p :: rest)).Perm (Ledger.ids (h.removeRoot id) rest) := by
        rw [given]
        simp only [Ledger.ids,List.flatMap_cons,pin,Option.toList_some,List.cons_append,List.nil_append]
        exact List.Perm.append_left _ List.perm_middle.symm
      refine ⟨ids.nodup_iff.mp ledger.once,fun j member => ?_,fun q member => ?_⟩
      · have bound := ledger.inside j (ids.mem_iff.mpr member)
        rw [given]
        simpa using bound
      · refine (ledger.held q (List.mem_cons_of_mem _ member)).move fun j other => ?_
        have different : id ≠ j := by
          rintro rfl
          exact unused (mem_pin member other)
        rw [given]
        simp [different]

end Ledger

-- Books about pins, kept in any order: a value that holds nothing yet may join, values may be set,
-- and a value that is released leaves.
structure Bookkeeping (books : Heap → List Pinned → Prop) : Prop where
  perm {h : Heap} {pinned rest : List Pinned} : books h pinned → pinned.Perm rest → books h rest
  blank {h : Heap} {pinned : List Pinned} : books h pinned → books h ({} :: pinned)
  set {h : Heap} {p : Pinned} {rest : List Pinned} (v : Value) : books h (p :: rest) → books (p.set h v).2 ((p.set h v).1 :: rest)
  release {h : Heap} {p : Pinned} {rest : List Pinned} : books h (p :: rest) → books (p.release h) rest

theorem Ledger.bookkeeping : Bookkeeping Ledger := ⟨perm,blank,fun v ledger => ledger.set v,release⟩

end RegisterMachine
