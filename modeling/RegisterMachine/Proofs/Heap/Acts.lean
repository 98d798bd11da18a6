import RegisterMachine.Proofs.Heap.Names

namespace RegisterMachine

-- A table changed in place: its invariant is kept, and it does not take up aliases.
structure Table.Changed (before after : Table) : Prop where
  valid : before.Valid → after.Valid
  aliases : after.aliases.isSome = true → before.aliases.isSome = true

-- The changes of a table, in the heap that hashes and compares its keys. A key is entered only when
-- no entry of its hash has the same key.
inductive Table.Edit (named : Handle → Prop) (h : Heap) (t : Table) : Table → Prop where
  | value : Edit named h t (t.setValue i value)
  | enter : (t.find? (h.hash key) fun k => h.sameKey k key) = none → key.Named named →
      Edit named h t (t.insertNew { key, value, hash := h.hash key })
  | remove : cellAt t.cells i = some entry → Edit named h t (t.removeAt i)
  | clear : Edit named h t t.clear
  | bind : name.Named named → Edit named h t { t with aliases := t.aliases.map (·.push name register) }
  | detach : Edit named h t { t with aliases := none }

theorem Table.insertNew_aliases (table : Table) (entry : Entry) : (table.insertNew entry).aliases = table.aliases := by
  simp only [Table.insertNew]
  split <;> rfl

theorem Table.Edit.changed (edit : Table.Edit named h before after) : before.Changed after := by
  cases edit with
  | value => exact ⟨Table.setValue_valid _ _,fun some => some⟩
  | enter => exact ⟨Table.insertNew_valid _,fun some => Table.insertNew_aliases before _ ▸ some⟩
  | remove present => exact ⟨fun valid => Table.removeAt_valid valid present,fun some => some⟩
  | clear => exact ⟨Table.clear_valid,fun some => some⟩
  | bind => exact ⟨fun valid => valid.of_same rfl rfl,by simp⟩
  | detach => exact ⟨fun valid => valid.of_same rfl rfl,by simp⟩

theorem Table.Edit.keeps {t t' : Table} (edit : t.Edit named h t') (held : t.Named named) : t'.Named named := by
  cases edit with
  | value => exact ⟨held.keys.setValue _ _,held.aliases⟩
  | enter _ key => exact ⟨held.keys.insertNew key,by rw [Table.insertNew_aliases]; exact held.aliases⟩
  | remove => exact ⟨(held.keys.vacate _).restore _ _,held.aliases⟩
  | clear => exact ⟨.blank _,held.aliases⟩
  | bind name =>
      refine ⟨held.keys,fun aliases bound binding member => ?_⟩
      obtain ⟨before,some,rfl⟩ := Option.map_eq_some_iff.mp bound
      rcases Array.mem_push.mp member with old | rfl
      · exact held.aliases before some binding old
      · exact name
  | detach => exact ⟨held.keys,fun _ none => by cases none⟩

theorem Table.charge_same {t t' : Table} (cells : t'.cells.size = t.cells.size) (aliases : t'.aliases = t.aliases) :
    (Object.map t').charge = (Object.map t).charge := by
  simp only [Object.charge,cells,aliases]

-- An object that is no alias map.
def Object.Unaliased (object : Object) : Prop := ∀ t, object = .map t → t.aliases = none

-- An object as operations make it: a text that is too long to be interned, or an empty map.
inductive Object.Made : Object → Prop where
  | str : Heap.internThreshold ≤ text.utf8ByteSize → Made (.str text)
  | list {list : ListObject} : Made (.list list)
  | map : Made (.map (.withCapacity capacity))
  | funcRef : Made (.funcRef ref)

theorem Object.Made.sane {object : Object} (made : object.Made) : object.Sane := by
  cases made with
  | str long => exact Heap.sane_str long
  | list => exact Heap.sane_list _
  | map => exact Heap.sane_map (Table.withCapacity_valid _)
  | funcRef => exact Heap.sane_funcRef _

theorem Object.Made.unaliased {object : Object} (made : object.Made) : object.Unaliased := by
  intro t same
  cases made with
  | map => cases same; rfl
  | str | list | funcRef => cases same

namespace Heap

inductive Deeds (named : Handle → Prop) : (Handle → Prop) → (Handle → Prop) → Heap → Heap → Prop where
  | refl : Deeds named written loose h h
  | trans : Deeds named written loose h h' → Deeds named written loose h' h'' → Deeds named written loose h h''
  -- Protected values and persistent roots.
  | reroot {shadow : List Value} {scopes : List Nat} {roots : Array (Option Value)} {freeRoots : List Nat} :
      Deeds named written loose h { h with shadow, scopes, roots, freeRoots }
  | register {change : Register → Register} : (∀ register, register.name.Named named → (change register).name.Named named) →
      Deeds named written loose h { h with registers := h.registers.modify i change }
  | list {change : ListObject → ListObject} : h.isLive r = true →
      (∀ l, h.object? r = some (.list l) → loose r ∨ (change l).capacity = l.capacity) →
      Deeds named written loose h (h.modifyList r change)
  | table {change : Table → Table} : h.isLive r = true →
      (∀ t, h.object? r = some (.map t) → t.Edit named h (change t) ∧
        (loose r ∨ (Object.map (change t)).charge = (Object.map t).charge)) →
      written r → Deeds named written loose h (h.modifyTable r change)
  -- The charge of an object is brought up to date after it changed.
  | settle : Deeds named written (fun q => loose q ∨ q = r) h h' → Deeds named written loose h (h'.recharge r)
  | freeze : Deeds named written loose h (h.freeze v)
  | collect : Deeds named written loose h h.collect.2
  | install {object : Object} : object.Made → h.exceedsLimit object.charge = false →
      Deeds named written loose h (h.allocated object).2
  | intern : Deeds named written loose h (h.intern text).2
  -- A map that was not there at the start, or had aliases then.
  | besides : Deeds named (fun q => written q ∨ q = r) loose h h' →
      (h.Intact → ∀ t, h.object? r = some (.map t) → t.aliases.isSome = true) → Deeds named written loose h h'

-- Whatever the keys are, and whatever becomes of the charges.
abbrev Acts (written : Handle → Prop) : Heap → Heap → Prop := Deeds (fun _ => True) written fun _ => True

theorem Acts.register {h : Heap} {change : Register → Register} : Acts written h { h with registers := h.registers.modify i change } :=
  Deeds.register fun _ _ => Value.named_all _

theorem Deeds.steps (deeds : Deeds named written loose h h') : Steps h h' := by
  induction deeds with
  | refl => exact .refl
  | trans _ _ first second => exact first.trans second
  | reroot => exact .apart (by constructor <;> rfl)
  | register => exact .apart (registers_apart _ _)
  | list => exact modifyList_steps _ _ _
  | @table h r _ _ change live edits _ =>
      refine modifyTable_steps fun slot table present content => ?_
      obtain ⟨object,found⟩ := Option.isSome_iff_exists.mp live
      obtain ⟨other,same,generation,_⟩ := object?_slot.mp found
      rw [present] at same
      cases same
      exact (edits table (object?_slot.mpr ⟨slot,present,generation,content⟩)).1.changed.valid
  | settle _ ih => exact ih.trans (recharge_steps _ _)
  | freeze => exact freeze_steps _ _
  | collect => exact .single .collect
  | install made room => exact .single (.install made.sane room)
  | intern => exact .single .intern
  | besides _ _ ih => exact ih

theorem Deeds.fresh (deeds : Deeds named (fun q => written q ∨ q = r) loose h h') (fresh : h.Intact → h.object? r = none) :
    Deeds named written loose h h' := by
  refine .besides deeds fun intact t present => ?_
  rw [fresh intact] at present
  cases present

theorem Deeds.mono (deeds : Deeds named written loose h h') (wider : ∀ r, written r → may r) : Deeds named may loose h h' := by
  induction deeds generalizing may with
  | refl => exact .refl
  | trans _ _ first second => exact (first wider).trans (second wider)
  | reroot => exact .reroot
  | register names => exact .register names
  | list live room => exact .list live room
  | table live edits written => exact .table live edits (wider _ written)
  | settle _ ih => exact .settle (ih wider)
  | freeze => exact .freeze
  | collect => exact .collect
  | install made room => exact .install made room
  | intern => exact .intern
  | besides _ start ih => exact .besides (ih fun r either => either.imp_left (wider r)) start

theorem Deeds.intact (deeds : Deeds named written loose h h') (intact : h.Intact) : h'.Intact := deeds.steps.intact intact

theorem modifyObject_before {h : Heap} {change : Object → Object} (live : h.isLive r = true)
    (later : (h.modifyObject r change).object? q = some object) :
    (q = r ∧ ∃ old, h.object? r = some old ∧ object = change old) ∨ h.object? q = some object := by
  obtain ⟨old,present⟩ := Option.isSome_iff_exists.mp live
  have touched := modifyObject_touched change present
  by_cases here : q = r
  · subst q
    rw [touched.here,Option.some.injEq] at later
    exact Or.inl ⟨rfl,old,present,later.symm⟩
  · rw [touched.others q here] at later
    exact Or.inr later

theorem Deeds.names (deeds : Deeds named written loose h h') (names : h.Names named) : h'.Names named := by
  induction deeds with
  | refl => exact names
  | trans _ _ ih ih' => exact ih' (ih names)
  | reroot => exact names.carry rfl fun r table present => Or.inr ⟨table,present,rfl,rfl⟩
  | register kept =>
      refine ⟨names.tables,fun register member => ?_⟩
      rcases mem_modify member with before | ⟨old,before,rfl⟩
      · exact names.registers register before
      · exact kept old (names.registers old before)
  | list live =>
      refine names.carry rfl fun q table present => Or.inr ?_
      rcases modifyObject_before live present with ⟨rfl,old,there,same⟩ | before
      · cases old with
        | map before => cases same; exact ⟨_,there,rfl,rfl⟩
        | str | list | funcRef => cases same
      · exact ⟨table,before,rfl,rfl⟩
  | table live edits =>
      refine names.carry rfl fun q table present => ?_
      rcases modifyObject_before live present with ⟨rfl,old,there,same⟩ | before
      · cases old with
        | map before => cases same; exact Or.inl ((edits before there).1.keeps (names.tables q before there))
        | str | list | funcRef => cases same
      · exact Or.inr ⟨table,before,rfl,rfl⟩
  | settle _ ih =>
      refine (ih names).carry (recharge_roots _ _).registers fun r table present => Or.inr ⟨table,?_,rfl,rfl⟩
      rwa [recharge_object] at present
  | freeze =>
      refine names.carry rfl fun r table present => Or.inr ?_
      rw [freeze_object] at present
      obtain ⟨old,there,same⟩ := Option.map_eq_some_iff.mp present
      split at same
      · cases old with
        | map before => cases same; exact ⟨_,there,rfl,rfl⟩
        | str | list | funcRef => cases same
      · subst same
        exact ⟨table,there,rfl,rfl⟩
  | collect => exact names.carry (collect_roots _).registers fun r table present => Or.inr ⟨table,collect_before present,rfl,rfl⟩
  | install made =>
      refine names.carry (allocated_roots _ _).registers fun r table present => ?_
      rcases install_before present with same | before
      · cases made with
        | map => cases same; exact Or.inl (.withCapacity _)
        | str | list | funcRef => cases same
      · exact Or.inr ⟨table,before,rfl,rfl⟩
  | intern =>
      refine names.carry (intern_registers _ _) fun r table present => Or.inr ?_
      rcases intern_before present with same | before
      · cases same
      · exact ⟨table,before,rfl,rfl⟩
  | besides _ _ ih => exact ih names

def Does (named written loose : Handle → Prop) (operation : HeapM α) : Prop :=
  ∀ h, h.Names named → Deeds named written loose h (after operation h)

abbrev Performs (written : Handle → Prop) (operation : HeapM α) : Prop := Does (fun _ => True) written (fun _ => True) operation

-- What an operation gives back when it succeeds.
def Delivers (operation : HeapM α) (result : α → Prop) : Prop := ∀ h a h', operation h = .ok a h' → result a

theorem Delivers.any (operation : HeapM α) : Delivers operation fun _ => True := fun _ _ _ _ => trivial

theorem Delivers.pure {a : α} (held : result a) : Delivers (Pure.pure a : HeapM α) result := by
  intro h b h' done
  cases done
  exact held

theorem Delivers.bind {first : HeapM α} {rest : α → HeapM β} (delivers : Delivers first given)
    (follows : ∀ a, given a → Delivers (rest a) result) : Delivers (first >>= rest) result := by
  intro h b h' done
  simp only [Bind.bind,EStateM.bind] at done
  cases start : first h with
  | ok a s =>
      rw [start] at done
      exact follows a (delivers h a s start) s b h' done
  | error e s =>
      rw [start] at done
      cases done

theorem Does.pure (a : α) : Does named written loose (Pure.pure a : HeapM α) := fun _ _ => .refl

theorem Does.throw (e : Error) : Does named written loose (MonadExcept.throw e : HeapM α) := fun _ _ => .refl

theorem Does.modify {change : Heap → Heap} (acts : ∀ h, Deeds named written loose h (change h)) :
    Does named written loose (modify change : HeapM PUnit) := fun h _ => acts h

theorem Does.get_bind {rest : Heap → HeapM β} (follows : ∀ h, h.Names named → Does named written loose (rest h)) :
    Does named written loose (MonadState.get >>= rest) := fun h names => follows h names h names

theorem Does.bind_given {first : HeapM α} {rest : α → HeapM β} (does : Does named written loose first)
    (delivers : Delivers first result) (follows : ∀ a, result a → Does named written loose (rest a)) :
    Does named written loose (first >>= rest) := by
  intro h names
  have start := does h names
  cases done : first h with
  | ok a s =>
      have given := delivers h a s done
      simp only [after,Bind.bind,EStateM.bind,done] at start ⊢
      exact start.trans (follows a given s (start.names names))
  | error e s => simpa only [after,Bind.bind,EStateM.bind,done] using start

theorem Does.bind {first : HeapM α} {rest : α → HeapM β} (does : Does named written loose first)
    (follows : ∀ a, Does named written loose (rest a)) : Does named written loose (first >>= rest) :=
  does.bind_given (.any first) fun a _ => follows a

theorem Does.map {operation : HeapM α} (f : α → β) (does : Does named written loose operation) :
    Does named written loose (f <$> operation) := by
  intro h names
  rw [after_map]
  exact does h names

theorem protect_acts (h : Heap) (v : Value) : Deeds named written loose h (h.protect v) := .reroot

theorem pushScope_acts (h : Heap) : Deeds named written loose h h.pushScope := .reroot

theorem popScope_acts (h : Heap) : Deeds named written loose h h.popScope := by
  unfold popScope
  split
  · exact .reroot
  · exact .refl

theorem unprotect_acts (h : Heap) : Deeds named written loose h h.unprotect.2 := by
  unfold unprotect
  split
  · split
    · exact .reroot
    · exact .refl
  · exact .refl

theorem addRoot_acts (h : Heap) (v : Value) : Deeds named written loose h (h.addRoot v).2 := by
  unfold addRoot
  split
  · exact .reroot
  · exact .reroot

theorem removeRoot_acts (h : Heap) (id : Nat) : Deeds named written loose h (h.removeRoot id) := by
  unfold removeRoot
  split
  · exact .reroot
  · exact .refl

theorem Does.inScope {operation : HeapM α} (does : Does named written loose operation) :
    Does named written loose (inScope operation) := by
  intro h names
  have opened : Deeds named written loose h h.pushScope := pushScope_acts h
  have inside := does h.pushScope (opened.names names)
  cases result : operation h.pushScope with
  | ok a s =>
      simp only [after,Heap.inScope,result] at inside ⊢
      exact (opened.trans inside).trans (popScope_acts s)
  | error e s =>
      simp only [after,Heap.inScope,result] at inside ⊢
      exact (opened.trans inside).trans (popScope_acts s)

theorem Swept.acts (swept : Swept h h') : Deeds named written loose h h' := by
  induction swept with
  | refl => exact .refl
  | tail _ last ih => subst last; exact ih.trans .collect

theorem Swept.slot {h s : Heap} {i : Nat} {slot : Slot} (swept : Swept h s) (present : h.slots[i]? = some slot) :
    s.slots[i]? = some slot ∨ s.slots[i]? = some (emptied slot) := by
  induction swept with
  | refl => exact Or.inl present
  | @tail s _ _ last ih =>
      subst last
      by_cases enabled : s.disabled = 0
      · rw [collect_enabled enabled]
        rcases ih with same | gone
        · rw [swept_slot,swept_slot]
          by_cases dead : dies s.mark.marks i slot = true
          · exact Or.inr ⟨slot,same,if_pos dead⟩
          · exact Or.inl ⟨slot,same,if_neg dead⟩
        · exact Or.inr (swept_slot.mpr ⟨emptied slot,gone,if_neg fun dead => (dies_mortal dead).2 rfl⟩)
      · rw [collect_disabled enabled]
        exact ih

theorem allocate_fresh {h h' : Heap} (intact : h.Intact) (made : allocate object h = .ok r h') : h.object? r = none := by
  obtain ⟨s,swept,⟨_,failed⟩ | ⟨_,done⟩⟩ := allocate_parts object h
  · rw [failed] at made
    cases made
  · rw [done] at made
    cases made
    have installed := allocated_installed (swept.steps.intact intact) object
    rw [Option.eq_none_iff_forall_ne_some]
    intro other found
    obtain ⟨slot,present,generation,content⟩ := object?_slot.mp found
    rcases Swept.slot swept present with same | gone
    · rw [installed.vacant slot same] at content
      cases content
    · have later := installed.generation
      rw [slotAt_some gone,← generation] at later
      exact absurd later (by simp [emptied])

end Heap

end RegisterMachine
