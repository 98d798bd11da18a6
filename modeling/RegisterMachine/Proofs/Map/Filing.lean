import RegisterMachine.Proofs.Heap.Evolution
import RegisterMachine.Proofs.Heap.Reachable
import RegisterMachine.Proofs.Map.Keys

namespace RegisterMachine

-- The keys of the entries, under the hashes that they were bound with.
def Table.filings (table : Table) : List (Value × UInt32) := table.entries.map fun entry => (entry.key,entry.hash)

theorem Table.filings_contents (table : Table) :
    table.filings = (contents table.cells).map fun entry => (entry.key,entry.hash) := rfl

theorem Table.filings_setValue (table : Table) (i : Nat) (value : Value) : (table.setValue i value).filings = table.filings := by
  simp only [filings_contents,contents,setValue,Array.toList_modify]
  induction table.cells.toList generalizing i with
  | nil => simp
  | cons head rest ih =>
      cases i with
      | zero => cases head <;> simp
      | succ i =>
          cases head with
          | none => exact ih i
          | some entry => exact congrArg (List.cons _) (ih i)

theorem Table.filings_insertNew {table : Table} (key value : Value) (hash : UInt32) (valid : table.Valid) :
    (table.insertNew { key,value,hash }).filings.Perm ((key,hash) :: table.filings) :=
  (Table.insertNew_contents { key,value,hash } valid).map _

theorem Table.filings_removeAt {table : Table} (valid : table.Valid) (present : cellAt table.cells i = some entry) :
    table.filings.Perm ((entry.key,entry.hash) :: (table.removeAt i).filings) := by
  obtain ⟨_,_,_,listed⟩ := Table.removeAt_mends valid present
  exact listed.map _

namespace Heap

-- The key of an entry that was bound while its key was there.
def filedKey (h : Heap) (filing : Value × UInt32) : Option Key := if filing.2 = 0 then none else h.keyOf filing.1

structure Filed (lost : Handle → Prop) (h : Heap) (filings : List (Value × UInt32)) : Prop where
  keyed : ∀ filing ∈ filings, filing.2 ≠ 0 → filing.1.isList = false → filing.1.isMap = false →
    (h.keyOf filing.1).isSome = true ∧ filing.2 = h.hash filing.1
  once : (filings.filterMap h.filedKey).Nodup
  gone : ∀ filing ∈ filings, filing.2 = 0 → ∃ q, filing.1 = .str q ∧ lost q

theorem Filed.nil (h : Heap) : Filed lost h [] where
  keyed := fun _ member => absurd member List.not_mem_nil
  once := List.nodup_nil
  gone := fun _ member => absurd member List.not_mem_nil

theorem Filed.perm (filed : Filed lost h filings) (same : filings.Perm others) : Filed lost h others where
  keyed := fun filing member => filed.keyed filing (same.mem_iff.mpr member)
  once := (same.filterMap _).nodup_iff.mp filed.once
  gone := fun filing member => filed.gone filing (same.mem_iff.mpr member)

theorem Filed.mono (filed : Filed lost h filings) (wider : ∀ q, lost q → more q) : Filed more h filings where
  keyed := filed.keyed
  once := filed.once
  gone := fun filing member zero => (filed.gone filing member zero).imp fun q found => ⟨found.1,wider q found.2⟩

theorem Filed.tail {filing : Value × UInt32} (filed : Filed lost h (filing :: filings)) : Filed lost h filings where
  keyed := fun other member => filed.keyed other (List.mem_cons_of_mem _ member)
  once := by
    have once := filed.once
    rw [List.filterMap_cons] at once
    split at once
    · exact once
    · exact (List.nodup_cons.mp once).2
  gone := fun other member => filed.gone other (List.mem_cons_of_mem _ member)

theorem nonzero_ne (hash : UInt32) : Hash.nonzero hash ≠ 0 := by
  unfold Hash.nonzero
  split
  · decide
  · assumption

theorem hash_gone {h : Heap} {v : Value} (zero : h.hash v = 0) : ∃ q, v = .str q ∧ h.text? v = none := by
  cases v with
  | str q =>
      refine ⟨q,rfl,?_⟩
      cases found : h.text? (.str q) with
      | none => rfl
      | some text =>
          rw [hash_string rfl found] at zero
          exact absurd zero (nonzero_ne _)
  | null =>
      have nonzero : Hash.ofNull ≠ 0 := by decide
      exact absurd zero nonzero
  | int | double | short | list | map | funcRef => exact absurd zero (nonzero_ne _)

theorem keyOf_scalar {h : Heap} {v : Value} (keyed : h.keyOf v = some k) : v.isList = false ∧ v.isMap = false := by
  cases v with
  | list | map => cases keyed
  | null | int | double | short | str | funcRef => exact ⟨rfl,rfl⟩

-- Only a string that is gone has hash 0.
theorem keyOf_hashed {h : Heap} {v : Value} (hashed : h.hash v ≠ 0) (list : v.isList = false) (map : v.isMap = false) :
    (h.keyOf v).isSome = true := by
  cases v with
  | str r =>
      cases found : h.text? (.str r) with
      | some text => rw [keyOf_text.mpr found]; rfl
      | none => exact absurd (by simp only [hash,hashWithin,stringHash,found]) hashed
  | null | int | double | short | funcRef => rfl
  | list => cases list
  | map => cases map

theorem filedKey_some {h : Heap} {filing : Value × UInt32} : h.filedKey filing = some k ↔ filing.2 ≠ 0 ∧ h.keyOf filing.1 = some k := by
  unfold filedKey
  split
  · rename_i gone
    simp [gone]
  · rename_i bound
    simp [bound]

theorem Filed.enter {h : Heap} {table : Table} (filed : Filed lost h table.filings) (valid : table.Valid)
    (absent : (table.find? (h.hash key) fun k => h.sameKey k key) = none) (loses : ∀ q, key = .str q → h.text? key = none → lost q) :
    Filed lost h ((key,h.hash key) :: table.filings) where
  keyed := by
    intro filing member bound list map
    rcases List.mem_cons.mp member with rfl | later
    · exact ⟨keyOf_hashed bound list map,rfl⟩
    · exact filed.keyed filing later bound list map
  once := by
    rw [List.filterMap_cons]
    split
    · exact filed.once
    · rename_i k here
      obtain ⟨_,known⟩ := filedKey_some.mp here
      refine List.nodup_cons.mpr ⟨?_,filed.once⟩
      intro twice
      obtain ⟨filing,member,there⟩ := List.mem_filterMap.mp twice
      obtain ⟨bound,same⟩ := filedKey_some.mp there
      obtain ⟨list,map⟩ := keyOf_scalar same
      obtain ⟨_,hash⟩ := filed.keyed filing member bound list map
      obtain ⟨entry,listed,rfl⟩ := List.mem_map.mp member
      have fails := Table.find_none valid absent entry listed
      have filed_ : entry.hash = h.hash entry.key := hash
      rw [filed_,keyOf_hash same known,(sameKey_keyOf same known).mpr rfl] at fails
      simp at fails
  gone := by
    intro filing member zero
    rcases List.mem_cons.mp member with rfl | later
    · obtain ⟨q,string,none⟩ := hash_gone zero
      exact ⟨q,string,loses q string none⟩
    · exact filed.gone filing later zero

theorem Filed.edit {h : Heap} {table table' : Table} (filed : Filed lost h table.filings) (valid : table.Valid)
    (edit : table.Edit named h table') (loses : ∀ q, named q → h.text? (.str q) = none → lost q) : Filed lost h table'.filings := by
  cases edit with
  | value => rwa [Table.filings_setValue]
  | enter absent name =>
      refine (filed.enter valid absent fun q string none => ?_).perm (Table.filings_insertNew _ _ _ valid).symm
      exact loses q (name q string) (string ▸ none)
  | remove present => exact (filed.perm (Table.filings_removeAt valid present)).tail
  | clear =>
      have empty : table.clear.filings = [] := by simp [Table.filings_contents,Table.clear]
      rw [empty]
      exact .nil h
  | bind => exact filed
  | detach => exact filed

-- The strings of the keys stay.
def KeepsKeys (h h' : Heap) (filings : List (Value × UInt32)) : Prop :=
  ∀ filing ∈ filings, ∀ q text, filing.1 = .str q → h.object? q = some (.str text) → h'.object? q = some (.str text)

theorem Filed.move {h h' : Heap} (filed : Filed lost h filings) (kept : KeepsKeys h h' filings) : Filed lost h' filings := by
  have persists : ∀ filing ∈ filings, ∀ k, h.keyOf filing.1 = some k → h'.keyOf filing.1 = some k := by
    intro filing member k known
    cases key : filing.1 with
    | str q =>
        rw [key] at known
        obtain ⟨text,found,rfl⟩ := Option.map_eq_some_iff.mp known
        exact keyOf_text.mpr (text?_str.mpr (kept filing member q text key (text?_str.mp found)))
    | null | int | double | short | list | map | funcRef => rw [key] at known; exact known
  refine ⟨fun filing member bound list map => ?_,?_,filed.gone⟩
  · obtain ⟨keyed,hash⟩ := filed.keyed filing member bound list map
    obtain ⟨k,known⟩ := Option.isSome_iff_exists.mp keyed
    have later := persists filing member k known
    exact ⟨by rw [later]; rfl,hash.trans (keyOf_hash known later)⟩
  · have same : filings.filterMap h'.filedKey = filings.filterMap h.filedKey := by
      apply List.filterMap_congr
      intro filing member
      unfold filedKey
      split
      · rfl
      · rename_i bound
        cases known : h.keyOf filing.1 with
        | some k => exact persists filing member k known
        | none =>
            -- Only containers have no key here, and they have none anywhere.
            cases key : filing.1 with
            | list | map => rfl
            | null | int | double | short | funcRef => rw [key] at known; cases known
            | str q =>
                obtain ⟨keyed,_⟩ := filed.keyed filing member bound (by rw [key]; rfl) (by rw [key]; rfl)
                rw [known] at keyed
                cases keyed
    rw [same]
    exact filed.once

-- Every live table.
def Filing (lost : Handle → Prop) (h : Heap) : Prop := ∀ r table, h.object? r = some (.map table) → Filed lost h table.filings

def Tables (P : Heap → List (Value × UInt32) → Prop) (h : Heap) : Prop := ∀ r table, h.object? r = some (.map table) → P h table.filings

-- A way between two heaps on which tables are not edited: what is there is empty or was there, with keys that stay.
def Rereads (h h' : Heap) : Prop :=
  ∀ r table, h'.object? r = some (.map table) → table.filings = [] ∨
    ∃ old, h.object? r = some (.map old) ∧ old.filings = table.filings ∧ KeepsKeys h h' table.filings

theorem rereads_slots {h h' : Heap} (slots : h'.slots = h.slots) : Rereads h h' := by
  intro r table present
  rw [object?_slots slots] at present
  exact Or.inr ⟨table,present,rfl,fun _ _ q text _ here => by rwa [object?_slots slots]⟩

theorem Altered.keeps (altered : Altered written h h') (filings : List (Value × UInt32)) : KeepsKeys h h' filings :=
  fun _ _ _ _ _ => altered.strings

theorem Altered.rereads (altered : Altered (fun _ => False) h h') (older : ∀ r, h'.isLive r = true → h.isLive r = true) : Rereads h h' := by
  intro r table present
  obtain ⟨object,before⟩ := Option.isSome_iff_exists.mp (older r (by rw [isLive,present]; rfl))
  obtain ⟨other,after,lasts⟩ := altered.lasts r object before
  rw [present] at after
  cases after
  cases lasts with
  | same => exact Or.inr ⟨table,before,rfl,altered.keeps _⟩
  | @frozen table => exact Or.inr ⟨table,before,rfl,altered.keeps _⟩
  | written impossible => exact impossible.elim

theorem Installed.rereads {object : Object} (installed : Installed h object charge immortal r h')
    (blank : ∀ table, object = .map table → table.filings = []) : Rereads h h' := by
  intro q table present
  rcases installed.object_cases present with ⟨_,same⟩ | before
  · exact Or.inl (blank table same.symm)
  · have altered : Altered (fun _ => True) h h' := installed.altered
    exact Or.inr ⟨table,before,rfl,altered.keeps _⟩

theorem intern_rereads {h : Heap} (text : String) (intact : h.Intact) : Rereads h (h.intern text).2 := by
  rcases intern_changes text intact with same | ⟨_,_,installed,_⟩
  · exact rereads_slots (by rw [same])
  · exact installed.rereads fun _ other => by cases other

theorem collect_rereads {h : Heap} (intact : h.Intact) : Rereads h h.collect.2 := by
  by_cases enabled : h.disabled = 0
  · intro r table present
    obtain ⟨before,survives⟩ := (collect_object intact.toClean enabled).mp present
    -- The keys of a map that stays are reached by way of it.
    refine Or.inr ⟨table,before,rfl,fun filing member q text key here => ?_⟩
    obtain ⟨entry,listed,rfl⟩ := List.mem_map.mp member
    have handle : entry.key.handle? = some q := congrArg Value.handle? key
    exact (collect_object intact.toClean enabled).mpr
      ⟨here,refers_survives intact survives before (.key (Table.mem_entries.mp listed)) handle (by rw [isLive,here]; rfl)⟩
  · exact rereads_slots (by rw [collect_disabled enabled])

theorem filings_withCapacity (capacity : Nat) : (Table.withCapacity capacity).filings = [] := by
  simp [Table.filings_contents,Table.withCapacity]

theorem allocated_rereads {object : Object} (intact : h.Intact) (made : object.Made) : Rereads h (h.allocated object).2 := by
  refine (allocated_installed intact _).rereads fun table same => ?_
  cases made with
  | map => cases same; exact filings_withCapacity _
  | str | list | funcRef => cases same

-- A property of filings that whatever happens between two heaps keeps.
structure Carries (named : Handle → Prop) (P : Heap → List (Value × UInt32) → Prop) (h h' : Heap) : Prop where
  blank : ∀ s, P s []
  move : ∀ s t filings, Steps h s → Steps s t → Steps t h' → KeepsKeys s t filings → P s filings → P t filings
  edit : ∀ s (table table' : Table), Steps h s → Steps s h' → table.Valid → table.Edit named s table' → P s table.filings → P s table'.filings

theorem Carries.within (carries : Carries named P h h') (before : Steps h s) (after : Steps t h') : Carries named P s t where
  blank := carries.blank
  move := fun a b filings first second third => carries.move a b filings (before.trans first) second (third.trans after)
  edit := fun a table table' first second => carries.edit a table table' (before.trans first) (second.trans after)

theorem Carries.rereads (carries : Carries named P h h') (steps : Steps h h') (rereads : Rereads h h') (tables : h.Tables P) : h'.Tables P := by
  intro r table present
  rcases rereads r table present with empty | ⟨old,before,same,kept⟩
  · rw [empty]
    exact carries.blank h'
  · exact carries.move h h' _ .refl steps .refl kept (same ▸ tables r old before)

theorem modifyTable_tables {h : Heap} {change : Table → Table} (carries : Carries named P h (h.modifyTable r change))
    (steps : Steps h (h.modifyTable r change)) (intact : h.Intact) (live : h.isLive r = true)
    (edits : ∀ t, h.object? r = some (.map t) → t.Edit named h (change t)) (tables : h.Tables P) : (h.modifyTable r change).Tables P := by
  have altered : Altered (fun _ => True) h (h.modifyTable r change) :=
    modifyTable_altered live (fun t present => (edits t present).changed) trivial
  obtain ⟨object,present⟩ := Option.isSome_iff_exists.mp live
  have touched : Touched h (h.modifyTable r change) r _ := modifyObject_touched _ present
  intro q table found
  refine carries.move h _ _ .refl steps .refl (altered.keeps _) ?_
  by_cases here : q = r
  · subst q
    have changed := touched.here.symm.trans found
    cases object with
    | map before =>
        cases changed
        exact carries.edit h before _ .refl steps (intact.table present) (edits before present) (tables r before present)
    | str | list | funcRef => cases changed
  · exact tables q table ((touched.others q here).symm.trans found)

theorem Deeds.tables (deeds : Deeds named written loose h h') (intact : h.Intact) (carries : Carries named P h h') (tables : h.Tables P) :
    h'.Tables P := by
  have steps := deeds.steps
  induction deeds with
  | refl => exact tables
  | trans first second ih ih' =>
      have between := ih intact (carries.within .refl second.steps) tables first.steps
      exact ih' (first.intact intact) (carries.within first.steps .refl) between second.steps
  | reroot => exact carries.rereads steps (rereads_slots rfl) tables
  | register => exact carries.rereads steps (rereads_slots rfl) tables
  | list live => exact carries.rereads steps ((modifyList_altered live).rereads fun _ => modifyObject_older live) tables
  | table live edits => exact modifyTable_tables carries steps intact live (fun t present => (edits t present).1) tables
  | @settle _ _ q _ s before ih =>
      have last : Steps s (s.recharge q) := recharge_steps s q
      have between := ih intact (carries.within .refl last) tables before.steps
      exact (carries.within before.steps .refl).rereads last ((recharge_altered _ _).rereads fun _ => recharge_older) between
  | freeze => exact carries.rereads steps ((freeze_altered _ _).rereads fun _ => freeze_older) tables
  | collect => exact carries.rereads steps (collect_rereads intact) tables
  | install made => exact carries.rereads steps (allocated_rereads intact made) tables
  | intern => exact carries.rereads steps (intern_rereads _ intact) tables
  | besides _ _ ih => exact ih intact carries tables steps

theorem Course.tables (course : Course named written loose h h') (intact : h.Intact) (carries : Carries named P h h') (tables : h.Tables P) :
    h'.Tables P := by
  have steps := course.steps
  cases course with
  | apart apart => exact carries.rereads steps (rereads_slots apart.slots) tables
  | deeds deeds => exact deeds.tables intact carries tables
  | aliasMap deeds _ room =>
      have last : Steps _ _ := .single (.install (sane_aliasTable _) room)
      have before := deeds.tables intact (carries.within .refl last) tables
      refine (carries.within deeds.steps .refl).rereads last ?_ before
      refine (allocated_installed (deeds.intact intact) _).rereads fun table same => ?_
      cases same
      exact filings_withCapacity _

theorem Filing.slots {h h' : Heap} (filing : h.Filing lost) (slots : h'.slots = h.slots) : h'.Filing lost := by
  intro r table present
  rw [object?_slots slots] at present
  exact (filing r table present).move fun _ _ q text _ here => by rwa [object?_slots slots]

-- On every way between two heaps, the named strings that lead to no text are lost.
def Loses (named lost : Handle → Prop) (h h' : Heap) : Prop :=
  ∀ s, Steps h s → Steps s h' → ∀ q, named q → s.text? (.str q) = none → lost q

theorem Loses.carries (loses : Loses named lost h h') : Carries named (Filed lost) h h' where
  blank := Filed.nil
  move := fun _ _ _ _ _ _ kept filed => filed.move kept
  edit := fun s _ _ before after valid edit filed => filed.edit valid edit (loses s before after)

theorem Deeds.filing (deeds : Deeds named written loose h h') (intact : h.Intact) (loses : Loses named lost h h')
    (filing : h.Filing lost) : h'.Filing lost :=
  deeds.tables intact loses.carries filing

theorem Course.filing (course : Course named written loose h h') (intact : h.Intact) (loses : Loses named lost h h')
    (filing : h.Filing lost) : h'.Filing lost :=
  course.tables intact loses.carries filing

theorem new_filing (config : HeapConfig) : (new config).Filing lost := by
  intro r table present
  simp [object?,new] at present

theorem Reachable.filing (reachable : Reachable h) : h.Filing fun _ => True := by
  induction reachable with
  | new config => exact new_filing config
  | @call h call before ih =>
      have course : Course (fun _ => True) (fun _ => True) (fun _ => True) h (call.run h) := call.runs h (fun _ _ => trivial) fun _ _ => trivial
      exact course.filing before.intact (fun _ _ _ _ _ _ => trivial) ih

end Heap

end RegisterMachine
