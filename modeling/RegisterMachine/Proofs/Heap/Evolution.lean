import RegisterMachine.Proofs.Heap.Actions
import RegisterMachine.Proofs.Heap.Editing
import Mathlib.Algebra.Ring.Nat

namespace RegisterMachine

-- An object after an action: flags may be set, lists change, and tables where they may be written.
inductive Object.Lasts (may : Prop) : Object → Object → Prop where
  | same : Lasts may object object
  | list : Lasts may (.list before) (.list after)
  | frozen : Lasts may (.map table) (.map { table with frozen })
  | written : may → before.Changed after → Lasts may (.map before) (.map after)

namespace Heap

-- Freed at least once since, and no more often than there were collections.
def Freed (h h' : Heap) (r : Handle) : Prop :=
  ∃ n slot, 0 < n ∧ h.history.size + n ≤ h'.history.size ∧ h'.slots[r.index]? = some slot ∧
    slot.generation = r.generation + UInt32.ofNat n

-- The entries of a map, with the texts that their keys had.
structure Preserved (h h' : Heap) (r : Handle) (table : Table) : Prop where
  object : ∃ frozen, h'.object? r = some (.map { table with frozen })
  texts : ∀ entry ∈ table.entries, ∀ q text, entry.key = .str q → h.object? q = some (.str text) → h'.object? q = some (.str text)

structure Evolves (written : Handle → Prop) (h h' : Heap) : Prop where
  counted : h.history.size ≤ h'.history.size
  ages : ∀ (i : Nat) slot, h.slots[i]? = some slot → ∃ n slot', h.history.size + n ≤ h'.history.size ∧
    h'.slots[i]? = some slot' ∧ slot'.generation = slot.generation + UInt32.ofNat n
  tables : ∀ r table, h.object? r = some (.map table) → table.aliases = none → ¬ written r →
    Freed h h' r ∨ Preserved h h' r table

theorem Freed.later (freed : Freed h h' r) (evolves : Evolves written h' h'') : Freed h h'' r := by
  obtain ⟨n,slot,positive,counted,present,generation⟩ := freed
  obtain ⟨k,slot',counted',present',generation'⟩ := evolves.ages _ slot present
  refine ⟨n + k,slot',by omega,by omega,present',?_⟩
  rw [generation',generation,UInt32.ofNat_add,UInt32.add_assoc]

theorem Freed.earlier (evolves : Evolves written h h') (freed : Freed h' h'' r) : Freed h h'' r := by
  obtain ⟨n,slot,positive,counted,present,generation⟩ := freed
  have before := evolves.counted
  exact ⟨n,slot,positive,by omega,present,generation⟩

-- The handle of a freed object fits no slot again, unless generations have come round.
theorem Freed.dead (freed : Freed h h' r) (few : h'.history.size < h.history.size + 2 ^ 32) : h'.isLive r = false := by
  obtain ⟨n,slot,positive,counted,present,generation⟩ := freed
  have moved : slot.generation ≠ r.generation := by
    rw [generation]
    intro same
    have zero : UInt32.ofNat n = 0 := by simpa using same
    have inside : n < UInt32.size := by simp only [UInt32.size]; omega
    have size := congrArg UInt32.toNat zero
    rw [UInt32.toNat_ofNat_of_lt' inside] at size
    exact absurd size (Nat.pos_iff_ne_zero.mp positive)
  rw [isLive,object?,present]
  simp [moved]

theorem Preserved.trans (first : Preserved h h' r table) (second : Preserved h' h'' r { table with frozen }) :
    Preserved h h'' r table where
  object := second.object
  texts := fun entry member q text key before => second.texts entry member q text key (first.texts entry member q text key before)

theorem Evolves.refl (h : Heap) : Evolves written h h where
  counted := Nat.le_refl _
  ages := fun i slot present => ⟨0,slot,Nat.le_refl _,present,by simp⟩
  tables := fun r table present _ _ => Or.inr ⟨⟨_,present⟩,fun _ _ _ _ _ same => same⟩

theorem Evolves.trans (first : Evolves written h h') (second : Evolves written h' h'') : Evolves written h h'' where
  counted := Nat.le_trans first.counted second.counted
  ages := by
    intro i slot present
    obtain ⟨n,slot',counted,present',generation⟩ := first.ages i slot present
    obtain ⟨k,slot'',counted',present'',generation'⟩ := second.ages i slot' present'
    refine ⟨n + k,slot'',by omega,present'',?_⟩
    rw [generation',generation,UInt32.ofNat_add,UInt32.add_assoc]
  tables := by
    intro r table present plain unwritten
    rcases first.tables r table present plain unwritten with freed | kept
    · exact Or.inl (freed.later second)
    · obtain ⟨frozen,here⟩ := kept.object
      rcases second.tables r _ here plain unwritten with freed | later
      · exact Or.inl (freed.earlier first)
      · exact Or.inr (kept.trans later)

theorem Evolves.mono (evolves : Evolves written h h') (wider : ∀ r, written r → may r) : Evolves may h h' where
  counted := evolves.counted
  ages := evolves.ages
  tables := fun r table present plain unwritten => evolves.tables r table present plain fun may => unwritten (wider r may)

structure Altered (written : Handle → Prop) (h h' : Heap) : Prop where
  history : h'.history = h.history
  ages : ∀ (i : Nat) slot, h.slots[i]? = some slot → ∃ slot', h'.slots[i]? = some slot' ∧ slot'.generation = slot.generation
  lasts : ∀ q object, h.object? q = some object → ∃ object', h'.object? q = some object' ∧ object.Lasts (written q) object'

theorem Altered.strings (altered : Altered written h h') (before : h.object? q = some (.str text)) : h'.object? q = some (.str text) := by
  obtain ⟨object,after,same⟩ := altered.lasts q _ before
  cases same
  exact after

theorem Altered.evolves (altered : Altered written h h') : Evolves written h h' where
  counted := by rw [altered.history]
  ages := by
    intro i slot present
    obtain ⟨slot',present',generation⟩ := altered.ages i slot present
    exact ⟨0,slot',by rw [altered.history]; simp,present',by simpa using generation⟩
  tables := by
    intro r table present plain unwritten
    obtain ⟨object,here,lasts⟩ := altered.lasts r _ present
    refine Or.inr ⟨?_,fun _ _ q text _ => altered.strings⟩
    cases lasts with
    | same => exact ⟨_,here⟩
    | frozen => exact ⟨_,here⟩
    | written may => exact absurd may unwritten

theorem Altered.slots {h h' : Heap} (slots : h'.slots = h.slots) (history : h'.history = h.history) : Altered written h h' where
  history := history
  ages := fun i slot present => ⟨slot,slots ▸ present,rfl⟩
  lasts := fun q object present => ⟨object,by rw [object?_slots slots]; exact present,.same⟩

theorem modifyObject_altered {h : Heap} {change : Object → Object} (live : h.isLive r = true)
    (each : ∀ object, h.object? r = some object → object.Lasts (written r) (change object)) :
    Altered written h (h.modifyObject r change) := by
  obtain ⟨object,present⟩ := Option.isSome_iff_exists.mp live
  have touched := modifyObject_touched change present
  refine ⟨rfl,fun i slot found => ?_,fun q other found => ?_⟩
  · simp only [modifyObject,Array.getElem?_modify,found]
    split <;> exact ⟨_,rfl,rfl⟩
  · by_cases here : q = r
    · subst q
      rw [present] at found
      cases found
      exact ⟨_,touched.here,each object present⟩
    · exact ⟨other,by rw [touched.others q here]; exact found,.same⟩

theorem modifyList_altered {h : Heap} {change : ListObject → ListObject} (live : h.isLive r = true) :
    Altered written h (h.modifyList r change) := by
  refine modifyObject_altered live fun object _ => ?_
  cases object with
  | list list => exact .list
  | str | map | funcRef => exact .same

theorem modifyTable_altered {h : Heap} {change : Table → Table} (live : h.isLive r = true)
    (changed : ∀ table, h.object? r = some (.map table) → table.Changed (change table)) (may : written r) :
    Altered written h (h.modifyTable r change) := by
  refine modifyObject_altered live fun object present => ?_
  cases object with
  | map table => exact .written may (changed table present)
  | str | list | funcRef => exact .same

theorem recharge_altered (h : Heap) (r : Handle) : Altered written h (h.recharge r) := by
  refine ⟨recharge_history h r,fun i slot present => ?_,fun q object present => ?_⟩
  · obtain ⟨charge,charged⟩ := recharge_slot h r present
    exact ⟨_,charged,rfl⟩
  · exact ⟨object,by rw [recharge_object]; exact present,.same⟩

theorem freeze_altered (h : Heap) (v : Value) : Altered written h (h.freeze v) := by
  refine ⟨rfl,fun i slot present => ?_,fun q object present => ?_⟩
  · simp only [freeze,Array.getElem?_mapIdx,present,Option.map_some]
    exact ⟨_,rfl,by split <;> rfl⟩
  · refine ⟨_,by rw [freeze_object,present]; rfl,?_⟩
    simp only
    split
    · cases object with
      | str | funcRef => exact .same
      | list list => exact .list
      | map table => exact .frozen
    · exact .same

theorem Installed.altered {object : Object} (installed : Installed h object charge immortal r h') : Altered written h h' := by
  refine ⟨installed.history,fun i slot present => ?_,fun q other present => ⟨other,installed.kept_object present,.same⟩⟩
  rw [installed.slots]
  split
  · rename_i same
    subst i
    exact ⟨_,rfl,by rw [installed.generation,slotAt_some present]⟩
  · exact ⟨slot,present,rfl⟩

theorem allocated_altered {h : Heap} (intact : h.Intact) (object : Object) : Altered written h (h.allocated object).2 :=
  (allocated_installed intact object).altered

theorem intern_altered {h : Heap} (text : String) (intact : h.Intact) : Altered written h (h.intern text).2 := by
  rcases intern_changes text intact with same | ⟨_,_,installed,_⟩
  · rw [same]
    exact .slots rfl rfl
  · exact installed.altered

theorem collect_evolves {h : Heap} (intact : h.Intact) : Evolves written h h.collect.2 := by
  by_cases enabled : h.disabled = 0
  · have history : h.collect.2.history.size = h.history.size + 1 := by
      rw [collect_enabled enabled]
      simp [sweep,mark]
    refine ⟨by omega,fun i slot present => ?_,fun r table present _ _ => ?_⟩
    · by_cases dead : dies h.mark.marks i slot = true
      · refine ⟨1,emptied slot,by omega,?_,rfl⟩
        rw [collect_enabled enabled]
        exact swept_slot.mpr ⟨slot,present,if_pos dead⟩
      · refine ⟨0,slot,by omega,?_,by simp⟩
        rw [collect_enabled enabled]
        exact swept_slot.mpr ⟨slot,present,if_neg dead⟩
    · by_cases survives : h.Survives r
      · refine Or.inr ⟨⟨table.frozen,(collect_object intact.toClean enabled).mpr ⟨present,survives⟩⟩,?_⟩
        intro entry member q text key before
        refine (collect_object intact.toClean enabled).mpr ⟨before,?_⟩
        exact refers_survives intact survives present (.key (Table.mem_entries.mp member)) (by rw [key]; rfl) (by rw [isLive,before]; rfl)
      · obtain ⟨slot,found,generation,content⟩ := object?_slot.mp present
        obtain ⟨i,g⟩ := r
        cases generation
        have dead := (mark_dies intact.toClean found (by rw [content]; rfl)).mpr survives
        refine Or.inl ⟨1,emptied slot,Nat.one_pos,by omega,?_,rfl⟩
        rw [collect_enabled enabled]
        exact swept_slot.mpr ⟨slot,found,if_pos dead⟩
  · rw [collect_disabled enabled]
    exact .refl h

theorem Deeds.evolves (deeds : Deeds named written loose h h') (intact : h.Intact) : Evolves written h h' := by
  induction deeds with
  | refl => exact .refl _
  | trans first _ ih ih' => exact (ih intact).trans (ih' (first.intact intact))
  | reroot => exact Altered.evolves (.slots (by rfl) rfl)
  | register => exact Altered.evolves (.slots (by rfl) rfl)
  | list live => exact (modifyList_altered live).evolves
  | table live edits may => exact (modifyTable_altered live (fun t present => (edits t present).1.changed) may).evolves
  | settle _ ih => exact (ih intact).trans (recharge_altered _ _).evolves
  | freeze => exact (freeze_altered _ _).evolves
  | collect => exact collect_evolves intact
  | install => exact (allocated_altered intact _).evolves
  | intern => exact (intern_altered _ intact).evolves
  | besides _ start ih =>
      refine ⟨(ih intact).counted,(ih intact).ages,fun r table present plain unwritten => ?_⟩
      refine (ih intact).tables r table present plain ?_
      rintro (may | rfl)
      · exact unwritten may
      · have aliased := start intact table present
        rw [plain] at aliased
        cases aliased

def Aliased (h : Heap) (r : Handle) : Prop := ∃ table, h.object? r = some (.map table) ∧ table.aliases.isSome = true

theorem Altered.unaliased (altered : Altered written h h') (older : h'.isLive q = true → h.isLive q = true) (aliased : h'.Aliased q) :
    h.Aliased q := by
  obtain ⟨table,present,some⟩ := aliased
  obtain ⟨object,before⟩ := Option.isSome_iff_exists.mp (older (by rw [isLive,present]; rfl))
  obtain ⟨other,after,lasts⟩ := altered.lasts q object before
  rw [present] at after
  cases after
  cases lasts with
  | same => exact ⟨table,before,some⟩
  | frozen => exact ⟨_,before,some⟩
  | written _ changed => exact ⟨_,before,changed.aliases some⟩

theorem aliased_slots {h h' : Heap} (slots : h'.slots = h.slots) (aliased : h'.Aliased q) : h.Aliased q := by
  obtain ⟨table,present,some⟩ := aliased
  exact ⟨table,by rw [← object?_slots slots]; exact present,some⟩

theorem modifyObject_older {h : Heap} {change : Object → Object} (live : h.isLive r = true)
    (later : (h.modifyObject r change).isLive q = true) : h.isLive q = true := by
  by_cases here : q = r
  · exact here ▸ live
  · obtain ⟨object,present⟩ := Option.isSome_iff_exists.mp live
    rwa [isLive,(modifyObject_touched change present).others q here] at later

theorem recharge_older {h : Heap} (later : (h.recharge r).isLive q = true) : h.isLive q = true := by
  rwa [isLive,recharge_object] at later

theorem freeze_older {h : Heap} {v : Value} (later : (h.freeze v).isLive q = true) : h.isLive q = true := by
  rwa [isLive,freeze_object,Option.isSome_map] at later

theorem Installed.unaliased {object : Object} (installed : Installed h object charge immortal r h') (plain : object.Unaliased)
    (aliased : h'.Aliased q) : h.Aliased q := by
  obtain ⟨table,present,some⟩ := aliased
  rcases installed.object_cases present with ⟨_,same⟩ | before
  · rw [plain table same.symm] at some
    cases some
  · exact ⟨table,before,some⟩

theorem intern_unaliased {h : Heap} (text : String) (intact : h.Intact) (aliased : (h.intern text).2.Aliased q) : h.Aliased q := by
  rcases intern_changes text intact with same | ⟨_,_,installed,_⟩
  · rwa [same] at aliased
  · exact installed.unaliased (fun _ other => by cases other) aliased

theorem collect_unaliased {h : Heap} (intact : h.Intact) (aliased : h.collect.2.Aliased q) : h.Aliased q := by
  by_cases enabled : h.disabled = 0
  · obtain ⟨table,present,some⟩ := aliased
    exact ⟨table,((collect_object intact.toClean enabled).mp present).1,some⟩
  · rwa [collect_disabled enabled] at aliased

theorem Deeds.unaliased (deeds : Deeds named written loose h h') (intact : h.Intact) (aliased : h'.Aliased q) : h.Aliased q := by
  induction deeds with
  | refl => exact aliased
  | trans first _ ih ih' => exact ih intact (ih' (first.intact intact) aliased)
  | reroot => exact aliased_slots (by rfl) aliased
  | register => exact aliased_slots (by rfl) aliased
  | @list _ _ h r change live =>
      have altered : Altered (fun _ => True) h (h.modifyList r change) := modifyList_altered live
      exact altered.unaliased (modifyObject_older live) aliased
  | table live edits may =>
      exact (modifyTable_altered live (fun t present => (edits t present).1.changed) may).unaliased (modifyObject_older live) aliased
  | @settle _ _ r _ h' _ ih =>
      have altered : Altered (fun _ => True) h' (h'.recharge r) := recharge_altered h' r
      exact ih intact (altered.unaliased recharge_older aliased)
  | @freeze _ _ h v =>
      have altered : Altered (fun _ => True) h (h.freeze v) := freeze_altered h v
      exact altered.unaliased freeze_older aliased
  | collect => exact collect_unaliased intact aliased
  | install made => exact (allocated_installed intact _).unaliased made.unaliased aliased
  | intern => exact intern_unaliased _ intact aliased
  | besides _ _ ih => exact ih intact aliased

theorem Deeds.registers (deeds : Deeds named written loose h h') : h'.registers.size = h.registers.size := by
  induction deeds with
  | refl => rfl
  | trans _ _ ih ih' => exact ih'.trans ih
  | reroot | list | table | freeze => rfl
  | register => exact Array.size_modify
  | settle _ ih => rw [(recharge_roots _ _).registers,ih]
  | collect => rw [(collect_roots _).registers]
  | install => rw [(allocated_roots _ _).registers]
  | intern => rw [intern_registers]
  | besides _ _ ih => exact ih

end Heap

end RegisterMachine
