import RegisterMachine.Proofs.Map.Finite
import RegisterMachine.Proofs.Map.Honest

namespace RegisterMachine.Heap

-- A map whose entries have different keys, read by keys.
structure Reads (h : Heap) (v : Value) : Prop where
  scalar : ∀ pair ∈ h.mapEntries v, pair.1.isContainer = false
  once : ((h.mapEntries v).map fun pair => h.keyOf pair.1).Nodup
  lookup? : ∀ key value, key.isContainer = false →
    (h.lookup? v key = some value ↔ ∃ pair ∈ h.mapEntries v, h.keyOf pair.1 = h.keyOf key ∧ pair.2 = value)
  count : h.mapCount v = (h.mapEntries v).length

theorem Rows.reads {h : Heap} {table : Table} (rows : Rows h (Table.contents table.cells)) (object : h.object? r = some (.map table))
    (valid : table.Valid) (plain : table.aliases = none) : Reads h (.map r) := by
  have entries := mapEntries_plain object plain
  refine ⟨?_,?_,fun key value scalar => ?_,?_⟩
  · rw [entries]
    exact List.forall_mem_map.mpr rows.scalar
  · rw [entries,List.map_map]
    exact rows.once
  · have unaliased : table.aliases.bind (h.aliasRegister? · key) = none := by rw [plain,Option.bind_none]
    simp only [Heap.lookup?,table?,object,Option.bind_some,rows.lookup valid scalar unaliased,entries,List.mem_map,exists_exists_and_eq_and]
  · simp [mapCount,table?,object,aliasEntries,plain,entries,valid.counted]

theorem reads_gone {h : Heap} (gone : h.table? (.map r) = none) : Reads h (.map r) := by
  have entries : h.mapEntries (.map r) = [] := by simp only [mapEntries,gone]
  constructor <;> simp [entries,Heap.lookup?,mapCount,gone]

-- Strings that were gone when they were bound share an entry.
def Lone (filings : List (Value × UInt32)) : Prop := filings.Pairwise fun a b => a.2 ≠ 0 ∨ b.2 ≠ 0

theorem Lone.perm (lone : Lone filings) (same : filings.Perm others) : Lone others :=
  same.pairwise lone Or.symm

theorem Filed.rows {h : Heap} {table : Table} (filed : Filed lost h table.filings) (lone : Lone table.filings)
    (scalar : ∀ entry ∈ Table.contents table.cells, entry.key.isContainer = false)
    (gone : ∀ entry ∈ Table.contents table.cells, entry.hash = 0 → h.keyOf entry.key = none) : Rows h (Table.contents table.cells) := by
  have keyed : ∀ entry ∈ Table.contents table.cells, entry.hash ≠ 0 → (h.keyOf entry.key).isSome = true ∧ entry.hash = h.hash entry.key := by
    intro entry member bound
    obtain ⟨list,map⟩ := Bool.or_eq_false_iff.mp (scalar entry member)
    exact filed.keyed _ (List.mem_map_of_mem member) bound list map
  refine ⟨scalar,fun entry member => ?_,?_⟩
  · by_cases bound : entry.hash = 0
    · obtain ⟨q,key,textless⟩ := keyOf_none (scalar entry member) (gone entry member bound)
      rw [bound,key]
      rw [key] at textless
      simp only [hash,hashWithin,stringHash,textless]
    · exact (keyed entry member bound).2
  · have apart := List.pairwise_map.mp (List.pairwise_filterMap.mp filed.once)
    refine List.pairwise_map.mpr ((apart.and (List.pairwise_map.mp lone)).imp_of_mem fun {a b} first second different same => ?_)
    by_cases left : a.hash = 0
    · have right := different.2.resolve_left (not_not_intro left)
      have there := (keyed b second right).1
      rw [← same,gone a first left] at there
      cases there
    · obtain ⟨k,known⟩ := Option.isSome_iff_exists.mp (keyed a first left).1
      have right : b.hash ≠ 0 := by
        intro zero
        rw [gone b second zero,known] at same
        cases same
      exact different.1 k (filedKey_some.mpr ⟨left,known⟩) k (filedKey_some.mpr ⟨right,same.symm.trans known⟩) rfl

theorem Lone.edit {h : Heap} {table table' : Table} (lone : Lone table.filings) (filed : Filed lost h table.filings) (valid : table.Valid)
    (textless : ∀ q, lost q → h.text? (.str q) = none) (edit : table.Edit named h table') : Lone table'.filings := by
  cases edit with
  | value => rwa [Table.filings_setValue]
  | @enter key value absent name =>
      refine Lone.perm (List.pairwise_cons.mpr ⟨fun filing member => ?_,lone⟩) (Table.filings_insertNew _ _ _ valid).symm
      by_contra both
      simp only [not_or,not_not] at both
      obtain ⟨p,rfl,gone⟩ := hash_gone both.1
      obtain ⟨entry,listed,rfl⟩ := List.mem_map.mp member
      obtain ⟨q,key,lost⟩ := filed.gone _ member both.2
      -- A search would have found the other one.
      have fails := Table.find_none valid absent entry listed
      have same : h.sameKey entry.key (.str p) = true := by
        rw [show entry.key = .str q from key,sameKey_strings h rfl rfl,textless q lost,gone]
      rw [same,show entry.hash = 0 from both.2,both.1] at fails
      cases fails
  | remove present => exact (List.pairwise_cons.mp (lone.perm (Table.filings_removeAt valid present))).2
  | clear =>
      have empty : table.clear.filings = [] := by simp [Table.filings_contents,Table.clear]
      rw [empty]
      exact List.Pairwise.nil
  | bind => exact lone
  | detach => exact lone

theorem Lost.textless (lost : Lost h q) : h.text? (.str q) = none := by
  rw [Option.eq_none_iff_forall_ne_some]
  intro text found
  refine lost.unsound fun p same => ?_
  cases same
  exact ⟨.str text,text?_str.mp found,.str⟩

-- What is named was given out, so the strings of two entries of hash 0 are both gone when the later one is entered.
theorem lone_carries {h h' : Heap} (intact : h.Intact) (young : h.Young) (few : h'.history.size < 2 ^ 32) :
    Carries h.Seen (fun s filings => Filed s.Lost s filings ∧ Lone filings) h h' where
  blank := fun s => ⟨.nil s,.nil⟩
  move := by
    rintro s t filings before between after kept ⟨filed,lone⟩
    have fewer := Nat.lt_of_le_of_lt (Steps.fewer after (Steps.intact (before.trans between) intact)) few
    have still := before.intact intact
    have aged := (Steps.past before intact young (Nat.lt_of_le_of_lt (Steps.fewer between still) fewer)).1
    exact ⟨(filed.move kept).mono fun q => Steps.lost between still aged fewer,lone⟩
  edit := by
    rintro s table table' before after valid edit ⟨filed,lone⟩
    have fewer := Nat.lt_of_le_of_lt (Steps.fewer after (before.intact intact)) few
    refine ⟨filed.edit valid edit fun q seen none => ?_,lone.edit filed valid (fun _ => Lost.textless) edit⟩
    exact (Steps.seen before intact young fewer seen).lost none

theorem Honest.lone (honest : Honest h) (few : h.history.size < 2 ^ 32) :
    h.Tables fun s filings => Filed s.Lost s filings ∧ Lone filings := by
  induction honest with
  | new config =>
      intro r table present
      simp [object?,Heap.new] at present
  | @call h call before given ih =>
      have intact := before.reachable.intact
      have fewer := Nat.lt_of_le_of_lt (Steps.fewer (call.steps h) intact) few
      have registered := before.registered fewer
      have course : Course h.Seen (fun _ => True) (fun _ => True) h (call.run h) :=
        call.course registered.names given (fun _ _ => trivial) fun _ _ => trivial
      exact course.tables intact (lone_carries intact registered.young few) (ih fewer)

theorem Honest.rows {h : Heap} {table : Table} (honest : Honest h) (few : h.history.size < 2 ^ 32) (present : h.object? r = some (.map table))
    (scalar : ∀ entry ∈ Table.contents table.cells, entry.key.isContainer = false) : Rows h (Table.contents table.cells) := by
  obtain ⟨filed,lone⟩ := honest.lone few r table present
  refine filed.rows lone scalar fun entry member zero => ?_
  obtain ⟨q,key,lost⟩ := filed.gone _ (List.mem_map_of_mem member) zero
  rw [show entry.key = .str q from key,keyOf,lost.textless,Option.map_none]

theorem Reachable.rows {h : Heap} {table : Table} (reachable : Reachable h) (present : h.object? r = some (.map table))
    (bound : ∀ entry ∈ Table.contents table.cells, entry.hash ≠ 0)
    (scalar : ∀ entry ∈ Table.contents table.cells, entry.key.isContainer = false) : Rows h (Table.contents table.cells) := by
  refine (reachable.filing r table present).rows ?_ scalar fun entry member zero => absurd zero (bound entry member)
  exact List.pairwise_map.mpr (List.pairwise_of_forall_mem_list fun entry member _ _ => Or.inl (bound entry member))

end RegisterMachine.Heap
