import RegisterMachine.Proofs.Heap.NaturalOrder
import RegisterMachine.Proofs.Heap.Sequences
import RegisterMachine.Proofs.Map.Equality

namespace RegisterMachine.Heap

-- What an item is sorted by.
def sortedBy (h : Heap) (byKey item : Value) : Value := if byKey.isNull then item else h.sortKey byKey item

-- The former items, in the order of their keys.
structure Sorted (h : Heap) (byKey : Value) (before after : List Value) : Prop where
  perm : after.Perm before
  ordered : ∀ (i j : Nat) a b, i < j → after[i]? = some a → after[j]? = some b →
    h.compareNatural (h.sortedBy byKey a) (h.sortedBy byKey b) ≠ .gt

theorem mergeSort_ordered {α β : Type} {le : α → α → Bool} {compare : β → β → Ordering} {place : α → β} {items : List α}
    (orders : Preorders compare fun _ => True) (agree : ∀ a ∈ items, ∀ b ∈ items, le a b = (compare (place a) (place b) != .gt)) :
    (items.mergeSort le).Pairwise fun a b => le a b = true := by
  have trans : ∀ x y z, (compare x y != .gt) = true → (compare y z != .gt) = true → (compare x z != .gt) = true := by
    intro x y z first second
    rw [bne_iff_ne] at first second ⊢
    exact orders.trans x y z trivial trivial trivial first second
  have total : ∀ x y, ((compare x y != .gt) || (compare y x != .gt)) = true := by
    intro x y
    rw [orders.swap x y trivial trivial]
    cases compare x y <;> rfl
  have sorted := List.pairwise_mergeSort trans total (items.map place)
  rw [← List.map_mergeSort agree,List.pairwise_map] at sorted
  refine sorted.imp_of_mem fun {a b} left right below => ?_
  rw [agree a (List.mem_mergeSort.mp left) b (List.mem_mergeSort.mp right)]
  exact below

-- Heaps where strings, maps and registers are the same.
structure SameMaps (h h' : Heap) : Prop where
  texts : ∀ v, h'.text? v = h.text? v
  tables : ∀ v, h'.table? v = h.table? v
  registers : h'.registers = h.registers

theorem Touched.sameMaps {h h' : Heap} {list list' : ListObject} (touched : Touched h h' r (.list list'))
    (present : h.object? r = some (.list list)) : SameMaps h h' where
  texts := by
    intro v
    cases v with
    | str q =>
        by_cases same : q = r
        · subst same
          simp only [text?,touched.here,present]
        · simp only [text?,touched.others q same]
    | null | int | double | short | list | map | funcRef => rfl
  tables := by
    intro v
    cases v with
    | map q =>
        by_cases same : q = r
        · subst same
          simp only [table?,touched.here,present]
        · simp only [table?,touched.others q same]
    | null | int | double | short | str | list | funcRef => rfl
  registers := touched.roots.registers

namespace SameMaps

variable {h h' : Heap} (same : SameMaps h h')
include same

theorem sameText (a b : Value) : h'.sameText a b = h.sameText a b := by
  unfold Heap.sameText
  split
  · rfl
  · rw [same.texts,same.texts]

theorem compareNatural (a b : Value) : h'.compareNatural a b = h.compareNatural a b := by
  simp only [Heap.compareNatural,compareStrings,same.texts]

theorem hash {v : Value} (list : v.isList = false) (map : v.isMap = false) : h'.hash v = h.hash v := by
  cases v with
  | list => cases list
  | map => cases map
  | null | int | double | funcRef => rfl
  | short | str => simp only [Heap.hash,hashWithin,stringHash,same.texts]

theorem equal {w v : Value} (list : v.isList = false) (map : v.isMap = false) : h'.equal w v = h.equal w v := by
  -- No level of containers is descended, and no keys are compared.
  have shallow : ∀ k : Heap, k.equalWithin (fun _ _ => false) 0 w v = k.equal w v := fun k => equalWithin_scalar list map 0
  rw [← shallow h,← shallow h']
  cases v with
  | list => cases list
  | map => cases map
  | null | int | double | funcRef => cases w <;> rfl
  | short | str => cases w <;> simp only [equalWithin,same.sameText]

theorem lookup {v key : Value} (list : key.isList = false) (map : key.isMap = false) : h'.lookup v key = h.lookup v key := by
  have names : ∀ name, h'.sameName name key = h.sameName name key := fun name => by rw [sameName,sameName,same.sameText]
  have keys : (fun w => w == key || h'.equal w key) = fun w => w == key || h.equal w key := by
    funext w
    rw [same.equal list map]
  have assigned : ∀ i, h'.assigned? i = h.assigned? i := by
    intro i
    simp only [assigned?,same.registers]
  simp only [Heap.lookup,lookup?,same.tables,lookupWith,aliasRegister?,names,same.hash list map,keys,assigned]

end SameMaps

theorem Touched.sortedBy {h h' : Heap} {list list' : ListObject} {item byKey : Value} (touched : Touched h h' r (.list list'))
    (present : h.object? r = some (.list list)) (isList : byKey.isList = false) (isMap : byKey.isMap = false) (apart : item ≠ .list r) :
    h'.sortedBy byKey item = h.sortedBy byKey item := by
  unfold Heap.sortedBy
  congr 1
  cases item with
  | map q => exact (touched.sameMaps present).lookup isList isMap
  | list q =>
      have other : q ≠ r := fun same => apart (same ▸ rfl)
      simp only [Heap.sortKey,listGet,expectItems,items?,list?,touched.others q other]
  | null | int | double | short | str | funcRef => rfl

theorem listSort_result {h : Heap} {list : ListObject} {byKey : Value} (present : h.object? r = some (.list list)) (open_ : list.frozen = false)
    (apart : .list r ∉ list.items) (isList : byKey.isList = false) (isMap : byKey.isMap = false) :
    Resequences (listSort (.list r) byKey) h r ()
      (list.items.toList.mergeSort fun a b => h.notAfter (h.sortedBy byKey a) (h.sortedBy byKey b)) := by
  cases null : byKey.isNull with
  | true =>
      have done : listSort (.list r) byKey h =
          .ok () (h.modifyList r fun l => { l with items := (list.items.toList.mergeSort h.notAfter).toArray }) := by
        simp only [listSort,writableList_unfrozen present open_,items?_list present,Option.getD_some,null,if_true]
      refine .modify present open_ done ?_ rfl
      simp only [sortedBy,null,if_true]
  | false =>
      have emptied := modifyList_touched (fun l => { l with items := #[] }) present
      generalize whole : (h.modifyList r fun l => { l with items := #[] }) = s at emptied
      have pairs : (list.items.toList.map fun item => (s.sortKey byKey item,item)) =
          list.items.toList.map fun item => (h.sortedBy byKey item,item) := by
        refine List.map_congr_left fun item member => ?_
        have other : item ≠ .list r := fun same => apart (same ▸ Array.mem_toList_iff.mp member)
        rw [← emptied.sortedBy present isList isMap other,sortedBy,null]
        rfl
      have compared : s.notAfter = h.notAfter := by
        funext a b
        rw [notAfter,notAfter,(emptied.sameMaps present).compareNatural]
      have sorted : ((list.items.toList.map fun item => (h.sortedBy byKey item,item)).mergeSort fun a b => h.notAfter a.1 b.1).map Prod.snd =
          list.items.toList.mergeSort fun a b => h.notAfter (h.sortedBy byKey a) (h.sortedBy byKey b) := by
        rw [List.map_mergeSort (s := fun a b => h.notAfter (h.sortedBy byKey a) (h.sortedBy byKey b)),List.map_map]
        · exact congrArg (List.mergeSort · _) (List.map_id _)
        · intro a left b right
          obtain ⟨_,_,rfl⟩ := List.mem_map.mp left
          obtain ⟨_,_,rfl⟩ := List.mem_map.mp right
          rfl
      have refilled := modifyList_touched (fun l => { l with
        items := (list.items.toList.mergeSort fun a b => h.notAfter (h.sortedBy byKey a) (h.sortedBy byKey b)).toArray,
        capacity := 2 * (list.items.toList.mergeSort fun a b => h.notAfter (h.sortedBy byKey a) (h.sortedBy byKey b)).length }) emptied.here
      refine ⟨_,_,?_,emptied.trans refilled,rfl,open_⟩
      simp only [listSort,writableList_unfrozen present open_,items?_list present,Option.getD_some,null,Bool.false_eq_true,if_false,whole,
        pairs,compared,sorted]

theorem hasPlace_comparable {h : Heap} {v : Value} (comparable : h.Comparable v) : h.hasPlace v = true := by
  cases v with
  | double d => simpa [hasPlace] using comparable.1 d rfl
  | short t => exact comparable.2 rfl
  | str r => exact comparable.2 rfl
  | null | int | list | map | funcRef => rfl

theorem sortEnds_comparable {h : Heap} {list : ListObject} {byKey : Value} (present : h.object? r = some (.list list))
    (apart : .list r ∉ list.items) (isList : byKey.isList = false) (isMap : byKey.isMap = false)
    (comparable : 1 < list.items.size → ∀ item ∈ list.items, h.Comparable (h.sortedBy byKey item)) : h.sortEnds (.list r) byKey = true := by
  have emptied := modifyList_touched (fun l => { l with items := #[] }) present
  simp only [sortEnds,items?_list present,Option.getD_some,Bool.or_eq_true,decide_eq_true_eq,List.all_eq_true]
  by_cases several : 1 < list.items.size
  · refine Or.inr fun item member => hasPlace_comparable ?_
    have inside := Array.mem_toList_iff.mp member
    have other : item ≠ .list r := fun same => apart (same ▸ inside)
    obtain ⟨number,text⟩ := comparable several item inside
    rw [← emptied.sortedBy present isList isMap other] at number text
    exact ⟨number,fun string => ((emptied.sameMaps present).texts _).symm ▸ text string⟩
  · exact Or.inl (by simpa using Nat.le_trans (Nat.le_of_not_lt several) (by decide))

theorem mergeSort_sorted {h : Heap} {byKey : Value} {items : List Value}
    (comparable : 1 < items.length → ∀ item ∈ items, h.Comparable (h.sortedBy byKey item)) :
    Sorted h byKey items (items.mergeSort fun a b => h.notAfter (h.sortedBy byKey a) (h.sortedBy byKey b)) where
  perm := List.mergeSort_perm _ _
  ordered := by
    intro i j a b before here there
    obtain ⟨inside,rfl⟩ := List.getElem?_eq_some_iff.mp here
    obtain ⟨inside',rfl⟩ := List.getElem?_eq_some_iff.mp there
    have several : 1 < items.length := by
      rw [List.length_mergeSort] at inside'
      omega
    have agree : ∀ a ∈ items, ∀ b ∈ items, h.notAfter (h.sortedBy byKey a) (h.sortedBy byKey b) =
        ((h.placement (h.sortedBy byKey a)).compare (h.placement (h.sortedBy byKey b)) != .gt) := by
      intro a left b right
      rw [notAfter,compareNatural_placement (comparable several a left) (comparable several b right)]
    have ordered := mergeSort_ordered Placement.compare_preorders agree
    exact bne_iff_ne.mp (List.pairwise_iff_getElem.mp ordered i j inside inside' before)

-- In a safe heap no string is gone, and NaN alone has no place.
theorem Safe.comparable {h : Heap} {item : Value} (safe : h.Safe) (sound : h.Sound item)
    (number : ∀ d, h.sortedBy byKey item = .double d → d.isNaN = false) : h.Comparable (h.sortedBy byKey item) := by
  have keyed : h.Sound (h.sortedBy byKey item) := by
    unfold sortedBy
    split
    · exact sound
    · unfold sortKey
      split
      · exact safe.closed_sound.lookup sound _
      · split
        · have got := safe.closed_sound.listGet sound byKey.asInt
          split
          · rename_i found
            exact got.ok found
          · exact sound_plain h rfl
        · exact sound_plain h rfl
      · exact sound_plain h rfl
  exact ⟨number,keyed.text⟩

-- Sorting sorts, whenever the keys that are compared have their places in the natural order; and nothing but the list changes.
theorem listSort_sorts {h : Heap} {list : ListObject} {byKey : Value} (present : h.object? r = some (.list list)) (open_ : list.frozen = false)
    (apart : .list r ∉ list.items) (plain : byKey.isNull = true ∨ byKey.isNumber = true ∨ byKey.isString = true)
    (comparable : 1 < list.items.size → ∀ item ∈ list.items, h.Comparable (h.sortedBy byKey item)) :
    NaturalOrder h ∧ h.sortEnds (.list r) byKey = true ∧ ∃ h' list', listSort (.list r) byKey h = .ok () h' ∧ Touched h h' r (.list list') ∧ list'.frozen = false ∧
      Sorted h byKey list.items.toList list'.items.toList ∧ Sorted h' byKey list.items.toList list'.items.toList := by
  have isList : byKey.isList = false ∧ byKey.isMap = false := by
    cases byKey with
    | list | map => simp [Value.isNull,Value.isNumber,Value.isString] at plain
    | null | int | double | short | str | funcRef => exact ⟨rfl,rfl⟩
  obtain ⟨h',list',done,touched,items,unfrozen⟩ := listSort_result present open_ apart isList.1 isList.2
  have sorted : Sorted h byKey list.items.toList _ := mergeSort_sorted fun several item member =>
    comparable (by simpa using several) item (Array.mem_toList_iff.mp member)
  rw [← items] at sorted
  refine ⟨naturalOrder h,sortEnds_comparable present apart isList.1 isList.2 comparable,h',list',done,touched,unfrozen,sorted,sorted.perm,?_⟩
  -- The items are other objects than the list, so their keys are still the same.
  intro i j a b before here there
  have other : ∀ item, item ∈ list'.items.toList → item ≠ .list r := fun item member same =>
    apart (Array.mem_toList_iff.mp (sorted.perm.mem_iff.mp (same ▸ member)))
  rw [touched.sortedBy present isList.1 isList.2 (other a (List.mem_of_getElem? here)),
    touched.sortedBy present isList.1 isList.2 (other b (List.mem_of_getElem? there)),(touched.sameMaps present).compareNatural]
  exact sorted.ordered i j a b before here there

-- Two maps by the value of a name, which the first of them holds in a register.
theorem listSort_sorts_maps : ∃ h h' list', Reachable h ∧
    h.object? ⟨2,0⟩ = some (.list ⟨#[.map ⟨0,0⟩,.map ⟨1,0⟩],2,false⟩) ∧ h.sortedBy (.short ⟨"n",by decide⟩) (.map ⟨0,0⟩) = .int 2 ∧
    h.sortedBy (.short ⟨"n",by decide⟩) (.map ⟨1,0⟩) = .int 1 ∧ listSort (.list ⟨2,0⟩) (.short ⟨"n",by decide⟩) h = .ok () h' ∧
    Touched h h' ⟨2,0⟩ (.list list') ∧ list'.items.toList = [.map ⟨1,0⟩,.map ⟨0,0⟩] := by
  have named := Reachable.call (.assignRegister 0 (.short ⟨"n",by decide⟩) (.int 2)) (.call (.resizeRegisters 1) (.new {}))
  have maps := Reachable.call (.mapSet (.map ⟨1,0⟩) (.short ⟨"n",by decide⟩) (.int 1)) (.call (.newMap 4) (.call (.newAliasMap 0 1) named))
  have reachable := Reachable.call (.newListOf #[.map ⟨0,0⟩,.map ⟨1,0⟩] 2) maps
  generalize whole : Call.run _ _ = h at reachable
  have present : h.object? ⟨2,0⟩ = some (.list ⟨#[.map ⟨0,0⟩,.map ⟨1,0⟩],2,false⟩) := by
    rw [← whole]
    decide +kernel
  have two : h.sortedBy (.short ⟨"n",by decide⟩) (.map ⟨0,0⟩) = .int 2 := by
    rw [← whole]
    decide +kernel
  have one : h.sortedBy (.short ⟨"n",by decide⟩) (.map ⟨1,0⟩) = .int 1 := by
    rw [← whole]
    decide +kernel
  have comparable : ∀ item ∈ #[Value.map ⟨0,0⟩,.map ⟨1,0⟩], h.Comparable (h.sortedBy (.short ⟨"n",by decide⟩) item) := by
    intro item member
    simp only [List.mem_toArray,List.mem_cons,List.not_mem_nil,or_false] at member
    rcases member with rfl | rfl
    · rw [two]
      exact ⟨by simp,by simp [Value.isString]⟩
    · rw [one]
      exact ⟨by simp,by simp [Value.isString]⟩
  obtain ⟨_,_,h',list',done,touched,_,sorted,_⟩ := listSort_sorts present rfl (by simp) (Or.inr (Or.inr rfl)) fun _ => comparable
  refine ⟨h,h',list',reachable,present,two,one,done,touched,?_⟩
  have perm : list'.items.toList.Perm [.map ⟨0,0⟩,.map ⟨1,0⟩] := sorted.perm
  have ordered := sorted.ordered 0 1
  obtain ⟨x,y,pair⟩ := List.length_eq_two.mp perm.length_eq
  rw [pair] at perm ordered ⊢
  have left := perm.mem_iff.mp List.mem_cons_self
  have right := perm.mem_iff.mp (List.mem_cons_of_mem x List.mem_cons_self)
  simp only [List.mem_cons,List.not_mem_nil,or_false] at left right
  rcases left with rfl | rfl <;> rcases right with rfl | rfl
  · exact absurd perm (by decide)
  · refine absurd ?_ (ordered _ _ (by decide) rfl rfl)
    rw [one,two,compareNatural_numbers rfl rfl]
    decide +kernel
  · rfl
  · exact absurd perm (by decide)

-- A string that was collected ties with every string, so with two that are in order.
theorem compareNatural_gone : ∃ h gone, Reachable h ∧ gone.isString = true ∧ h.compareNatural (.short ⟨"b",by decide⟩) gone = .eq ∧
    h.compareNatural gone (.short ⟨"a",by decide⟩) = .eq ∧ h.compareNatural (.short ⟨"b",by decide⟩) (.short ⟨"a",by decide⟩) = .gt ∧
    ¬ Preorders h.compareNatural fun v => ∀ d, v = .double d → d.isNaN = false := by
  have reachable := Reachable.call .collect (.call (.newString (String.ofList (List.replicate 128 'z'))) (.new {}))
  generalize whole : Call.run _ _ = h at reachable
  have first : h.compareNatural (.short ⟨"b",by decide⟩) (.str ⟨0,0⟩) = .eq := by
    rw [← whole]
    decide +kernel
  have second : h.compareNatural (.str ⟨0,0⟩) (.short ⟨"a",by decide⟩) = .eq := by
    rw [← whole]
    decide +kernel
  have both : h.compareNatural (.short ⟨"b",by decide⟩) (.short ⟨"a",by decide⟩) = .gt := by
    rw [← whole]
    decide +kernel
  refine ⟨h,.str ⟨0,0⟩,reachable,rfl,first,second,both,fun preorders => ?_⟩
  have between : h.compareNatural (.short ⟨"b",by decide⟩) (.str ⟨0,0⟩) ≠ .gt := by simp [first]
  have below : h.compareNatural (.str ⟨0,0⟩) (.short ⟨"a",by decide⟩) ≠ .gt := by simp [second]
  exact preorders.trans _ _ _ (by simp) (by simp) (by simp) between below both

end RegisterMachine.Heap
