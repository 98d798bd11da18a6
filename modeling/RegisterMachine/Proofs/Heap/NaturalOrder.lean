import RegisterMachine.Heap.Comparison
import RegisterMachine.Proofs.Map.Keys
import RegisterMachine.Proofs.Text.CodePoints

namespace RegisterMachine

-- A comparison that orders some values, each against each, up to ties.
structure Preorders (compare : α → α → Ordering) (among : α → Prop) : Prop where
  self : ∀ a, among a → compare a a = .eq
  swap : ∀ a b, among a → among b → compare b a = (compare a b).swap
  trans : ∀ a b c, among a → among b → among c → compare a b ≠ .gt → compare b c ≠ .gt → compare a c ≠ .gt

structure Placement where
  rank : Nat
  position : Int
  characters : List Nat

def Placement.compare : Placement → Placement → Ordering :=
  compareLex (compareOn rank) (compareLex (compareOn position) (compareOn characters))

instance : Std.TransCmp Placement.compare :=
  inferInstanceAs (Std.TransCmp (compareLex (compareOn Placement.rank) (compareLex (compareOn Placement.position) (compareOn Placement.characters))))

theorem Placement.compare_preorders : Preorders Placement.compare fun _ => True where
  self := fun _ _ => Std.ReflCmp.compare_self
  swap := fun _ _ _ _ => Std.OrientedCmp.eq_swap
  trans := fun _ _ _ _ _ _ first second =>
    Ordering.ne_gt_iff_isLE.mpr (Std.TransCmp.isLE_trans (Ordering.ne_gt_iff_isLE.mp first) (Ordering.ne_gt_iff_isLE.mp second))

namespace Heap

def Comparable (h : Heap) (v : Value) : Prop :=
  (∀ d, v = .double d → d.isNaN = false) ∧ (v.isString = true → (h.text? v).isSome = true)

def placement (h : Heap) (v : Value) : Placement where
  rank := rank v
  position := if v.isNumber then v.asDouble.position else 0
  characters := ((h.text? v).map Text.codePoints).getD []

theorem rank_number {v : Value} : rank v = 1 ↔ v.isNumber = true := by cases v <;> simp [rank,Value.isNumber]

theorem rank_string {v : Value} : rank v = 2 ↔ v.isString = true := by cases v <;> simp [rank,Value.isString]

theorem rank_kinds {a b : Value} (same : rank a = rank b) : b.isNumber = a.isNumber ∧ b.isString = a.isString :=
  ⟨Bool.eq_iff_iff.mpr (by rw [← rank_number,← rank_number,same]),Bool.eq_iff_iff.mpr (by rw [← rank_string,← rank_string,same])⟩

theorem isNumber_text {h : Heap} {v : Value} (string : h.text? v = some text) : v.isNumber = false := by
  cases v with
  | int | double => cases string
  | null | short | str | list | map | funcRef => rfl

theorem Comparable.number {h : Heap} {v : Value} (comparable : h.Comparable v) (number : v.isNumber = true) : v.asDouble.isNaN = false := by
  cases v with
  | int i => exact Double.ofInt_number (Key.small_int i)
  | double d => exact comparable.1 d rfl
  | null | short | str | list | map | funcRef => cases number

theorem text?_other {h : Heap} {v : Value} (other : v.isString = false) : h.text? v = none := by
  cases v with
  | short | str => cases other
  | null | int | double | list | map | funcRef => rfl

theorem placement_number {h : Heap} {v : Value} (number : v.isNumber = true) : h.placement v = ⟨1,v.asDouble.position,[]⟩ := by
  simp only [placement,rank_number.mpr number,number,if_true,text?_other (Value.string_false number)]
  rfl

theorem placement_string {h : Heap} {v : Value} (string : h.text? v = some text) : h.placement v = ⟨2,0,Text.codePoints text⟩ := by
  simp only [placement,rank_string.mpr (isString_text string),isNumber_text string,Bool.false_eq_true,if_false,string]
  rfl

theorem placement_other {h : Heap} {v : Value} (number : v.isNumber = false) (string : v.isString = false) : h.placement v = ⟨rank v,0,[]⟩ := by
  simp only [placement,number,Bool.false_eq_true,if_false,text?_other string]
  rfl

theorem compareNatural_ranks {h : Heap} {a b : Value} (apart : rank a ≠ rank b) : h.compareNatural a b = compare (rank a) (rank b) := by
  unfold compareNatural
  split
  · rename_i same
    exact absurd (Nat.compare_eq_eq.mp same) apart
  · rfl

theorem compareNatural_numbers {h : Heap} {a b : Value} (left : a.isNumber = true) (right : b.isNumber = true) :
    h.compareNatural a b = (a.asDouble.compare? b.asDouble).getD .eq := by
  simp only [compareNatural,rank_number.mpr left,rank_number.mpr right,Std.ReflOrd.compare_self,left,if_true]

theorem compareStrings_bytes {h : Heap} {a b : Value} (left : h.text? a = some x) (right : h.text? b = some y) :
    h.compareStrings a b = List.compareLex compare (Text.bytes x) (Text.bytes y) := by
  rw [compareStrings,left,right]
  rfl

theorem compareStrings_codePoints {h : Heap} {a b : Value} (left : h.text? a = some x) (right : h.text? b = some y) :
    h.compareStrings a b = Text.compareCodePoints x y := (compareStrings_bytes left right).trans (Text.compareBytes_eq x y)

theorem compareNatural_strings {h : Heap} {a b : Value} (left : h.text? a = some x) (right : h.text? b = some y) :
    h.compareNatural a b = Text.compareCodePoints x y := by
  have first := isString_text left
  have second := isString_text right
  simp only [compareNatural,rank_string.mpr first,rank_string.mpr second,Std.ReflOrd.compare_self,isNumber_text left,first,
    Bool.false_eq_true,if_false,if_true,compareStrings_codePoints left right]

theorem compareNatural_others {h : Heap} {a b : Value} (same : rank a = rank b) (number : a.isNumber = false) (string : a.isString = false) :
    h.compareNatural a b = .eq := by
  simp only [compareNatural,same,Std.ReflOrd.compare_self,number,string,Bool.false_eq_true,if_false]

theorem Comparable.numbers {h : Heap} {a b : Value} (left : h.Comparable a) (right : h.Comparable b) (first : a.isNumber = true)
    (second : b.isNumber = true) : a.asDouble.compare? b.asDouble = some (compare a.asDouble.position b.asDouble.position) := by
  simp only [Double.compare?,left.number first,right.number second,Bool.or_self,Bool.false_eq_true,if_false]

theorem compareNatural_placement {h : Heap} {a b : Value} (left : h.Comparable a) (right : h.Comparable b) :
    h.compareNatural a b = (h.placement a).compare (h.placement b) := by
  by_cases same : rank a = rank b
  · obtain ⟨numbers,strings⟩ := rank_kinds same
    cases number : a.isNumber with
    | true =>
        have number' : b.isNumber = true := numbers.trans number
        rw [compareNatural_numbers number number',left.numbers right number number',placement_number number,placement_number number']
        simp [Placement.compare,compareLex,compareOn]
    | false =>
        cases string : a.isString with
        | true =>
            obtain ⟨x,here⟩ := Option.isSome_iff_exists.mp (left.2 string)
            obtain ⟨y,there⟩ := Option.isSome_iff_exists.mp (right.2 (strings.trans string))
            rw [compareNatural_strings here there,placement_string here,placement_string there]
            simp [Placement.compare,compareLex,compareOn,Text.compareCodePoints]
            rfl
        | false =>
            rw [compareNatural_others same number string,placement_other number string,
              placement_other (numbers.trans number) (strings.trans string),same]
            exact (Placement.compare_preorders.self _ trivial).symm
  · rw [compareNatural_ranks same]
    have decided : compare (rank a) (rank b) ≠ .eq := fun equal => same (Nat.compare_eq_eq.mp equal)
    cases ranks : compare (rank a) (rank b) with
    | eq => exact absurd ranks decided
    | lt | gt => simp [Placement.compare,compareLex,compareOn,placement,ranks]

-- The natural order. NaN and strings that are gone apart, each value has its place: first null, then the numbers by their values,
-- then the strings by their code points, then everything else.
structure NaturalOrder (h : Heap) : Prop where
  preorder : Preorders h.compareNatural h.Comparable
  ranks : ∀ a b, rank a < rank b → h.compareNatural a b = .lt
  numbers : ∀ a b, h.Comparable a → h.Comparable b → a.isNumber = true → b.isNumber = true →
    a.asDouble.compare? b.asDouble = some (h.compareNatural a b)
  strings : ∀ a b x y, h.text? a = some x → h.text? b = some y → h.compareNatural a b = Text.compareCodePoints x y
  others : ∀ a b, rank a = 3 → rank b = 3 → h.compareNatural a b = .eq

theorem compareNatural_preorders (h : Heap) : Preorders h.compareNatural h.Comparable where
  self := by
    intro a here
    rw [compareNatural_placement here here]
    exact Placement.compare_preorders.self _ trivial
  swap := by
    intro a b left right
    rw [compareNatural_placement left right,compareNatural_placement right left]
    exact Placement.compare_preorders.swap _ _ trivial trivial
  trans := by
    intro a b c left middle right
    rw [compareNatural_placement left middle,compareNatural_placement middle right,compareNatural_placement left right]
    exact Placement.compare_preorders.trans _ _ _ trivial trivial trivial

theorem naturalOrder (h : Heap) : NaturalOrder h where
  preorder := compareNatural_preorders h
  ranks := by
    intro a b less
    rw [compareNatural_ranks (Nat.ne_of_lt less),Nat.compare_eq_lt.mpr less]
  numbers := by
    intro a b left right first second
    rw [compareNatural_numbers first second,left.numbers right first second]
    rfl
  strings := fun _ _ _ _ => compareNatural_strings
  others := by
    intro a b left right
    have number : a.isNumber = false := by
      rw [← Bool.not_eq_true,← rank_number,left]
      decide
    have string : a.isString = false := by
      rw [← Bool.not_eq_true,← rank_string,left]
      decide
    exact compareNatural_others (left.trans right.symm) number string

end Heap

end RegisterMachine
