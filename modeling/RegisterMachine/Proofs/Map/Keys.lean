import RegisterMachine.Proofs.Heap.Objects
import RegisterMachine.Proofs.Number.Double

namespace RegisterMachine

-- Null, a number by its position, a NaN by its bits, a text, or a function.
inductive Key where
  | null
  | number (position : Int)
  | nan (bits : UInt64)
  | text (text : String)
  | function (handle : Handle)
deriving DecidableEq

namespace Key

def ofDouble (d : Double) : Key := if d.isNaN then .nan d.bits else .number d.position

theorem ofDouble_same {d e : Double} : d = e ∨ d.same e = true ↔ ofDouble d = ofDouble e := by
  obtain ⟨x⟩ := d
  obtain ⟨y⟩ := e
  simp only [ofDouble,Double.same,Double.mk.injEq]
  cases left : (Double.mk x).isNaN <;> cases right : (Double.mk y).isNaN
  · simp only [Bool.not_false,Bool.true_and,beq_iff_eq,Bool.false_eq_true,if_false,Key.number.injEq]
    constructor
    · rintro (rfl | same)
      · rfl
      · exact same
    · exact Or.inr
  · simp
    rintro rfl
    rw [left] at right
    cases right
  · simp
    rintro rfl
    rw [left] at right
    cases right
  · simp

theorem ofDouble_number {d e : Double} (number : d.isNaN = false) : d.same e = true ↔ ofDouble d = ofDouble e := by
  rw [← ofDouble_same]
  constructor
  · exact Or.inr
  · rintro (rfl | same)
    · simp [Double.same,number]
    · exact same

theorem ofDouble_hash {d e : Double} (same : ofDouble d = ofDouble e) : Hash.ofDouble d = Hash.ofDouble e := by
  rcases ofDouble_same.mpr same with rfl | equal
  · rfl
  · simp only [Double.same,Bool.and_eq_true,beq_iff_eq] at equal
    rcases Double.position_bits equal.2 with bits | ⟨left,right⟩
    · obtain ⟨x⟩ := d
      obtain ⟨y⟩ := e
      cases bits
      rfl
    · simp only [Hash.ofDouble,left,right,if_true]

theorem small_int (i : Int32) : i.toInt.natAbs < 2 ^ 53 := by
  have lower := Int32.le_toInt i
  have upper := Int32.toInt_lt i
  omega

theorem ofDouble_int (i : Int32) : ofDouble (.ofInt i.toInt) = .number (Double.ofInt i.toInt).position := by
  simp [ofDouble,Double.ofInt_number (small_int i)]

theorem ofDouble_ints {i j : Int32} : i = j ↔ ofDouble (.ofInt i.toInt) = ofDouble (.ofInt j.toInt) := by
  rw [ofDouble_int,ofDouble_int,Key.number.injEq]
  constructor
  · rintro rfl; rfl
  · exact fun same => Int32.toInt_inj.mp (Double.ofInt_injective (small_int i) (small_int j) same)

theorem null_ne_double (d : Double) : null ≠ ofDouble d := by
  unfold ofDouble
  split <;> exact Key.noConfusion

theorem text_ne_double (s : String) (d : Double) : text s ≠ ofDouble d := by
  unfold ofDouble
  split <;> exact Key.noConfusion

theorem function_ne_double (r : Handle) (d : Double) : function r ≠ ofDouble d := by
  unfold ofDouble
  split <;> exact Key.noConfusion

end Key

theorem Value.string_false {v : Value} (number : v.isNumber = true) : v.isString = false := by
  cases v with
  | int | double => rfl
  | null | short | str | list | map | funcRef => cases number

theorem Double.same_comm (d e : Double) : d.same e = e.same d := by
  rw [same,same,Bool.and_comm (!d.isNaN),Bool.beq_comm]

namespace Heap

-- The canonical key of a value; containers have none, and neither have strings that are gone.
def keyOf (h : Heap) : Value → Option Key
  | .null => some .null
  | .int i => some (Key.ofDouble (.ofInt i.toInt))
  | .double d => some (Key.ofDouble d)
  | .short t => some (.text t.text)
  | .str r => (h.text? (.str r)).map Key.text
  | .funcRef r => some (.function r)
  | .list _ | .map _ => none

theorem keyOf_kinds {h : Heap} {v : Value} (keyed : h.keyOf v = some k) :
    (v = .null ∧ k = .null) ∨ (v.isNumber = true ∧ k = Key.ofDouble v.asDouble) ∨
      (v.isString = true ∧ ∃ text, h.text? v = some text ∧ k = .text text) ∨ ∃ r, v = .funcRef r ∧ k = .function r := by
  cases v with
  | null => cases keyed; exact Or.inl ⟨rfl,rfl⟩
  | int i => cases keyed; exact Or.inr (Or.inl ⟨rfl,rfl⟩)
  | double d => cases keyed; exact Or.inr (Or.inl ⟨rfl,rfl⟩)
  | short t => cases keyed; exact Or.inr (Or.inr (Or.inl ⟨rfl,t.text,rfl,rfl⟩))
  | str r =>
      obtain ⟨text,found,rfl⟩ := Option.map_eq_some_iff.mp keyed
      exact Or.inr (Or.inr (Or.inl ⟨rfl,text,found,rfl⟩))
  | funcRef r => cases keyed; exact Or.inr (Or.inr (Or.inr ⟨r,rfl,rfl⟩))
  | list r => cases keyed
  | map r => cases keyed

theorem hash_number (h : Heap) {v : Value} (number : v.isNumber = true) : h.hash v = Hash.ofDouble v.asDouble := by
  cases v with
  | int i => rfl
  | double d => rfl
  | null | short | str | list | map | funcRef => cases number

theorem hash_string {h : Heap} {v : Value} (string : v.isString = true) (found : h.text? v = some text) :
    h.hash v = Hash.ofText text := by
  cases v with
  | short t => simp only [hash,hashWithin,stringHash,found]
  | str r => simp only [hash,hashWithin,stringHash,found]
  | null | int | double | list | map | funcRef => cases string

theorem keyOf_shared {h h' : Heap} {a b : Value} (ha : h.keyOf a = some k) (hb : h'.keyOf b = some k) :
    (a = .null ∧ b = .null) ∨
      (a.isNumber = true ∧ b.isNumber = true ∧ Key.ofDouble a.asDouble = Key.ofDouble b.asDouble) ∨
      (a.isString = true ∧ b.isString = true ∧ ∃ text, h.text? a = some text ∧ h'.text? b = some text) ∨
      ∃ r, a = .funcRef r ∧ b = .funcRef r := by
  rcases keyOf_kinds ha with ⟨rfl,rfl⟩ | ⟨numA,keyA⟩ | ⟨strA,text,foundA,rfl⟩ | ⟨r,rfl,rfl⟩
  · rcases keyOf_kinds hb with ⟨rfl,_⟩ | ⟨_,keyB⟩ | ⟨_,_,_,keyB⟩ | ⟨_,_,keyB⟩
    · exact Or.inl ⟨rfl,rfl⟩
    · exact absurd keyB (Key.null_ne_double _)
    · cases keyB
    · cases keyB
  · rcases keyOf_kinds hb with ⟨rfl,rfl⟩ | ⟨numB,keyB⟩ | ⟨_,_,_,rfl⟩ | ⟨_,_,rfl⟩
    · exact absurd keyA (Key.null_ne_double _)
    · exact Or.inr (Or.inl ⟨numA,numB,keyA.symm.trans keyB⟩)
    · exact absurd keyA (Key.text_ne_double _ _)
    · exact absurd keyA (Key.function_ne_double _ _)
  · rcases keyOf_kinds hb with ⟨_,keyB⟩ | ⟨_,keyB⟩ | ⟨strB,_,foundB,keyB⟩ | ⟨_,_,keyB⟩
    · cases keyB
    · exact absurd keyB (Key.text_ne_double _ _)
    · cases keyB
      exact Or.inr (Or.inr (Or.inl ⟨strA,strB,text,foundA,foundB⟩))
    · cases keyB
  · rcases keyOf_kinds hb with ⟨_,keyB⟩ | ⟨_,keyB⟩ | ⟨_,_,_,keyB⟩ | ⟨_,rfl,keyB⟩
    · cases keyB
    · exact absurd keyB (Key.function_ne_double _ _)
    · cases keyB
    · cases keyB
      exact Or.inr (Or.inr (Or.inr ⟨r,rfl,rfl⟩))

theorem keyOf_hash {h h' : Heap} {a b : Value} (ha : h.keyOf a = some k) (hb : h'.keyOf b = some k) :
    h.hash a = h'.hash b := by
  rcases keyOf_shared ha hb with ⟨rfl,rfl⟩ | ⟨numA,numB,same⟩ | ⟨strA,strB,text,foundA,foundB⟩ | ⟨r,rfl,rfl⟩
  · rfl
  · rw [hash_number h numA,hash_number h' numB]
    exact Key.ofDouble_hash same
  · rw [hash_string strA foundA,hash_string strB foundB]
  · rfl

theorem keyOf_texts {h h' : Heap} (texts : ∀ v, h'.text? v = h.text? v) (v : Value) : h'.keyOf v = h.keyOf v := by
  cases v with
  | str q => simp only [keyOf,texts]
  | null | int | double | short | list | map | funcRef => rfl

theorem keyOf_objects {h h' : Heap} (objects : ∀ r, h'.object? r = h.object? r) (v : Value) : h'.keyOf v = h.keyOf v := by
  apply keyOf_texts
  intro w
  cases w with
  | str q => simp only [text?,objects]
  | null | int | double | short | list | map | funcRef => rfl

theorem text?_str {h : Heap} : h.text? (.str r) = some text ↔ h.object? r = some (.str text) := by
  simp only [text?]
  constructor
  · intro found
    split at found
    · rename_i other present
      cases found
      exact present
    · cases found
  · intro present
    rw [present]

theorem isString_text {h : Heap} {v : Value} (found : h.text? v = some text) : v.isString = true := by
  cases v with
  | short | str => rfl
  | null | int | double | list | map | funcRef => cases found

theorem isNull_text {h : Heap} {v : Value} (found : h.text? v = some text) : v.isNull = false := by
  cases v with
  | null => cases found
  | int | double | short | str | list | map | funcRef => rfl

theorem keyOf_text {h : Heap} {v : Value} : h.keyOf v = some (.text text) ↔ h.text? v = some text := by
  constructor
  · intro known
    rcases keyOf_kinds known with ⟨_,wrong⟩ | ⟨_,wrong⟩ | ⟨_,other,found,same⟩ | ⟨_,_,wrong⟩
    · cases wrong
    · exact absurd wrong (Key.text_ne_double _ _)
    · cases same
      exact found
    · cases wrong
  · intro found
    cases v with
    | short t => cases found; rfl
    | str q => simp only [keyOf,found,Option.map_some]
    | null | int | double | list | map | funcRef => cases found

theorem sameKey_numbers (h : Heap) {a b : Value} (ha : a.isNumber = true) (hb : b.isNumber = true) :
    h.sameKey a b = true ↔ Key.ofDouble a.asDouble = Key.ofDouble b.asDouble := by
  cases a with
  | int i =>
      have number := Double.ofInt_number (Key.small_int i)
      cases b with
      | int j =>
          have equal : h.equal (.int i) (.int j) = (i == j) := rfl
          simp only [sameKey,equal,Bool.or_eq_true,beq_iff_eq,Value.int.injEq,or_self]
          exact Key.ofDouble_ints
      | double e =>
          have equal : h.equal (.int i) (.double e) = (Double.ofInt i.toInt).same e := rfl
          simp only [sameKey,equal,Bool.or_eq_true,beq_iff_eq,reduceCtorEq,false_or]
          exact Key.ofDouble_number number
      | null | short | str | list | map | funcRef => cases hb
  | double d =>
      cases b with
      | int j =>
          have number := Double.ofInt_number (Key.small_int j)
          have equal : h.equal (.double d) (.int j) = d.same (.ofInt j.toInt) := rfl
          simp only [sameKey,equal,Bool.or_eq_true,beq_iff_eq,reduceCtorEq,false_or]
          rw [Double.same_comm]
          exact (Key.ofDouble_number number).trans eq_comm
      | double e =>
          have equal : h.equal (.double d) (.double e) = d.same e := rfl
          simp only [sameKey,equal,Bool.or_eq_true,beq_iff_eq,Value.double.injEq]
          exact Key.ofDouble_same
      | null | short | str | list | map | funcRef => cases hb
  | null | short | str | list | map | funcRef => cases ha

theorem sameText_iff (h : Heap) (a b : Value) : h.sameText a b = true ↔ h.text? a = h.text? b := by
  unfold sameText
  split
  · rename_i s t
    obtain ⟨s,_⟩ := s
    obtain ⟨t,_⟩ := t
    simp [text?]
  · exact beq_iff_eq

theorem sameText_texts {h : Heap} {a b : Value} (ha : h.text? a = some x) (hb : h.text? b = some y) :
    h.sameText a b = true ↔ x = y := by
  rw [sameText_iff,ha,hb,Option.some.injEq]

theorem equal_strings (h : Heap) {a b : Value} (ha : a.isString = true) (hb : b.isString = true) :
    h.equal a b = true ↔ h.text? a = h.text? b := by
  have equal : h.equal a b = (a == b || h.sameText a b) := by
    cases a with
    | short | str =>
        cases b with
        | short | str => rfl
        | null | int | double | list | map | funcRef => cases hb
    | null | int | double | list | map | funcRef => cases ha
  rw [equal,Bool.or_eq_true,sameText_iff,beq_iff_eq]
  constructor
  · rintro (rfl | same)
    · rfl
    · exact same
  · exact Or.inr

theorem equal_texts {h : Heap} {a b : Value} (ha : h.text? a = some x) (hb : h.text? b = some y) :
    h.equal a b = true ↔ x = y := by
  rw [equal_strings h (isString_text ha) (isString_text hb),ha,hb,Option.some.injEq]

theorem sameKey_strings (h : Heap) {a b : Value} (ha : a.isString = true) (hb : b.isString = true) :
    h.sameKey a b = true ↔ h.text? a = h.text? b := by
  rw [sameKey,Bool.or_eq_true,equal_strings h ha hb,beq_iff_eq]
  constructor
  · rintro (rfl | same)
    · rfl
    · exact same
  · exact Or.inr

theorem sameKey_texts {h : Heap} {a b : Value} (ha : h.text? a = some x) (hb : h.text? b = some y) :
    h.sameKey a b = true ↔ x = y := by
  rw [sameKey_strings h (isString_text ha) (isString_text hb),ha,hb,Option.some.injEq]

theorem sameKey_kinds {h : Heap} {a b : Value} (ha : h.keyOf a = some k) (same : h.sameKey a b = true) :
    a.isNull = b.isNull ∧ a.isNumber = b.isNumber ∧ a.isString = b.isString ∧ a.isFuncRef = b.isFuncRef := by
  rw [sameKey,Bool.or_eq_true,beq_iff_eq] at same
  rcases same with rfl | equal
  · exact ⟨rfl,rfl,rfl,rfl⟩
  · cases a with
    | list | map => cases ha
    | null | int | double | short | str | funcRef => cases b <;> first | exact ⟨rfl,rfl,rfl,rfl⟩ | cases equal

theorem sameKey_keyOf {h : Heap} {a b : Value} (ha : h.keyOf a = some k) (hb : h.keyOf b = some l) :
    h.sameKey a b = true ↔ k = l := by
  constructor
  · intro same
    obtain ⟨null,number,string,function⟩ := sameKey_kinds ha same
    rcases keyOf_kinds ha with ⟨rfl,rfl⟩ | ⟨numA,keyA⟩ | ⟨strA,x,foundA,rfl⟩ | ⟨r,rfl,rfl⟩
    · cases b <;> first | exact Option.some.inj hb | cases null
    · have numB : b.isNumber = true := number ▸ numA
      rcases keyOf_kinds hb with ⟨rfl,_⟩ | ⟨_,keyB⟩ | ⟨strB,_⟩ | ⟨_,rfl,_⟩
      · cases numB
      · rw [keyA,keyB]
        exact (sameKey_numbers h numA numB).mp same
      · exact absurd strB (by rw [Value.string_false numB]; exact Bool.false_ne_true)
      · cases numB
    · have strB : b.isString = true := string ▸ strA
      rcases keyOf_kinds hb with ⟨rfl,_⟩ | ⟨numB,_⟩ | ⟨_,y,foundB,rfl⟩ | ⟨_,rfl,_⟩
      · cases strB
      · exact absurd strB (by rw [Value.string_false numB]; exact Bool.false_ne_true)
      · rw [(sameKey_texts foundA foundB).mp same]
      · cases strB
    · cases b with
      | funcRef q =>
          have equal : h.equal (.funcRef r) (.funcRef q) = (r == q) := rfl
          simp only [sameKey,equal,Bool.or_eq_true,beq_iff_eq,Value.funcRef.injEq,or_self] at same
          rw [same]
          exact Option.some.inj hb
      | null | int | double | short | str | list | map => cases function
  · rintro rfl
    rcases keyOf_shared ha hb with ⟨rfl,rfl⟩ | ⟨numA,numB,same⟩ | ⟨strA,strB,text,foundA,foundB⟩ | ⟨r,rfl,rfl⟩
    · rfl
    · exact (sameKey_numbers h numA numB).mpr same
    · exact (sameKey_texts foundA foundB).mpr rfl
    · simp [sameKey]

end Heap

end RegisterMachine
