import RegisterMachine.Text.Basic
import Mathlib.Data.List.Basic

namespace RegisterMachine.Text

def codePoints (text : String) : List Nat := text.toList.map Char.toNat

def compareCodePoints (left right : String) : Ordering := List.compareLex compare (codePoints left) (codePoints right)

theorem bytes_eq (text : String) : bytes text = text.toList.flatMap String.utf8EncodeChar := by
  obtain ⟨characters,rfl⟩ : ∃ characters, text = String.ofList characters := ⟨_,String.ofList_toList.symm⟩
  rw [bytes,String.toUTF8_eq_toByteArray,String.toByteArray_ofList,String.toList_ofList,List.utf8Encode,List.data_toByteArray]

-- Whatever follows them, the first bytes are less than the second.
def Below (first second : List UInt8) : Prop := ∀ s t, List.compareLex compare (first ++ s) (second ++ t) = .lt

theorem Below.head {x y : Nat} (less : x < y) (small : y < 256) : Below (UInt8.ofNat x :: s) (UInt8.ofNat y :: t) := by
  intro s' t'
  have first : compare (UInt8.ofNat x) (UInt8.ofNat y) = .lt := by
    rw [Std.compare_eq_lt,UInt8.lt_iff_toNat_lt]
    simp only [UInt8.toNat_ofNat']
    omega
  rw [List.cons_append,List.cons_append,List.compareLex_cons_cons,first]
  rfl

theorem Below.tail {x y : Nat} (same : x = y) (rest : Below s t) : Below (UInt8.ofNat x :: s) (UInt8.ofNat y :: t) := by
  intro s' t'
  rw [same,List.cons_append,List.cons_append,List.compareLex_cons_cons,Std.ReflOrd.compare_self]
  exact rest s' t'

theorem encoded_below {c d : Char} (less : c.toNat < d.toNat) : Below (String.utf8EncodeChar c) (String.utf8EncodeChar d) := by
  have last : d.toNat < 0x110000 := by
    have valid := d.valid
    simp only [UInt32.isValidChar,Nat.isValidChar] at valid
    change d.val.toNat < 0x110000
    omega
  simp only [String.utf8EncodeChar]
  change c.val.toNat < d.val.toNat at less
  change d.val.toNat < _ at last
  generalize c.val.toNat = v at *
  generalize d.val.toNat = w at *
  -- A character of fewer bytes has a smaller first byte; of as many, the first digit that differs decides.
  by_cases one : v ≤ 127
  · rw [if_pos one]
    split
    · exact .head less (by omega)
    · split
      · exact .head (by omega) (by omega)
      · split <;> exact .head (by omega) (by omega)
  rw [if_neg one,if_neg (show ¬ w ≤ 127 by omega)]
  by_cases two : v ≤ 2047
  · rw [if_pos two]
    split
    · rcases Nat.lt_or_eq_of_le (Nat.div_le_div_right (c := 64) (Nat.le_of_lt less)) with lead | lead
      · exact .head (by omega) (by omega)
      · exact .tail (by omega) (.head (by omega) (by omega))
    · split <;> exact .head (by omega) (by omega)
  rw [if_neg two,if_neg (show ¬ w ≤ 2047 by omega)]
  by_cases three : v ≤ 65535
  · rw [if_pos three]
    split
    · rcases Nat.lt_or_eq_of_le (Nat.div_le_div_right (c := 4096) (Nat.le_of_lt less)) with lead | lead
      · exact .head (by omega) (by omega)
      · rcases Nat.lt_or_eq_of_le (Nat.div_le_div_right (c := 64) (Nat.le_of_lt less)) with second | second
        · exact .tail (by omega) (.head (by omega) (by omega))
        · exact .tail (by omega) (.tail (by omega) (.head (by omega) (by omega)))
    · exact .head (by omega) (by omega)
  rw [if_neg three,if_neg (show ¬ w ≤ 65535 by omega)]
  rcases Nat.lt_or_eq_of_le (Nat.div_le_div_right (c := 262144) (Nat.le_of_lt less)) with lead | lead
  · exact .head (by omega) (by omega)
  · rcases Nat.lt_or_eq_of_le (Nat.div_le_div_right (c := 4096) (Nat.le_of_lt less)) with second | second
    · exact .tail (by omega) (.head (by omega) (by omega))
    · rcases Nat.lt_or_eq_of_le (Nat.div_le_div_right (c := 64) (Nat.le_of_lt less)) with third | third
      · exact .tail (by omega) (.tail (by omega) (.head (by omega) (by omega)))
      · exact .tail (by omega) (.tail (by omega) (.tail (by omega) (.head (by omega) (by omega))))

theorem compareLex_self (bytes s t : List UInt8) : List.compareLex compare (bytes ++ s) (bytes ++ t) = List.compareLex compare s t := by
  induction bytes with
  | nil => rfl
  | cons byte rest ih =>
      rw [List.cons_append,List.cons_append,List.compareLex_cons_cons,Std.ReflOrd.compare_self]
      exact ih

theorem compareLex_encoded (left right : List Char) :
    List.compareLex compare (left.flatMap String.utf8EncodeChar) (right.flatMap String.utf8EncodeChar) =
      List.compareLex compare (left.map Char.toNat) (right.map Char.toNat) := by
  induction left generalizing right with
  | nil =>
      cases right with
      | nil => rfl
      | cons d right =>
          obtain ⟨byte,rest,encoded⟩ := List.exists_cons_of_ne_nil (String.utf8EncodeChar_ne_nil (c := d))
          rw [List.flatMap_cons,encoded]
          rfl
  | cons c left ih =>
      cases right with
      | nil =>
          obtain ⟨byte,rest,encoded⟩ := List.exists_cons_of_ne_nil (String.utf8EncodeChar_ne_nil (c := c))
          rw [List.flatMap_cons,encoded]
          rfl
      | cons d right =>
          rw [List.flatMap_cons,List.flatMap_cons,List.map_cons,List.map_cons,List.compareLex_cons_cons]
          rcases Nat.lt_trichotomy c.toNat d.toNat with less | same | greater
          · rw [encoded_below less,Std.compare_eq_lt.mpr less]
            rfl
          · rw [Char.toNat_inj.mp same,compareLex_self,Std.ReflOrd.compare_self]
            exact ih right
          · have swapped : List.compareLex compare (String.utf8EncodeChar c ++ left.flatMap String.utf8EncodeChar)
                (String.utf8EncodeChar d ++ right.flatMap String.utf8EncodeChar) = Ordering.lt.swap := by
              rw [← encoded_below greater (right.flatMap String.utf8EncodeChar) (left.flatMap String.utf8EncodeChar)]
              exact Std.OrientedCmp.eq_swap
            rw [swapped,Std.compare_eq_gt.mpr greater]
            rfl

theorem compareBytes_eq (left right : String) : compareBytes left right = compareCodePoints left right := by
  rw [compareBytes,bytes_eq,bytes_eq,compareLex_encoded]
  rfl

theorem codePoints_injective (same : codePoints x = codePoints y) : x = y :=
  String.toList_injective ((List.map_inj_right fun _ _ => Char.toNat_inj.mp).mp same)

theorem compareCodePoints_compare (x y : String) : compareCodePoints x y = compare (codePoints x) (codePoints y) := by
  rw [List.compare_eq_compareLex,compareCodePoints]

theorem compareCodePoints_eq : compareCodePoints x y = .eq ↔ x = y := by
  rw [compareCodePoints_compare]
  constructor
  · intro tie
    exact codePoints_injective (Std.LawfulEqOrd.eq_of_compare tie)
  · rintro rfl
    exact Std.ReflOrd.compare_self

theorem compareCodePoints_swap (x y : String) : compareCodePoints y x = (compareCodePoints x y).swap := by
  rw [compareCodePoints_compare,compareCodePoints_compare]
  exact Std.OrientedOrd.eq_swap

theorem compareCodePoints_trans (first : compareCodePoints x y ≠ .gt) (second : compareCodePoints y z ≠ .gt) : compareCodePoints x z ≠ .gt := by
  simp only [compareCodePoints_compare,Ordering.ne_gt_iff_isLE] at *
  exact Std.TransOrd.isLE_trans first second

end RegisterMachine.Text
