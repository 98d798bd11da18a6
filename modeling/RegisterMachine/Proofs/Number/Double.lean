import RegisterMachine.Number.Double
import Mathlib.Algebra.Ring.Nat
import Mathlib.Data.Nat.Log

namespace RegisterMachine.Double

theorem log2_small (positive : 0 < n) (small : n < 2 ^ 53) : n.log2 ≤ 52 :=
  Nat.le_of_lt_succ ((Nat.log2_lt (Nat.ne_of_gt positive)).mpr small)

theorem shifted_bounds (positive : 0 < n) (small : n < 2 ^ 53) :
    leadingDigit ≤ n * 2 ^ (52 - n.log2) ∧ n * 2 ^ (52 - n.log2) < 2 * leadingDigit := by
  have exponent := log2_small positive small
  have lower : 2 ^ n.log2 ≤ n := Nat.log2_self_le (Nat.ne_of_gt positive)
  have upper : n < 2 ^ (n.log2 + 1) := Nat.lt_log2_self
  have power : 2 ^ n.log2 * 2 ^ (52 - n.log2) = leadingDigit := by
    rw [← Nat.pow_add,Nat.add_sub_cancel' exponent]
    rfl
  constructor
  · calc leadingDigit = 2 ^ n.log2 * 2 ^ (52 - n.log2) := power.symm
      _ ≤ n * 2 ^ (52 - n.log2) := Nat.mul_le_mul_right _ lower
  · calc n * 2 ^ (52 - n.log2) < 2 ^ (n.log2 + 1) * 2 ^ (52 - n.log2) :=
          Nat.mul_lt_mul_of_pos_right upper (Nat.two_pow_pos _)
      _ = 2 * leadingDigit := by rw [Nat.pow_succ,Nat.mul_right_comm,power,Nat.mul_comm]

theorem roundQuotient_one (n : Nat) : roundQuotient n 1 = n := by
  simp [roundQuotient,Nat.mod_one]

theorem nearestMagnitude_nat (positive : 0 < n) (small : n < 2 ^ 53) :
    nearestMagnitude n 1 = (n.log2 + 1022) * leadingDigit + n * 2 ^ (52 - n.log2) := by
  have exponent := log2_small positive small
  obtain ⟨lower,upper⟩ := shifted_bounds positive small
  have doubled : n * 2 ^ (53 - n.log2) = 2 * (n * 2 ^ (52 - n.log2)) := by
    rw [show 53 - n.log2 = 52 - n.log2 + 1 by omega,Nat.pow_succ,Nat.mul_comm _ 2,Nat.mul_left_comm]
  have unit : Nat.log2 1 = 0 := by decide
  have down : (-((n.log2 : Int) - (Nat.log2 1 : Nat) - 53)).toNat = 53 - n.log2 := by
    rw [unit]; omega
  have up : ((n.log2 : Int) - (Nat.log2 1 : Nat) - 53).toNat = 0 := by
    rw [unit]; omega
  have large : ¬ n * Nat.pow 2 (-((n.log2 : Int) - (Nat.log2 1 : Nat) - 53)).toNat /
      (1 * Nat.pow 2 ((n.log2 : Int) - (Nat.log2 1 : Nat) - 53).toNat) < 2 * leadingDigit := by
    rw [down,up,Nat.pow_eq,Nat.pow_eq,doubled,Nat.pow_zero,Nat.mul_one,Nat.div_one]
    omega
  have chosen : max ((n.log2 : Int) - (Nat.log2 1 : Nat) - 53 + 1) (-1074) = (n.log2 : Int) - 52 := by
    rw [unit]; omega
  have limit : leadingDigit * 2047 = infinityMagnitude := by rfl
  simp only [nearestMagnitude,if_neg (Nat.ne_of_gt positive),if_neg large,chosen]
  rw [show (-((n.log2 : Int) - 52)).toNat = 52 - n.log2 by omega,show ((n.log2 : Int) - 52).toNat = 0 by omega,
    show ((n.log2 : Int) - 52 + 1074).toNat = n.log2 + 1022 by omega,Nat.pow_eq,Nat.pow_eq,Nat.pow_zero,Nat.mul_one,
    roundQuotient_one]
  refine Nat.min_eq_left ?_
  have bound : (n.log2 + 1022) * leadingDigit ≤ 1074 * leadingDigit := Nat.mul_le_mul_right _ (by omega)
  omega

theorem nearestMagnitude_zero : nearestMagnitude 0 1 = 0 := rfl

theorem nearestMagnitude_finite (small : n < 2 ^ 53) : nearestMagnitude n 1 < infinityMagnitude := by
  rcases Nat.eq_zero_or_pos n with rfl | positive
  · decide
  · have exponent := log2_small positive small
    have upper := (shifted_bounds positive small).2
    have bound : (n.log2 + 1022) * leadingDigit ≤ 1074 * leadingDigit := Nat.mul_le_mul_right _ (by omega)
    have limit : leadingDigit * 2047 = infinityMagnitude := by rfl
    rw [nearestMagnitude_nat positive small]
    omega

theorem nearestMagnitude_pos (positive : 0 < n) (small : n < 2 ^ 53) : 0 < nearestMagnitude n 1 := by
  have lower := (shifted_bounds positive small).1
  have digit : 0 < leadingDigit := by decide
  rw [nearestMagnitude_nat positive small]
  omega

theorem nearestMagnitude_injective (hm : m < 2 ^ 53) (hn : n < 2 ^ 53)
    (same : nearestMagnitude m 1 = nearestMagnitude n 1) : m = n := by
  rcases Nat.eq_zero_or_pos m with rfl | pm
  · rcases Nat.eq_zero_or_pos n with rfl | pn
    · rfl
    · have positive := nearestMagnitude_pos pn hn
      rw [← same,nearestMagnitude_zero] at positive
      exact absurd positive (Nat.lt_irrefl _)
  · rcases Nat.eq_zero_or_pos n with rfl | pn
    · have positive := nearestMagnitude_pos pm hm
      rw [same,nearestMagnitude_zero] at positive
      exact absurd positive (Nat.lt_irrefl _)
    · obtain ⟨lm,um⟩ := shifted_bounds pm hm
      obtain ⟨ln,un⟩ := shifted_bounds pn hn
      rw [nearestMagnitude_nat pm hm,nearestMagnitude_nat pn hn] at same
      -- The digits before the exponent are fewer than one unit of it.
      have exponents : m.log2 = n.log2 := by
        unfold leadingDigit at *
        omega
      rw [exponents] at same
      exact Nat.eq_of_mul_eq_mul_right (Nat.two_pow_pos (52 - n.log2)) (Nat.add_left_cancel same)

theorem ofMagnitude_parts (negative : Bool) (bound : m < signBit) :
    (ofMagnitude negative m).magnitude = m ∧ (ofMagnitude negative m).isNegative = negative := by
  have word : signBit * 2 = 2 ^ 64 := by rfl
  cases negative with
  | false =>
      have bits : (UInt64.ofNat m).toNat = m := UInt64.toNat_ofNat_of_lt' (by rw [UInt64.size]; omega)
      simp only [ofMagnitude,magnitude,isNegative,Bool.false_eq_true,if_false,bits]
      exact ⟨Nat.mod_eq_of_lt bound,by simpa using bound⟩
  | true =>
      have bits : (UInt64.ofNat (m + signBit)).toNat = m + signBit :=
        UInt64.toNat_ofNat_of_lt' (by rw [UInt64.size]; omega)
      simp only [ofMagnitude,magnitude,isNegative,if_true,bits]
      exact ⟨by rw [Nat.add_mod_right,Nat.mod_eq_of_lt bound],by simp⟩

theorem ofInt_parts {i : Int} (small : i.natAbs < 2 ^ 53) :
    (ofInt i).magnitude = nearestMagnitude i.natAbs 1 ∧ (ofInt i).isNegative = decide (i < 0) := by
  have finite := nearestMagnitude_finite small
  have limit : infinityMagnitude < signBit := by decide
  exact ofMagnitude_parts _ (by omega)

theorem ofInt_number {i : Int} (small : i.natAbs < 2 ^ 53) : (ofInt i).isNaN = false := by
  have finite := nearestMagnitude_finite small
  simp only [isNaN,(ofInt_parts small).1,decide_eq_false_iff_not]
  omega

theorem ofInt_injective {i j : Int} (hi : i.natAbs < 2 ^ 53) (hj : j.natAbs < 2 ^ 53)
    (same : (ofInt i).position = (ofInt j).position) : i = j := by
  simp only [position,(ofInt_parts hi).1,(ofInt_parts hi).2,(ofInt_parts hj).1,(ofInt_parts hj).2,decide_eq_true_eq] at same
  have magnitudes : nearestMagnitude i.natAbs 1 = nearestMagnitude j.natAbs 1 := by
    split at same <;> split at same <;> omega
  have absolute := nearestMagnitude_injective hi hj magnitudes
  by_cases zero : i.natAbs = 0
  · omega
  · have positive := nearestMagnitude_pos (Nat.pos_of_ne_zero zero) hi
    split at same <;> split at same <;> omega

theorem bits_parts (d : Double) :
    d.bits.toNat = d.magnitude + if d.isNegative then signBit else 0 := by
  have bound := d.bits.toNat_lt
  have word : signBit * 2 = 2 ^ 64 := by rfl
  simp only [magnitude,isNegative]
  by_cases negative : signBit ≤ d.bits.toNat
  · simp only [negative,decide_true,if_true]
    rw [Nat.mod_eq_sub_mod negative,Nat.mod_eq_of_lt (by omega)]
    omega
  · simp only [negative,decide_false,Bool.false_eq_true,if_false]
    rw [Nat.mod_eq_of_lt (by omega),Nat.add_zero]

theorem position_bits {d e : Double} (same : d.position = e.position) :
    d.bits = e.bits ∨ d.isZero = true ∧ e.isZero = true := by
  have left := bits_parts d
  have right := bits_parts e
  simp only [position] at same
  by_cases zero : d.magnitude = 0
  · right
    have other : e.magnitude = 0 := by split at same <;> split at same <;> omega
    simp [isZero,zero,other]
  · left
    apply UInt64.toNat_inj.mp
    rw [left,right]
    cases first : d.isNegative <;> cases second : e.isNegative <;>
      simp only [first,second,Bool.false_eq_true,if_true,if_false] at same ⊢ <;> omega

end RegisterMachine.Double
