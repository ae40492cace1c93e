import Mathlib.Data.Nat.Cast.Field
import GraphQL.Scalar
import GraphQL.Proofs.Binary64.Rounding

/-!
# The integers among the numbers

A number denotes a rational number. `Number.toInt32?` finds the integer that is denoted when there is
one of 32 bits, and finds none otherwise (`Number.toInt32?_eq_some_iff`); whether the number is kept as an
integer or as a double makes no difference.
-/

namespace GraphQL

namespace Binary64

/-- The number a double denotes. -/
def toRat (x : Binary64) : ℚ :=
  (if x.negative then -1 else 1) * (x.mantissa * 2 ^ x.exponent)

/-- The magnitude of a double as one quotient, whatever the sign of its exponent. -/
theorem magnitude_eq (x : Binary64) :
    (x.mantissa * 2 ^ x.exponent : ℚ) =
      ((x.mantissa * scaleUp x.exponent : Nat) : ℚ) / scaleDown x.exponent := by
  have hdown : (scaleDown x.exponent : ℚ) ≠ 0 := by exact_mod_cast (scaleDown_pos x.exponent).ne'
  rw [eq_div_iff hdown, Nat.cast_mul, scaleUp_eq, mul_assoc]

theorem toInt?_eq (x : Binary64) :
    x.toInt? =
      (if x.mantissa * scaleUp x.exponent % scaleDown x.exponent = 0 then
        some (x.mantissa * scaleUp x.exponent / scaleDown x.exponent) else none).map
        fun n => if x.negative then -(n : Int) else (n : Int) := by
  unfold toInt?
  by_cases h : 0 ≤ x.exponent
  · have hdown : scaleDown x.exponent = 1 := by
      rw [scaleDown, show (-x.exponent).toNat = 0 by omega, Nat.pow_eq, Nat.pow_zero]
    rw [if_pos h, hdown, Nat.mod_one, if_pos rfl, Nat.div_one]
  · have hup : scaleUp x.exponent = 1 := by
      rw [scaleUp, show x.exponent.toNat = 0 by omega, Nat.pow_eq, Nat.pow_zero]
    rw [if_neg h, hup, Nat.mul_one]

/-- A quotient is an integer exactly when it leaves no remainder. -/
theorem quotient_eq_iff {num den : Nat} (hden : 0 < den) {i : Int} :
    (num / den : ℚ) = i ↔ num % den = 0 ∧ ((num / den : Nat) : Int) = i := by
  have hne : (den : ℚ) ≠ 0 := by exact_mod_cast hden.ne'
  constructor
  · intro h
    rw [div_eq_iff hne] at h
    have h : (num : Int) = i * den := by exact_mod_cast h
    have hi : 0 ≤ i := nonneg_of_mul_nonneg_left (h ▸ Int.natCast_nonneg num) (by exact_mod_cast hden)
    obtain ⟨k, rfl⟩ := Int.eq_ofNat_of_zero_le hi
    obtain rfl : num = k * den := by exact_mod_cast h
    exact ⟨Nat.mul_mod_left k den, by rw [Nat.mul_div_cancel k hden]⟩
  · rintro ⟨hmod, rfl⟩
    rw [Int.cast_natCast, Nat.cast_div (Nat.dvd_of_mod_eq_zero hmod) hne]

theorem toInt?_eq_some_iff {x : Binary64} {i : Int} : x.toInt? = some i ↔ x.toRat = i := by
  rw [toInt?_eq, toRat, magnitude_eq]
  have hdown := scaleDown_pos x.exponent
  generalize x.mantissa * scaleUp x.exponent = num at *
  generalize scaleDown x.exponent = den at *
  cases x.negative with
  | false =>
    rw [if_neg Bool.false_ne_true, one_mul, quotient_eq_iff hdown]
    by_cases hmod : num % den = 0 <;> simp [hmod]
  | true =>
    have hneg : (-1 * ((num : ℚ) / den) = i) ↔ (num / den : ℚ) = ((-i : Int) : ℚ) := by
      rw [neg_one_mul, neg_eq_iff_eq_neg, Int.cast_neg]
    rw [if_pos rfl, hneg, quotient_eq_iff hdown]
    by_cases hmod : num % den = 0 <;> simp [hmod, neg_eq_iff_eq_neg]

end Binary64

namespace Number

/-- The number that is denoted. -/
def toRat : Number → ℚ
  | int n => n
  | double x => x.toRat

theorem toInt32?_eq_some_iff {n : Number} {i : Int} :
    n.toInt32? = some i ↔ n.toRat = i ∧ -0x80000000 ≤ i ∧ i < 0x80000000 := by
  unfold toInt32?
  rw [Option.filter_eq_some_iff, Bool.and_eq_true, decide_eq_true_iff, decide_eq_true_iff]
  refine and_congr_left fun _ => ?_
  cases n with
  | int n => exact ⟨fun h => by cases h; rfl, fun h => congrArg some (Int.cast_injective h)⟩
  | double x => exact Binary64.toInt?_eq_some_iff

end Number

end GraphQL
