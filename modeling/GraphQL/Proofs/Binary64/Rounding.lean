import Mathlib.Algebra.Order.Field.Power
import Mathlib.Data.Rat.Cast.Order
import Mathlib.Tactic.FieldSimp
import Mathlib.Tactic.Linarith
import Mathlib.Tactic.NormNum
import Mathlib.Tactic.Positivity
import Mathlib.Tactic.Ring
import GraphQL.Binary64

/-!
# Rounding to the nearest double

`Near x v` says that the rational `v` lies in the interval of those that round to the positive double
`x`. Every quotient in this interval is rounded to `x` (`ofRatio_of_near`), and so is every decimal
(`ofDecimal_of_near`).
-/

namespace GraphQL.Binary64

/-! ## Powers of two -/

theorem scaleUp_eq (e : Int) : (scaleUp e : ℚ) = 2 ^ e * scaleDown e := by
  unfold scaleUp scaleDown
  simp only [Nat.pow_eq, Nat.cast_pow, Nat.cast_ofNat]
  rcases le_total 0 e with h | h
  · obtain ⟨n, rfl⟩ := Int.eq_ofNat_of_zero_le h
    simp
  · obtain ⟨n, hn⟩ := Int.eq_ofNat_of_zero_le (neg_nonneg.2 h)
    obtain rfl : e = -n := by omega
    simp

theorem scaleUp_pos (e : Int) : 0 < scaleUp e :=
  Nat.pow_pos (by decide)

theorem scaleDown_pos (e : Int) : 0 < scaleDown e :=
  Nat.pow_pos (by decide)

/-- A quotient counted in units of `2 ^ e`. -/
theorem ratio_scaled {num den : Nat} (hden : 0 < den) (e : Int) :
    (num * scaleDown e : ℚ) / (den * scaleUp e) = (num / den) / 2 ^ e := by
  have hd : (den : ℚ) ≠ 0 := by exact_mod_cast hden.ne'
  have hs : (scaleDown e : ℚ) ≠ 0 := by exact_mod_cast (scaleDown_pos e).ne'
  have hp : (2 : ℚ) ^ e ≠ 0 := by positivity
  rw [scaleUp_eq]
  field_simp

theorem cast_leastFull : (leastFull : ℚ) = 2 ^ 52 := by
  norm_num [leastFull]

/-! ## Rounding to an integer -/

theorem nearest_eq {n d M : Nat} (hd : 0 < d) (hlow : 2 * (M * d) ≤ 2 * n + d)
    (hhigh : 2 * n ≤ 2 * (M * d) + d)
    (hodd : M % 2 = 1 → 2 * (M * d) < 2 * n + d ∧ 2 * n < 2 * (M * d) + d) : nearest n d = M := by
  have hn := Nat.div_add_mod n d
  have hr := Nat.mod_lt n hd
  unfold nearest
  generalize n / d = q at *
  generalize n % d = r at *
  have hcases : M = q ∨ M = q + 1 := by
    rcases Nat.lt_or_ge M q with hlt | hge
    · have : (M + 1) * d ≤ q * d := Nat.mul_le_mul_right d hlt
      have hcomm : d * q = q * d := Nat.mul_comm d q
      rw [Nat.add_mul] at this
      omega
    · rcases Nat.lt_or_ge (q + 1) M with hlt | hle
      · have : (q + 2) * d ≤ M * d := Nat.mul_le_mul_right d hlt
        have hcomm : d * q = q * d := Nat.mul_comm d q
        rw [Nat.add_mul] at this
        omega
      · omega
  have hcomm : d * q = q * d := Nat.mul_comm d q
  simp only
  rcases hcases with rfl | rfl
  · split
    · rfl
    · split
      · omega
      · have : M % 2 ≠ 1 := by
          intro h
          have := hodd h
          omega
        omega
  · rw [Nat.add_mul] at hlow hhigh hodd
    split
    · omega
    · split
      · rfl
      · have : (q + 1) % 2 ≠ 1 := by
          intro h
          have := hodd h
          omega
        omega

/-- The same, of the quotient. -/
theorem nearest_of_abs_le {n d M : Nat} (hd : 0 < d) (hlow : (M : ℚ) - 1 / 2 ≤ n / d)
    (hhigh : (n / d : ℚ) ≤ M + 1 / 2)
    (hodd : M % 2 = 1 → (M : ℚ) - 1 / 2 < n / d ∧ (n / d : ℚ) < M + 1 / 2) : nearest n d = M := by
  have hdq : (0 : ℚ) < d := by exact_mod_cast hd
  rw [le_div_iff₀ hdq] at hlow
  rw [div_le_iff₀ hdq] at hhigh
  refine nearest_eq hd ?_ ?_ fun h => ?_
  · have : (2 * (M * d) : ℚ) ≤ 2 * n + d := by linarith
    exact_mod_cast this
  · have : (2 * n : ℚ) ≤ 2 * (M * d) + d := by linarith
    exact_mod_cast this
  · obtain ⟨hl, hh⟩ := hodd h
    rw [lt_div_iff₀ hdq] at hl
    rw [div_lt_iff₀ hdq] at hh
    constructor
    · have : (2 * (M * d) : ℚ) < 2 * n + d := by linarith
      exact_mod_cast this
    · have : (2 * n : ℚ) < 2 * (M * d) + d := by linarith
      exact_mod_cast this

/-! ## The exponent -/

/-- A quotient lies between the powers of two that the lengths of its terms give. -/
theorem ratio_log2 {num den : Nat} (hnum : 0 < num) (hden : 0 < den) :
    (2 : ℚ) ^ ((Nat.log2 num : Int) - Nat.log2 den - 1) < num / den ∧
      (num / den : ℚ) < 2 ^ ((Nat.log2 num : Int) - Nat.log2 den + 1) := by
  have hd : (0 : ℚ) < den := by exact_mod_cast hden
  have hnumLow : (2 : ℚ) ^ Nat.log2 num ≤ num := by exact_mod_cast Nat.log2_self_le hnum.ne'
  have hnumHigh : (num : ℚ) < 2 ^ Nat.log2 num * 2 := by exact_mod_cast Nat.lt_log2_self
  have hdenLow : (2 : ℚ) ^ Nat.log2 den ≤ den := by exact_mod_cast Nat.log2_self_le hden.ne'
  have hdenHigh : (den : ℚ) < 2 ^ Nat.log2 den * 2 := by exact_mod_cast Nat.lt_log2_self
  have hpow : (0 : ℚ) < 2 ^ ((Nat.log2 num : Int) - Nat.log2 den) := by positivity
  have hsplit : (2 : ℚ) ^ ((Nat.log2 num : Int) - Nat.log2 den) * 2 ^ Nat.log2 den =
      2 ^ Nat.log2 num := by
    rw [← zpow_natCast, ← zpow_natCast, ← zpow_add₀ two_ne_zero, sub_add_cancel]
  rw [lt_div_iff₀ hd, div_lt_iff₀ hd, zpow_sub_one₀ two_ne_zero, zpow_add_one₀ two_ne_zero]
  generalize (2 : ℚ) ^ ((Nat.log2 num : Int) - Nat.log2 den) = p at *
  constructor
  · nlinarith only [hpow, hdenHigh, hsplit, hnumLow]
  · nlinarith only [hpow, hdenLow, hsplit, hnumHigh]

/-- The exponent of a quotient leaves 53 bits in front of the point, or fewer if it is the least. -/
theorem exponentOf_spec {num den : Nat} (hnum : 0 < num) (hden : 0 < den) :
    -1074 ≤ exponentOf num den ∧ (num / den : ℚ) < 2 ^ 53 * 2 ^ exponentOf num den ∧
      (exponentOf num den = -1074 ∨ (2 : ℚ) ^ 52 * 2 ^ exponentOf num den ≤ num / den) := by
  obtain ⟨hlow, hhigh⟩ := ratio_log2 hnum hden
  unfold exponentOf
  generalize he : (Nat.log2 num : Int) - Nat.log2 den - 53 = e
  rw [show (Nat.log2 num : Int) - Nat.log2 den - 1 = e + 52 by omega, zpow_add₀ two_ne_zero,
    zpow_ofNat] at hlow
  rw [show (Nat.log2 num : Int) - Nat.log2 den + 1 = e + 54 by omega, zpow_add₀ two_ne_zero,
    zpow_ofNat] at hhigh
  have hshort : num * scaleDown e / (den * scaleUp e) < 2 * leastFull ↔
      (num / den : ℚ) < 2 ^ 53 * 2 ^ e := by
    have hunit : 0 < den * scaleUp e := Nat.mul_pos hden (scaleUp_pos e)
    have hunitq : (0 : ℚ) < den * scaleUp e := by exact_mod_cast hunit
    rw [Nat.div_lt_iff_lt_mul hunit, ← div_lt_iff₀ (by positivity : (0 : ℚ) < 2 ^ e),
      ← ratio_scaled hden, div_lt_iff₀ hunitq]
    norm_cast
  simp only [hshort]
  have hmono : ∀ k : Int, k ≤ -1074 → (2 : ℚ) ^ k ≤ 2 ^ (-1074 : Int) := fun k hk =>
    zpow_le_zpow_right₀ one_le_two hk
  split
  · next h =>
    refine ⟨le_max_left .., ?_⟩
    rcases le_total (-1074) e with hle | hle
    · rw [max_eq_right hle]
      exact ⟨h, .inr (by linarith)⟩
    · rw [max_eq_left hle]
      refine ⟨?_, .inl rfl⟩
      have := hmono _ hle
      linarith
  · next h =>
    have hnext : (2 : ℚ) ^ (e + 1) = 2 ^ e * 2 := zpow_add_one₀ two_ne_zero e
    refine ⟨le_max_left .., ?_⟩
    rcases le_total (-1074) (e + 1) with hle | hle
    · rw [max_eq_right hle, hnext]
      constructor
      · linarith
      · exact .inr (by linarith)
    · rw [max_eq_left hle]
      refine ⟨?_, .inl rfl⟩
      have := hmono _ hle
      linarith

/-! ## The numbers that round to a double -/

/-- How far below a double the numbers begin that round to it, counted in its last place. Below a
power of two the next double is half as far away. -/
def gapBelow (x : Binary64) : ℚ :=
  if x.mantissa = leastFull ∧ -1074 < x.exponent then 1 / 4 else 1 / 2

theorem gapBelow_le (x : Binary64) : gapBelow x ≤ 1 / 2 := by
  unfold gapBelow
  split <;> norm_num

/-- Between the halves to the neighbours of a positive double. The ends belong to it when its mantissa
is even. -/
structure Near (x : Binary64) (v : ℚ) : Prop where
  low : (x.mantissa - gapBelow x) * 2 ^ x.exponent ≤ v
  high : v ≤ (x.mantissa + 1 / 2) * 2 ^ x.exponent
  odd : x.mantissa % 2 = 1 →
    (x.mantissa - gapBelow x) * 2 ^ x.exponent < v ∧ v < (x.mantissa + 1 / 2) * 2 ^ x.exponent

theorem assemble_fits (x : Binary64) : assemble x.negative x.mantissa x.exponent = some x :=
  dif_pos x.fits

/-- A mantissa that is rounded up to a power of two loses a bit. -/
theorem assemble_carry {x : Binary64} (h : x.mantissa = leastFull) :
    assemble x.negative (2 * leastFull) (x.exponent - 1) = some x := by
  obtain ⟨negative, mantissa, exponent, hfits⟩ := x
  obtain rfl : mantissa = leastFull := h
  have hnot : ¬ Fits (2 * leastFull) (exponent - 1) := fun h => absurd h.1 (Nat.lt_irrefl _)
  have hback : exponent - 1 + 1 = exponent := by omega
  unfold assemble
  rw [dif_neg hnot, if_pos rfl, dif_pos (hback.symm ▸ hfits)]
  simp only [hback]

namespace Near

variable {x : Binary64} {v : ℚ}

theorem pos (h : Near x v) (hx : 0 < x.mantissa) : 0 < v := by
  have hgap := gapBelow_le x
  have hone : (1 : ℚ) ≤ x.mantissa := by exact_mod_cast hx
  have hpow : (0 : ℚ) < 2 ^ x.exponent := by positivity
  have : 0 < (x.mantissa - gapBelow x) * 2 ^ x.exponent := mul_pos (by linarith) hpow
  exact this.trans_le h.low

theorem div_low (h : Near x v) : x.mantissa - gapBelow x ≤ v / 2 ^ x.exponent := by
  rw [le_div_iff₀ (by positivity)]
  exact h.low

theorem div_high (h : Near x v) : v / 2 ^ x.exponent ≤ x.mantissa + 1 / 2 := by
  rw [div_le_iff₀ (by positivity)]
  exact h.high

theorem div_odd (h : Near x v) (hodd : x.mantissa % 2 = 1) :
    x.mantissa - gapBelow x < v / 2 ^ x.exponent ∧ v / 2 ^ x.exponent < x.mantissa + 1 / 2 := by
  rw [lt_div_iff₀ (by positivity), div_lt_iff₀ (by positivity)]
  exact h.odd hodd

end Near

section

variable {x : Binary64} {num den : Nat}

theorem exponentOf_le (hden : 0 < den) (hnum : 0 < num)
    (h : Near x (num / den)) : exponentOf num den ≤ x.exponent := by
  obtain ⟨-, -, hexp⟩ := exponentOf_spec hnum hden
  rcases hexp with hleast | hlow
  · rw [hleast]
    exact x.fits.2.1
  · have hm : (x.mantissa : ℚ) + 1 ≤ 2 ^ 53 := by exact_mod_cast x.fits.1
    have hpow : (0 : ℚ) < 2 ^ x.exponent := by positivity
    have hlt : (2 : ℚ) ^ exponentOf num den < 2 ^ (x.exponent + 1) := by
      rw [zpow_add_one₀ two_ne_zero]
      have := h.high
      nlinarith only [this, hlow, hm, hpow]
    have := (zpow_lt_zpow_iff_right₀ one_lt_two).1 hlt
    omega

/-- At a lower exponent, only a power of two can be reached, from below. -/
theorem exponentOf_lt (hden : 0 < den) (hnum : 0 < num)
    (h : Near x (num / den)) (hlt : exponentOf num den < x.exponent) :
    x.mantissa = leastFull ∧ exponentOf num den = x.exponent - 1 := by
  obtain ⟨hleast, hhigh, -⟩ := exponentOf_spec hnum hden
  have hpow : (0 : ℚ) < 2 ^ x.exponent := by positivity
  have hstep : (2 : ℚ) ^ exponentOf num den ≤ 2 ^ (x.exponent - 1) :=
    zpow_le_zpow_right₀ one_le_two (by omega)
  rw [zpow_sub_one₀ two_ne_zero] at hstep
  have hmant : x.mantissa = leastFull := by
    have hgap := gapBelow_le x
    have hlow := h.low
    have hupper : (x.mantissa : ℚ) < leastFull + 1 := by
      rw [cast_leastFull]
      by_contra hge
      have : (2 : ℚ) ^ 52 * 2 ^ x.exponent ≤ (x.mantissa - gapBelow x) * 2 ^ x.exponent :=
        mul_le_mul_of_nonneg_right (by linarith) hpow.le
      linarith
    have hle : x.mantissa < leastFull + 1 := by exact_mod_cast hupper
    have hfull := x.fits.2.2.2
    omega
  refine ⟨hmant, ?_⟩
  by_contra hne
  have hquarter : (2 : ℚ) ^ exponentOf num den ≤ 2 ^ (x.exponent - 2) :=
    zpow_le_zpow_right₀ one_le_two (by omega)
  rw [zpow_sub₀ two_ne_zero] at hquarter
  have hlow := h.low
  have hgap := gapBelow_le x
  rw [hmant, cast_leastFull] at hlow
  have : ((2 : ℚ) ^ 52 - 1 / 2) * 2 ^ x.exponent ≤ (2 ^ 52 - gapBelow x) * 2 ^ x.exponent :=
    mul_le_mul_of_nonneg_right (by linarith) hpow.le
  norm_num at hquarter
  linarith

/-- A quotient that is near a positive double is rounded to it. -/
theorem ofRatio_of_near (hx : 0 < x.mantissa) (hden : 0 < den) (h : Near x (num / den)) :
    ofRatio x.negative num den = some x := by
  have hnum : 0 < num := by
    rcases Nat.eq_zero_or_pos num with rfl | hpos
    · have := h.pos hx
      simp at this
    · exact hpos
  have hscaled : ∀ e : Int, ((num * scaleDown e : Nat) : ℚ) / (den * scaleUp e : Nat) =
      num / den / 2 ^ e := fun e => by
    rw [← ratio_scaled hden]
    push_cast
    rfl
  have hunit : ∀ e : Int, 0 < den * scaleUp e := fun e => Nat.mul_pos hden (scaleUp_pos e)
  unfold ofRatio
  rw [if_neg hnum.ne']
  simp only
  rcases (exponentOf_le hden hnum h).eq_or_lt with heq | hlt
  · rw [heq, nearest_of_abs_le (hunit _)]
    · exact assemble_fits x
    · rw [hscaled]
      have := h.div_low
      have := gapBelow_le x
      linarith
    · rw [hscaled]
      exact h.div_high
    · intro hodd
      obtain ⟨hl, hh⟩ := h.div_odd hodd
      rw [hscaled]
      have := gapBelow_le x
      exact ⟨by linarith, hh⟩
  · obtain ⟨hmant, hexp⟩ := exponentOf_lt hden hnum h hlt
    obtain ⟨hleast, hhigh, -⟩ := exponentOf_spec hnum hden
    have hgap : gapBelow x = 1 / 4 := if_pos ⟨hmant, by omega⟩
    have hlow := h.div_low
    have hhalf : (num / den : ℚ) / 2 ^ (x.exponent - 1) = num / den / 2 ^ x.exponent * 2 := by
      rw [zpow_sub_one₀ two_ne_zero]
      field_simp
    rw [hgap, hmant, cast_leastFull] at hlow
    rw [hexp, ← div_lt_iff₀ (by positivity), hhalf] at hhigh
    rw [hexp, nearest_of_abs_le (M := 2 * leastFull) (hunit _)]
    · exact assemble_carry hmant
    · rw [hscaled, hhalf]
      push_cast
      linarith
    · rw [hscaled, hhalf]
      push_cast
      linarith
    · intro hodd
      omega

end

/-! ## Decimals -/

/-- As many digits as the power of ten below the number counts, and one more. -/
theorem length_toDigits {n : Nat} (h : n ≠ 0) :
    ∃ k, (Nat.toDigits 10 n).length = k + 1 ∧ 10 ^ k ≤ n ∧ n < 10 ^ (k + 1) := by
  obtain ⟨k, hk⟩ := Nat.exists_eq_succ_of_ne_zero
    (Nat.ne_of_gt (Nat.length_toDigits_pos (b := 10) (n := n)))
  refine ⟨k, hk, ?_, (Nat.length_toDigits_le_iff (by decide) (Nat.succ_pos k)).1 hk.le⟩
  rcases Nat.eq_zero_or_pos k with rfl | hpos
  · exact Nat.one_le_iff_ne_zero.2 h
  · by_contra hlt
    have := (Nat.length_toDigits_le_iff (by decide) hpos).2 (Nat.lt_of_not_le hlt)
    omega

theorem cast_scaled (digits : Nat) (e : Int) :
    ((digits * Nat.pow 10 e.toNat : Nat) : ℚ) / (Nat.pow 10 (-e).toNat : Nat) =
      digits * 10 ^ e := by
  simp only [Nat.pow_eq, Nat.cast_mul, Nat.cast_pow, Nat.cast_ofNat]
  rcases le_total 0 e with h | h
  · obtain ⟨n, rfl⟩ := Int.eq_ofNat_of_zero_le h
    simp
  · obtain ⟨n, hn⟩ := Int.eq_ofNat_of_zero_le (neg_nonneg.2 h)
    obtain rfl : e = -n := by omega
    simp [div_eq_mul_inv]

theorem least_bound : (10 : ℚ) ^ (-324 : Int) ≤ 1 / 2 * 2 ^ (-1074 : Int) := by
  have hnat : 2 ^ 1075 ≤ 10 ^ 324 := by decide +kernel
  have hle : (2 : ℚ) ^ 1075 ≤ 10 ^ 324 := by exact_mod_cast hnat
  calc (10 : ℚ) ^ (-324 : Int) = ((10 : ℚ) ^ 324)⁻¹ := by rw [zpow_neg, zpow_ofNat]
    _ ≤ ((2 : ℚ) ^ 1075)⁻¹ := inv_anti₀ (by positivity) hle
    _ = 1 / 2 * 2 ^ (-1074 : Int) := by
      rw [zpow_neg, zpow_ofNat, pow_succ, mul_inv, one_div, mul_comm]

theorem most_bound : (2 : ℚ) ^ 53 * 2 ^ (971 : Int) < 10 ^ (309 : Int) := by
  have hnat : 2 ^ 53 * 2 ^ 971 < 10 ^ 309 := by decide +kernel
  rw [zpow_ofNat, zpow_ofNat]
  exact_mod_cast hnat

/-- Every double that is not zero lies well within the range of decimals that are looked at. -/
theorem Near.range {x : Binary64} {v : ℚ} (hx : 0 < x.mantissa) (h : Near x v) :
    (10 : ℚ) ^ (-324 : Int) ≤ v ∧ v < 10 ^ (309 : Int) := by
  obtain ⟨hm, hleast, hmost, -⟩ := x.fits
  have hone : (1 : ℚ) ≤ x.mantissa := by exact_mod_cast hx
  have hbits : (x.mantissa : ℚ) + 1 ≤ 2 ^ 53 := by exact_mod_cast hm
  have hgap := gapBelow_le x
  have hlow : (2 : ℚ) ^ (-1074 : Int) ≤ 2 ^ x.exponent := zpow_le_zpow_right₀ one_le_two hleast
  have hhigh : (2 : ℚ) ^ x.exponent ≤ 2 ^ (971 : Int) := zpow_le_zpow_right₀ one_le_two hmost
  have hpow : (0 : ℚ) < 2 ^ x.exponent := by positivity
  constructor
  · calc (10 : ℚ) ^ (-324 : Int) ≤ 1 / 2 * 2 ^ (-1074 : Int) := least_bound
      _ ≤ 1 / 2 * 2 ^ x.exponent := by linarith
      _ ≤ (x.mantissa - gapBelow x) * 2 ^ x.exponent :=
        mul_le_mul_of_nonneg_right (by linarith) hpow.le
      _ ≤ v := h.low
  · calc v ≤ (x.mantissa + 1 / 2) * 2 ^ x.exponent := h.high
      _ ≤ 2 ^ 53 * 2 ^ x.exponent := mul_le_mul_of_nonneg_right (by linarith) hpow.le
      _ ≤ 2 ^ 53 * 2 ^ (971 : Int) := by linarith
      _ < 10 ^ (309 : Int) := most_bound

/-- A decimal that is near a positive double is read as it. -/
theorem ofDecimal_of_near {x : Binary64} {digits : Nat} {e : Int} (hx : 0 < x.mantissa)
    (h : Near x (digits * 10 ^ e)) : ofDecimal x.negative digits e = some x := by
  have hdigits : digits ≠ 0 := by
    rintro rfl
    have := h.pos hx
    simp at this
  obtain ⟨k, hlength, hleast, hbound⟩ := length_toDigits hdigits
  obtain ⟨hlow, hhigh⟩ := h.range hx
  have hpow : (0 : ℚ) < 10 ^ e := by positivity
  have hleastq : (10 : ℚ) ^ (k : Int) ≤ digits := by exact_mod_cast hleast
  have hboundq : (digits : ℚ) < 10 ^ ((k : Int) + 1) := by exact_mod_cast hbound
  have hbelow : (k : Int) + e < 309 := by
    refine (zpow_lt_zpow_iff_right₀ (by norm_num : (1 : ℚ) < 10)).1 ?_
    rw [zpow_add₀ (by norm_num)]
    exact (mul_le_mul_of_nonneg_right hleastq hpow.le).trans_lt hhigh
  have habove : -324 < (k : Int) + 1 + e := by
    refine (zpow_lt_zpow_iff_right₀ (by norm_num : (1 : ℚ) < 10)).1 ?_
    rw [zpow_add₀ (by norm_num)]
    exact hlow.trans_lt (mul_lt_mul_of_pos_right hboundq hpow)
  unfold ofDecimal
  rw [if_neg hdigits, hlength]
  simp only
  rw [if_neg (by omega), if_neg (by omega)]
  refine ofRatio_of_near hx (Nat.pow_pos (by decide)) ?_
  rw [cast_scaled]
  exact h

end GraphQL.Binary64
