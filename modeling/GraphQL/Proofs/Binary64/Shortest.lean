import GraphQL.Binary64.Shortest
import GraphQL.Proofs.Binary64.Rounding

/-!
# The shortest decimal reads back

The decimal that `Binary64.shortest` gives lies among the numbers that round to the double
(`near_shortest`). Seventeen digits are always enough: a unit of the seventeenth digit is less than
the distance between two doubles, so one of the two neighbours on its grid is near.
-/

namespace GraphQL.Binary64

/-! ## The interval -/

namespace Neighbourhood

variable {n : Neighbourhood} {a k : Nat}

/-- Cross-multiplied comparisons with a multiple of a power of ten. -/
theorem le_inUnits (hden : 0 < n.den) (scale : Int) :
    a * Nat.pow 10 (-scale).toNat ≤ k * (n.inUnits scale).den ↔ (a / n.den : ℚ) ≤ k * 10 ^ scale := by
  have hd : (0 : ℚ) < n.den := by exact_mod_cast hden
  have hp : (0 : ℚ) < (Nat.pow 10 (-scale).toNat : Nat) := by
    exact_mod_cast Nat.pow_pos (by decide)
  rw [← cast_scaled, div_le_div_iff₀ hd hp, ← Nat.cast_mul, ← Nat.cast_mul, Nat.cast_le]
  show _ ≤ k * (n.den * Nat.pow 10 scale.toNat) ↔ _
  rw [show k * (n.den * Nat.pow 10 scale.toNat) = k * Nat.pow 10 scale.toNat * n.den by ring]

theorem inUnits_le (hden : 0 < n.den) (scale : Int) :
    k * (n.inUnits scale).den ≤ a * Nat.pow 10 (-scale).toNat ↔ (k * 10 ^ scale : ℚ) ≤ a / n.den := by
  have hd : (0 : ℚ) < n.den := by exact_mod_cast hden
  have hp : (0 : ℚ) < (Nat.pow 10 (-scale).toNat : Nat) := by
    exact_mod_cast Nat.pow_pos (by decide)
  rw [← cast_scaled, div_le_div_iff₀ hp hd, ← Nat.cast_mul, ← Nat.cast_mul, Nat.cast_le]
  show k * (n.den * Nat.pow 10 scale.toNat) ≤ _ ↔ _
  rw [show k * (n.den * Nat.pow 10 scale.toNat) = k * Nat.pow 10 scale.toNat * n.den by ring]

theorem covers_of_lt (hlow : n.low < k * n.den) (hhigh : k * n.den < n.high) : n.covers k = true := by
  unfold covers
  split <;> simp only [Bool.and_eq_true, decide_eq_true_eq]
  · exact ⟨hlow.le, hhigh.le⟩
  · exact ⟨hlow, hhigh⟩

theorem covers_of_integer? (h : n.integer? = some k) : n.covers k = true := by
  unfold integer? at h
  simp only at h
  split at h
  · next hbelow habove =>
    cases h
    unfold nearest
    simp only
    split
    · exact hbelow
    · split
      · exact habove
      · rcases Nat.mod_two_eq_zero_or_one (n.centre / n.den) with hz | ho
        · rw [hz]
          exact hbelow
        · rw [ho]
          exact habove
  · next hbelow _ =>
    cases h
    exact hbelow
  · next _ habove =>
    cases h
    exact habove
  · cases h

theorem exists_integer? (h : n.covers (n.centre / n.den) = true ∨
    n.covers (n.centre / n.den + 1) = true) : ∃ k, n.integer? = some k := by
  unfold integer?
  rcases h with h | h <;> simp only [h] <;> split <;> first | exact ⟨_, rfl⟩ | simp_all

end Neighbourhood

section

variable {x : Binary64} {k : Nat} {scale : Int}

theorem quarter (x : Binary64) :
    ((scaleUp (x.exponent - 2) : Nat) : ℚ) / scaleDown (x.exponent - 2) = 2 ^ x.exponent / 4 := by
  have hd : (scaleDown (x.exponent - 2) : ℚ) ≠ 0 := by exact_mod_cast (scaleDown_pos _).ne'
  rw [scaleUp_eq, mul_div_assoc, div_self hd, mul_one, zpow_sub₀ two_ne_zero]
  norm_num

theorem low_div_den (hx : 0 < x.mantissa) :
    (x.neighbourhood.low : ℚ) / x.neighbourhood.den = (x.mantissa - gapBelow x) * 2 ^ x.exponent := by
  unfold neighbourhood
  simp only
  rw [Nat.cast_mul, mul_div_assoc, quarter, Nat.cast_sub (by split <;> omega)]
  unfold gapBelow
  split
  · push_cast
    ring
  · push_cast
    ring

theorem centre_div_den (x : Binary64) :
    (x.neighbourhood.centre : ℚ) / x.neighbourhood.den = x.mantissa * 2 ^ x.exponent := by
  unfold neighbourhood
  simp only
  rw [Nat.cast_mul, mul_div_assoc, quarter]
  push_cast
  ring

theorem high_div_den (x : Binary64) :
    (x.neighbourhood.high : ℚ) / x.neighbourhood.den = (x.mantissa + 1 / 2) * 2 ^ x.exponent := by
  unfold neighbourhood
  simp only
  rw [Nat.cast_mul, mul_div_assoc, quarter]
  push_cast
  ring

theorem den_pos (x : Binary64) : 0 < x.neighbourhood.den :=
  scaleDown_pos _

/-- What the interval covers is near. -/
theorem near_of_covers (hx : 0 < x.mantissa)
    (h : (x.neighbourhood.inUnits scale).covers k = true) : Near x (k * 10 ^ scale) := by
  have hden := den_pos x
  have hlow := low_div_den hx
  have hhigh := high_div_den x
  unfold Neighbourhood.covers at h
  split at h <;> simp only [Bool.and_eq_true, decide_eq_true_eq] at h
  · next hclosed =>
    have heven : x.mantissa % 2 = 0 := of_decide_eq_true hclosed
    refine ⟨hlow ▸ (Neighbourhood.le_inUnits hden scale).1 h.1,
      hhigh ▸ (Neighbourhood.inUnits_le hden scale).1 h.2, fun hodd => ?_⟩
    omega
  · have hl : (x.mantissa - gapBelow x) * 2 ^ x.exponent < (k * 10 ^ scale : ℚ) := by
      rw [← hlow, ← not_le, ← Neighbourhood.inUnits_le hden, not_le]
      exact h.1
    have hh : (k * 10 ^ scale : ℚ) < (x.mantissa + 1 / 2) * 2 ^ x.exponent := by
      rw [← hhigh, ← not_le, ← Neighbourhood.le_inUnits hden, not_le]
      exact h.2
    exact ⟨hl.le, hh.le, fun _ => ⟨hl, hh⟩⟩

/-- What lies strictly between the ends is covered. -/
theorem covers_of_between (hx : 0 < x.mantissa)
    (hlow : (x.mantissa - gapBelow x) * 2 ^ x.exponent < (k * 10 ^ scale : ℚ))
    (hhigh : (k * 10 ^ scale : ℚ) < (x.mantissa + 1 / 2) * 2 ^ x.exponent) :
    (x.neighbourhood.inUnits scale).covers k = true := by
  have hden := den_pos x
  rw [← low_div_den hx, ← not_le, ← Neighbourhood.inUnits_le hden, not_le] at hlow
  rw [← high_div_den x, ← not_le, ← Neighbourhood.le_inUnits hden, not_le] at hhigh
  exact Neighbourhood.covers_of_lt hlow hhigh

/-- The two neighbours on a grid enclose the double. -/
theorem grid_encloses (x : Binary64) (scale : Int) :
    let b := (x.neighbourhood.inUnits scale).centre / (x.neighbourhood.inUnits scale).den
    (b * 10 ^ scale : ℚ) ≤ x.mantissa * 2 ^ x.exponent ∧
      (x.mantissa * 2 ^ x.exponent : ℚ) < (b + 1) * 10 ^ scale := by
  intro b
  have hden := den_pos x
  have hunit : 0 < (x.neighbourhood.inUnits scale).den :=
    Nat.mul_pos hden (Nat.pow_pos (by decide))
  rw [← centre_div_den x]
  constructor
  · exact (Neighbourhood.inUnits_le hden scale).1 (Nat.div_mul_le_self _ _)
  · rw [← Nat.cast_add_one, ← not_le, ← Neighbourhood.inUnits_le hden, not_le]
    exact (Nat.div_lt_iff_lt_mul hunit).1 (Nat.lt_succ_self b)

/-- A grid finer than the doubles has a number near the double next to it. -/
theorem exists_integer? (hx : 0 < x.mantissa)
    (hfine : (10 : ℚ) ^ scale * 10 ^ 16 ≤ x.mantissa * 2 ^ x.exponent) :
    ∃ k, (x.neighbourhood.inUnits scale).integer? = some k := by
  obtain ⟨hbelow, habove⟩ := grid_encloses x scale
  refine Neighbourhood.exists_integer? ?_
  generalize (x.neighbourhood.inUnits scale).centre / (x.neighbourhood.inUnits scale).den = b at *
  have hpow : (0 : ℚ) < 2 ^ x.exponent := by positivity
  have hbits : (x.mantissa : ℚ) < 2 ^ 53 := by exact_mod_cast x.fits.1
  have hgap : 0 < gapBelow x := by
    unfold gapBelow
    split <;> norm_num
  rcases lt_or_ge (((b : ℚ) + 1) * 10 ^ scale) ((x.mantissa + 1 / 2) * 2 ^ x.exponent) with hlt | hge
  · refine .inr (covers_of_between hx ?_ ?_)
    · push_cast
      nlinarith only [habove, hgap, hpow]
    · push_cast
      exact hlt
  · -- Here the upper neighbour is more than half a unit away, so that the lower one is closer.
    have hwide : gapBelow x = 1 / 2 := by
      unfold gapBelow
      rw [if_neg]
      rintro ⟨hfull, -⟩
      rw [hfull, cast_leastFull] at hge hbelow hfine
      nlinarith only [hge, hbelow, hfine, hpow]
    refine .inl (covers_of_between hx ?_ ?_)
    · rw [hwide]
      nlinarith only [hge, hfine, hbits, hpow]
    · nlinarith only [hbelow, hpow]

end

/-! ## The digits -/

/-- The first digit counts no more than the number. -/
theorem decimalExponent_le {num den : Nat} (hnum : 0 < num) (hden : 0 < den) :
    (10 : ℚ) ^ decimalExponent num den ≤ num / den := by
  have hd : (0 : ℚ) < den := by exact_mod_cast hden
  unfold decimalExponent
  split
  · next hle =>
    obtain ⟨k, hlength, hleast, -⟩ := length_toDigits (Nat.div_pos hle hden).ne'
    rw [hlength, Nat.cast_add_one, add_sub_cancel_right, zpow_natCast, le_div_iff₀ hd]
    exact_mod_cast (Nat.mul_le_mul_right den hleast).trans (Nat.div_mul_le_self num den)
  · next hlt =>
    obtain ⟨k, hlength, -, hbound⟩ := length_toDigits
      (Nat.div_pos (Nat.le_of_not_le hlt) hnum).ne'
    rw [hlength]
    simp only [Nat.add_sub_cancel, Nat.pow_eq]
    have hshift : ∀ j : Nat, (10 : ℚ) ^ (-(j : Int)) ≤ num / den ↔ den ≤ num * 10 ^ j := fun j => by
      rw [zpow_neg, zpow_natCast, inv_eq_one_div, div_le_div_iff₀ (by positivity) hd, one_mul]
      norm_cast
    split
    · next hexact =>
      rw [show (1 : Int) - ((k + 1 : Nat) : Int) = -(k : Int) by omega]
      exact (hshift k).2 hexact
    · refine (hshift (k + 1)).2 ?_
      rw [Nat.mul_comm]
      exact ((Nat.div_lt_iff_lt_mul hnum).1 hbound).le

/-- Zeros at the end only move into the scale. -/
theorem trimZeros_eq (fuel digits : Nat) (scale : Int) :
    ((trimZeros fuel digits scale).1 : ℚ) * 10 ^ (trimZeros fuel digits scale).2 =
      digits * 10 ^ scale := by
  induction fuel generalizing digits scale with
  | zero => rfl
  | succ fuel ih =>
    rw [trimZeros]
    split
    · next h =>
      have hdigits : (digits : ℚ) = (digits / 10 : Nat) * 10 := by
        exact_mod_cast (Nat.div_mul_cancel (Nat.dvd_of_mod_eq_zero h)).symm
      rw [ih, zpow_add_one₀ (by norm_num), hdigits]
      ring
    · rfl

/-- The shortest decimal of a double rounds to it. -/
theorem near_shortest {x : Binary64} (hx : 0 < x.mantissa) :
    Near x (x.shortest.1 * 10 ^ x.shortest.2) := by
  have hden := den_pos x
  have hcentre : 0 < x.neighbourhood.centre :=
    Nat.mul_pos (Nat.mul_pos (by decide) hx) (scaleUp_pos _)
  unfold shortest
  simp only
  generalize hhit : (List.range 17).findSome? _ = hit
  cases hit with
  | some d =>
    obtain ⟨more, -, hmore⟩ := List.exists_of_findSome?_eq_some hhit
    obtain ⟨k, hk, rfl⟩ := Option.map_eq_some_iff.1 hmore
    rw [Option.getD_some, trimZeros_eq]
    exact near_of_covers hx (Neighbourhood.covers_of_integer? hk)
  | none =>
    have hlast := List.findSome?_eq_none_iff.1 hhit 16 (by decide)
    have hfine : (10 : ℚ) ^ (decimalExponent x.neighbourhood.centre x.neighbourhood.den -
        Int.ofNat 16) * 10 ^ 16 ≤ x.mantissa * 2 ^ x.exponent := by
      rw [← centre_div_den, zpow_sub₀ (by norm_num)]
      refine le_trans (le_of_eq ?_) (decimalExponent_le hcentre hden)
      rw [show (10 : ℚ) ^ Int.ofNat 16 = 10 ^ 16 from zpow_natCast _ _]
      field_simp
    obtain ⟨k, hk⟩ := exists_integer? hx hfine
    rw [hk] at hlast
    cases hlast

end GraphQL.Binary64
