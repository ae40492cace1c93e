import GraphQL.Proofs.Binary64.Shortest
import GraphQL.Proofs.Number.Numeral

/-!
# The text of a double

A double is written as a numeral with a fraction or an exponent, and this numeral is read as the
double (`Binary64.exists_numeral`). Digits and scale may be laid out in three ways; each of them
denotes the same decimal.
-/

namespace GraphQL

namespace Text

theorem decimalValue_append (n : Nat) (cs ds : List Char) :
    decimalValue n (cs ++ ds) = decimalValue (decimalValue n cs) ds := by
  induction cs generalizing n with
  | nil => rfl
  | cons c cs ih => exact ih _

theorem decimalValue_zeros (n k : Nat) : decimalValue n (List.replicate k '0') = n * 10 ^ k := by
  induction k generalizing n with
  | zero => simp [decimalValue]
  | succ k ih =>
    rw [List.replicate_succ, decimalValue, ih, pow_succ]
    show (10 * n + 0) * 10 ^ k = _
    ring

theorem all_isDigit_zeros (k : Nat) : (List.replicate k '0').all isDigit = true := by
  rw [List.all_eq_true]
  intro c hc
  rw [List.eq_of_mem_replicate hc]
  rfl

end Text

namespace Numeral

/-- The power of ten that the last digit of a numeral counts. -/
def scale (n : Numeral) : Int :=
  (n.exponent.elim 0 fun e => if e.1 then -(Text.decimalValue 0 e.2 : Int)
    else Text.decimalValue 0 e.2) - ((n.fraction.getD []).length : Int)

theorem toBinary64?_eq (n : Numeral) : n.toBinary64? =
    Binary64.ofDecimal n.negative (Text.decimalValue 0 (n.whole ++ n.fraction.getD [])) n.scale := by
  unfold toBinary64? scale
  rcases n.exponent with _ | ⟨down, digits⟩ <;> rfl

/-- An exponent as numerals have it. -/
def signed (e : Int) : Bool × List Char :=
  (decide (e < 0), Text.decimal e.natAbs)

theorem exponentChars_signed (e : Int) : exponentChars (signed e) = Number.exponentChars e := by
  unfold exponentChars signed Number.exponentChars
  simp only [decide_eq_true_eq]

theorem scale_signed (negative : Bool) (whole : List Char) (fraction : Option (List Char)) (e : Int) :
    (⟨negative, whole, fraction, some (signed e)⟩ : Numeral).scale =
      e - ((fraction.getD []).length : Int) := by
  unfold scale signed
  simp only [Option.elim_some, Text.decimalValue_decimal, decide_eq_true_eq]
  split <;> omega

/-- A numeral that lays out some digits before a scale, and is no integer. -/
structure Shows (n : Numeral) (digits : List Char) (scale : Int) : Prop where
  written : n.Written
  broken : n.isWhole = false
  value : (Text.decimalValue 0 (n.whole ++ n.fraction.getD []) : ℚ) * 10 ^ n.scale =
    Text.decimalValue 0 digits * 10 ^ scale
  chars : n.chars = (if n.negative then ['-'] else []) ++ Number.decimalChars digits scale

section

variable {d : Char} {ds : List Char} {scale : Int}

/-- Digits with a first one that is not zero. -/
structure Significant (d : Char) (ds : List Char) : Prop where
  all : (d :: ds).all Text.isDigit = true
  first : d ≠ '0'

namespace Significant

variable (h : Significant d ds)
include h

theorem digits : Digits (d :: ds) :=
  ⟨nofun, h.all⟩

theorem single : Digits [d] := by
  refine ⟨nofun, ?_⟩
  rw [List.all_cons, List.all_nil, Bool.and_true]
  exact List.all_eq_true.1 h.all d (List.mem_cons_self ..)

/-- One digit before the point, and an exponent. -/
theorem shows_exponent (negative : Bool)
    (hout : ((d :: ds).length : Int) + scale - 1 < Number.layout.least ∨
      Number.layout.bound ≤ ((d :: ds).length : Int) + scale - 1) :
    ∃ n : Numeral, n.negative = negative ∧ n.Shows (d :: ds) scale := by
  have hlength : ((d :: ds).length : Int) + scale - 1 = ds.length + scale := by
    rw [List.length_cons]
    omega
  rw [hlength] at hout
  have hchars : Number.decimalChars (d :: ds) scale =
      d :: (if ds.isEmpty then [] else '.' :: ds) ++ Number.exponentChars (ds.length + scale) := by
    unfold Number.decimalChars
    rw [hlength, if_pos (by simpa using hout)]
    cases ds <;> rfl
  have hwhole : [d] = ['0'] ∨ ∀ x ∈ [d].head?, x ≠ '0' := by
    refine .inr ?_
    rintro _ ⟨⟩
    exact h.first
  have hexponent : ∀ x ∈ some (signed (ds.length + scale)), Digits x.2 := by
    rintro _ ⟨⟩
    exact digits_decimal _
  cases ds with
  | nil =>
    refine ⟨⟨negative, [d], none, some (signed (([] : List Char).length + scale))⟩, rfl,
      ⟨h.single, hwhole, by simp, hexponent⟩, rfl, ?_, ?_⟩
    · rw [scale_signed]
      simp
    · simp only [Numeral.chars, hchars, Option.elim_none, Option.elim_some, List.append_nil,
        exponentChars_signed]
      cases negative <;> simp
  | cons d' ds' =>
    refine ⟨⟨negative, [d], some (d' :: ds'), some (signed ((d' :: ds').length + scale))⟩, rfl,
      ⟨h.single, hwhole, ?_, hexponent⟩, rfl, ?_, ?_⟩
    · rintro _ ⟨⟩
      have hall := h.all
      rw [List.all_cons, Bool.and_eq_true] at hall
      exact ⟨by simp, hall.2⟩
    · rw [scale_signed, Option.getD_some, add_sub_cancel_left]
      rfl
    · simp only [Numeral.chars, hchars, Option.elim_some, exponentChars_signed]
      cases negative <;> simp

/-- A zero before the point, and zeros after it. -/
theorem shows_small (negative : Bool)
    (hleast : Number.layout.least ≤ ((d :: ds).length : Int) + scale - 1)
    (hneg : ((d :: ds).length : Int) + scale - 1 < 0) :
    ∃ n : Numeral, n.negative = negative ∧ n.Shows (d :: ds) scale := by
  have hchars : Number.decimalChars (d :: ds) scale = '0' :: '.' ::
      (List.replicate ((-(((d :: ds).length : Int) + scale - 1)).toNat - 1) '0' ++ (d :: ds)) := by
    have hbound : (0 : Int) < Number.layout.bound := by decide
    unfold Number.decimalChars
    rw [if_neg (by simp only [Bool.or_eq_true, decide_eq_true_eq]; omega), if_pos hneg]
    rfl
  generalize hk : (-(((d :: ds).length : Int) + scale - 1)).toNat - 1 = k at hchars
  refine ⟨⟨negative, ['0'], some (List.replicate k '0' ++ (d :: ds)), none⟩, rfl,
    ⟨⟨nofun, rfl⟩, .inl rfl, ?_, nofun⟩, rfl, ?_, ?_⟩
  · rintro _ ⟨⟩
    refine ⟨by simp, ?_⟩
    rw [List.all_append, Text.all_isDigit_zeros, h.all]
    rfl
  · have hscale : (0 : Int) - ((List.replicate k '0' ++ (d :: ds)).length : Int) = scale := by
      rw [List.length_append, List.length_replicate]
      omega
    simp only [Numeral.scale, Option.elim_none, Option.getD_some, hscale]
    rw [List.singleton_append, Text.decimalValue, Text.decimalValue_append, Text.decimalValue_zeros]
    simp [Text.digitValue]
  · simp only [Numeral.chars, hchars, Option.elim_some, Option.elim_none]
    cases negative <;> simp

/-- All digits before the point, or some of them. -/
theorem shows_plain (negative : Bool) (hpos : 0 ≤ ((d :: ds).length : Int) + scale - 1)
    (hbound : ((d :: ds).length : Int) + scale - 1 < Number.layout.bound) :
    ∃ n : Numeral, n.negative = negative ∧ n.Shows (d :: ds) scale := by
  obtain ⟨w, hw⟩ := Int.eq_ofNat_of_zero_le hpos
  have hchars : Number.decimalChars (d :: ds) scale = (d :: ds).take (w + 1) ++
      List.replicate (w + 1 - (d :: ds).length) '0' ++ '.' ::
        (if (d :: ds).length ≤ w + 1 then ['0'] else (d :: ds).drop (w + 1)) := by
    have hleast : Number.layout.least < 0 := by decide
    unfold Number.decimalChars
    rw [if_neg (by simp only [Bool.or_eq_true, decide_eq_true_eq]; omega), if_neg (by omega), hw]
    rfl
  have hall := List.all_eq_true.1 h.all
  by_cases hle : (d :: ds).length ≤ w + 1
  · generalize hk : w + 1 - (d :: ds).length = k at hchars
    rw [if_pos hle, List.take_of_length_le hle] at hchars
    refine ⟨⟨negative, (d :: ds) ++ List.replicate k '0', some ['0'], none⟩, rfl,
      ⟨⟨by simp, ?_⟩, ?_, ?_, by simp⟩, rfl, ?_, ?_⟩
    · rw [List.all_append, Text.all_isDigit_zeros, h.all]
      rfl
    · refine .inr ?_
      rintro _ ⟨⟩
      exact h.first
    · rintro _ ⟨⟩
      exact ⟨by simp, rfl⟩
    · have hscale : scale = k := by omega
      simp only [Numeral.scale, Option.elim_none, Option.getD_some, List.length_singleton]
      rw [Text.decimalValue_append, Text.decimalValue_append, Text.decimalValue_zeros, hscale]
      show ((10 * (Text.decimalValue 0 (d :: ds) * 10 ^ k) + 0 : Nat) : ℚ) * 10 ^ (-1 : Int) = _
      push_cast
      rw [zpow_natCast, zpow_neg_one]
      ring
    · simp only [Numeral.chars, hchars, Option.elim_some, Option.elim_none]
      cases negative <;> simp
  · rw [if_neg hle, Nat.sub_eq_zero_of_le (by omega), List.replicate_zero, List.append_nil] at hchars
    refine ⟨⟨negative, (d :: ds).take (w + 1), some ((d :: ds).drop (w + 1)), none⟩, rfl,
      ⟨⟨by simp, ?_⟩, ?_, ?_, by simp⟩, rfl, ?_, ?_⟩
    · exact List.all_eq_true.2 fun x hx => hall x (List.mem_of_mem_take hx)
    · refine .inr ?_
      rintro _ ⟨⟩
      exact h.first
    · rintro _ ⟨⟩
      refine ⟨?_, List.all_eq_true.2 fun x hx => hall x (List.mem_of_mem_drop hx)⟩
      rw [ne_eq, List.drop_eq_nil_iff]
      omega
    · have hscale : (0 : Int) - (((d :: ds).drop (w + 1)).length : Int) = scale := by
        rw [List.length_drop]
        omega
      simp only [Numeral.scale, Option.elim_none, Option.getD_some, hscale, List.take_append_drop]
    · simp only [Numeral.chars, hchars, Option.elim_some, Option.elim_none]
      cases negative <;> simp

/-- Digits before a scale are laid out as some numeral. -/
theorem exists_shows (negative : Bool) (scale : Int) :
    ∃ n : Numeral, n.negative = negative ∧ n.Shows (d :: ds) scale := by
  by_cases hleast : Number.layout.least ≤ ((d :: ds).length : Int) + scale - 1
  · by_cases hneg : ((d :: ds).length : Int) + scale - 1 < 0
    · exact h.shows_small negative hleast hneg
    · by_cases hbound : ((d :: ds).length : Int) + scale - 1 < Number.layout.bound
      · exact h.shows_plain negative (by omega) hbound
      · exact h.shows_exponent negative (.inr (by omega))
  · exact h.shows_exponent negative (.inl (by omega))

end Significant

end

end Numeral

/-- A double of mantissa zero is one of the two zeros. -/
theorem Binary64.eq_zero {x : Binary64} (h : x.mantissa = 0) : x = Binary64.zero x.negative := by
  obtain ⟨negative, mantissa, exponent, hfits⟩ := x
  obtain rfl : mantissa = 0 := h
  obtain rfl : exponent = -1074 := hfits.2.2.2 (by decide)
  rfl

/-- The text of a double is a numeral that is read as this double, and not as an integer. -/
theorem Binary64.exists_numeral (x : Binary64) : ∃ n : Numeral, n.Written ∧ n.isWhole = false ∧
    n.chars = Number.doubleChars x ∧ n.toBinary64? = some x := by
  by_cases hx : x.mantissa = 0
  · refine ⟨⟨x.negative, ['0'], some ['0'], none⟩, ⟨⟨nofun, rfl⟩, .inl rfl, ?_, nofun⟩, rfl, ?_, ?_⟩
    · rintro _ ⟨⟩
      exact ⟨nofun, rfl⟩
    · have hzero : x.isZero = true := decide_eq_true hx
      simp only [Number.doubleChars, Numeral.chars, hzero, if_true, Option.elim_some,
        Option.elim_none]
      cases x.negative <;> rfl
    · rw [Numeral.toBinary64?_eq]
      exact congrArg some (Binary64.eq_zero hx).symm
  · have hpos := Nat.pos_of_ne_zero hx
    have hnear := Binary64.near_shortest hpos
    have hdigits : x.shortest.1 ≠ 0 := by
      intro h
      have := hnear.pos hpos
      rw [h] at this
      simp at this
    obtain ⟨d, ds, hd, hfirst⟩ := Text.decimal_head hdigits
    have hsig : Numeral.Significant d ds := ⟨hd ▸ Text.all_isDigit_decimal _, hfirst⟩
    obtain ⟨n, hnegative, hn⟩ := hsig.exists_shows x.negative x.shortest.2
    refine ⟨n, hn.written, hn.broken, ?_, ?_⟩
    · have hzero : x.isZero = false := decide_eq_false hx
      rw [hn.chars, hnegative]
      simp only [Number.doubleChars, hzero, Bool.false_eq_true, if_false, hd]
      cases x.negative <;> rfl
    · rw [Numeral.toBinary64?_eq, hnegative]
      refine Binary64.ofDecimal_of_near hpos ?_
      rw [hn.value, ← hd, Text.decimalValue_decimal]
      exact hnear

end GraphQL
