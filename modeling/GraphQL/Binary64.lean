/-!
# Finite double-precision numbers

A `Binary64` is a finite IEEE 754 double, kept as the exact number `± mantissa · 2 ^ exponent`.
Every operation is exact arithmetic on natural numbers and integers: `ofRatio` rounds a quotient
to the nearest double, ties to even, and finds none when that is infinite.
-/

namespace GraphQL

/-- The least mantissa of 53 bits, `2 ^ 52`. -/
abbrev Binary64.leastFull : Nat :=
  0x10000000000000

/-- Which mantissas and exponents are those of a double: 53 bits, and fewer only at the least
exponent. -/
def Binary64.Fits (mantissa : Nat) (exponent : Int) : Prop :=
  mantissa < 2 * leastFull ∧ -1074 ≤ exponent ∧ exponent ≤ 971 ∧
    (mantissa < leastFull → exponent = -1074)

instance (mantissa : Nat) (exponent : Int) : Decidable (Binary64.Fits mantissa exponent) := by
  unfold Binary64.Fits
  infer_instance

/-- The finite double `± mantissa · 2 ^ exponent`; zero has two signs. -/
structure Binary64 where
  negative : Bool
  mantissa : Nat
  exponent : Int
  fits : Binary64.Fits mantissa exponent
  deriving DecidableEq

namespace Binary64

/-- The power of two that a positive exponent stands for; one for any other exponent. -/
def scaleUp (exponent : Int) : Nat :=
  Nat.pow 2 exponent.toNat

/-- The power of two that a negative exponent divides by; one for any other exponent. -/
def scaleDown (exponent : Int) : Nat :=
  Nat.pow 2 (-exponent).toNat

/-- Zero of either sign. -/
def zero (negative : Bool) : Binary64 :=
  ⟨negative, 0, -1074, by decide⟩

def isZero (x : Binary64) : Bool :=
  x.mantissa = 0

/-- Equality of the numbers denoted: the two zeros are one number. -/
def same (x y : Binary64) : Bool :=
  x = y || (x.isZero && y.isZero)

/-- The quotient rounded to the nearest integer, a half going to the even one. -/
def nearest (num den : Nat) : Nat :=
  let q := num / den
  let r := num % den
  if 2 * r < den then q
  else if den < 2 * r then q + 1
  else q + q % 2

/-- The double of a mantissa that may have one bit too many after rounding. -/
def assemble (negative : Bool) (mantissa : Nat) (exponent : Int) : Option Binary64 :=
  if h : Fits mantissa exponent then some ⟨negative, mantissa, exponent, h⟩
  else if mantissa = 2 * leastFull then
    if h : Fits leastFull (exponent + 1) then some ⟨negative, leastFull, exponent + 1, h⟩
    else none
  else none

/-- The exponent at which `num / den` has a 53-bit integral part, but not below the least one. -/
def exponentOf (num den : Nat) : Int :=
  let e : Int := (Nat.log2 num : Int) - (Nat.log2 den : Int) - 53
  let short := num * scaleDown e / (den * scaleUp e) < 2 * leastFull
  max (-1074) (if short then e else e + 1)

/-- The double closest to `± num / den`, the one with an even mantissa when two are equally
close; none when it would be infinite. The denominator is not zero. -/
def ofRatio (negative : Bool) (num den : Nat) : Option Binary64 :=
  if num = 0 then some (zero negative)
  else
    let e := exponentOf num den
    assemble negative (nearest (num * scaleDown e) (den * scaleUp e)) e

/-- The double closest to `± digits · 10 ^ exponent`. Numbers beyond the range are recognised by
their size, before any power of ten is formed. -/
def ofDecimal (negative : Bool) (digits : Nat) (exponent : Int) : Option Binary64 :=
  if digits = 0 then some (zero negative)
  else
    let magnitude := ((Nat.toDigits 10 digits).length : Int) + exponent
    if 310 < magnitude then none
    else if magnitude < -330 then some (zero negative)
    else
      ofRatio negative (digits * Nat.pow 10 exponent.toNat) (Nat.pow 10 (-exponent).toNat)

/-- The integer a double is, if it has no fractional part. -/
def toInt? (x : Binary64) : Option Int :=
  let magnitude : Option Nat :=
    if 0 ≤ x.exponent then some (x.mantissa * scaleUp x.exponent)
    else
      let unit := scaleDown x.exponent
      if x.mantissa % unit = 0 then some (x.mantissa / unit) else none
  magnitude.map fun n => if x.negative then -(n : Int) else (n : Int)

end Binary64

end GraphQL
