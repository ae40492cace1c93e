import GraphQL.Binary64

/-!
# The shortest decimal of a double

`Binary64.shortest` finds the fewest decimal digits that read back as the given double and, among
those, the ones closest to it. For each number of digits from one to seventeen it looks at the
two neighbours of the double on that decimal grid; the first grid with a neighbour inside the
interval of reals that round to the double wins.
-/

namespace GraphQL.Binary64

/-- The power of ten that the first significant digit of `num / den` counts. -/
def decimalExponent (num den : Nat) : Int :=
  if den ≤ num then ((Nat.toDigits 10 (num / den)).length : Int) - 1
  else
    let d := (Nat.toDigits 10 (den / num)).length
    if den ≤ num * Nat.pow 10 (d - 1) then 1 - (d : Int) else -(d : Int)

/-- The reals that round to one double, as a closed or open interval over one denominator. -/
structure Neighbourhood where
  low : Nat
  centre : Nat
  high : Nat
  den : Nat
  closed : Bool

/-- The reals that round to a positive double: halfway to its neighbours, the ends included when
the mantissa is even. Below a power of two the next double is half as far away. -/
def neighbourhood (x : Binary64) : Neighbourhood :=
  let up := scaleUp (x.exponent - 2)
  let narrow := x.mantissa = leastFull ∧ -1074 < x.exponent
  { low := (4 * x.mantissa - (if narrow then 1 else 2)) * up
    centre := 4 * x.mantissa * up
    high := (4 * x.mantissa + 2) * up
    den := scaleDown (x.exponent - 2)
    closed := x.mantissa % 2 = 0 }

namespace Neighbourhood

/-- The same interval counted in units of `10 ^ scale`. -/
def inUnits (n : Neighbourhood) (scale : Int) : Neighbourhood :=
  let down := Nat.pow 10 (-scale).toNat
  { n with
    low := n.low * down
    centre := n.centre * down
    high := n.high * down
    den := n.den * Nat.pow 10 scale.toNat }

/-- Whether an integer lies in the interval. -/
def covers (n : Neighbourhood) (k : Nat) : Bool :=
  if n.closed then n.low ≤ k * n.den && k * n.den ≤ n.high
  else n.low < k * n.den && k * n.den < n.high

/-- The integer of the interval that is closest to the centre, of the two around it. -/
def integer? (n : Neighbourhood) : Option Nat :=
  let below := n.centre / n.den
  match n.covers below, n.covers (below + 1) with
  | true, true => some (nearest n.centre n.den)
  | true, false => some below
  | false, true => some (below + 1)
  | false, false => none

end Neighbourhood

/-- Takes trailing zeros off the digits, raising the scale by one for each. -/
def trimZeros : Nat → Nat → Int → Nat × Int
  | 0, digits, scale => (digits, scale)
  | fuel + 1, digits, scale =>
    if digits % 10 = 0 then trimZeros fuel (digits / 10) (scale + 1) else (digits, scale)

/-- Digits and scale of the shortest decimal `digits · 10 ^ scale` that rounds to the magnitude of
a double that is not zero. -/
def shortest (x : Binary64) : Nat × Int :=
  let n := x.neighbourhood
  let first := decimalExponent n.centre n.den
  let hit := (List.range 17).findSome? fun (more : Nat) =>
    let scale := first - Int.ofNat more
    (n.inUnits scale).integer?.map fun digits => trimZeros 17 digits scale
  hit.getD (x.mantissa, x.exponent)

end GraphQL.Binary64
