import GraphQL.Text.Class
import GraphQL.Binary64.Shortest

/-!
# Numbers

A number of a value or of JSON is an integer or a double, and the two are never equal. Integers
lie between `-2 ^ 63` and `2 ^ 64 - 1` wherever one is read. `Number.chars` writes a number in
the one form that documents and JSON share, `Numeral` reads one.
-/

namespace GraphQL

/-- An integer or a finite double. -/
inductive Number where
  | int (value : Int)
  | double (value : Binary64)
  deriving DecidableEq

namespace Number

/-- Equality of numbers: an integer never equals a double, and the two zero doubles are equal. -/
def same : Number → Number → Bool
  | int a, int b => a = b
  | double a, double b => a.same b
  | _, _ => false

/-- The integers that fit 64 bits with a sign. -/
def isInt64 (n : Int) : Bool :=
  -0x8000000000000000 ≤ n && n < 0x8000000000000000

/-- The integer, when it fits 64 bits with a sign. -/
def toInt64? : Number → Option Int
  | int n => if isInt64 n then some n else none
  | double _ => none

def isInt : Number → Bool
  | int _ => true
  | double _ => false

/-- Where positional notation of doubles ends: decimal exponents from `least` up to, but not
including, `bound` are written without an exponent. -/
structure Layout where
  least : Int
  bound : Int

/-- Doubles from `0.00001` up to below `1e+16` are written positionally. -/
def layout : Layout :=
  ⟨-5, 16⟩

/-- An exponent, always with its sign. -/
def exponentChars (e : Int) : List Char :=
  'e' :: (if e < 0 then '-' else '+') :: Text.decimal e.natAbs

/-- The decimal `digits · 10 ^ scale`, with a fractional part unless it has an exponent. -/
def decimalChars (digits : List Char) (scale : Int) : List Char :=
  let e := (digits.length : Int) + scale - 1
  if e < layout.least || layout.bound ≤ e then
    (match digits with
      | [] => []
      | [d] => [d]
      | d :: rest => d :: '.' :: rest) ++ exponentChars e
  else if e < 0 then
    '0' :: '.' :: List.replicate ((-e).toNat - 1) '0' ++ digits
  else
    let whole := e.toNat + 1
    digits.take whole ++ List.replicate (whole - digits.length) '0' ++ '.' ::
      (if digits.length ≤ whole then ['0'] else digits.drop whole)

/-- The text of a double: the shortest digits that read back as it. -/
def doubleChars (x : Binary64) : List Char :=
  let magnitude :=
    if x.isZero then ['0', '.', '0']
    else
      let (digits, scale) := x.shortest
      decimalChars (Text.decimal digits) scale
  if x.negative then '-' :: magnitude else magnitude

/-- The text of an integer. -/
def intChars (n : Int) : List Char :=
  if n < 0 then '-' :: Text.decimal n.natAbs else Text.decimal n.natAbs

/-- The text of a number, in documents and in JSON alike. -/
def chars : Number → List Char
  | int n => intChars n
  | double x => doubleChars x

def text (n : Number) : String :=
  String.ofList n.chars

end Number

/-- A numeral taken apart: sign, integral digits, digits of the fraction and exponent, the last
two absent when not written. -/
structure Numeral where
  negative : Bool
  whole : List Char
  fraction : Option (List Char)
  exponent : Option (Bool × List Char)

namespace Numeral

/-- Takes a sign off, giving whether it was a minus. -/
def sign : List Char → Bool × List Char
  | '-' :: cs => (true, cs)
  | '+' :: cs => (false, cs)
  | cs => (false, cs)

/-- Splits the text of a numeral. The caller has checked its form. -/
def ofChars (cs : List Char) : Numeral :=
  let (negative, cs) := sign cs
  let whole := cs.takeWhile Text.isDigit
  let cs := cs.dropWhile Text.isDigit
  let (fraction, cs) : Option (List Char) × List Char :=
    match cs with
    | '.' :: rest => (some (rest.takeWhile Text.isDigit), rest.dropWhile Text.isDigit)
    | _ => (none, cs)
  let exponent : Option (Bool × List Char) :=
    match cs with
    | [] => none
    | _ :: rest =>
      let (down, digits) := sign rest
      some (down, digits)
  ⟨negative, whole, fraction, exponent⟩

/-- Whether the numeral has neither a fraction nor an exponent. -/
def isWhole (n : Numeral) : Bool :=
  n.fraction.isNone && n.exponent.isNone

/-- The integer of a whole numeral. -/
def toInt (n : Numeral) : Int :=
  let value : Int := Text.decimalValue 0 n.whole
  if n.negative then -value else value

/-- The double closest to the numeral, none when it is out of range. -/
def toBinary64? (n : Numeral) : Option Binary64 :=
  let fraction := n.fraction.getD []
  let power : Int :=
    match n.exponent with
    | none => 0
    | some (down, digits) =>
      let value : Int := Text.decimalValue 0 digits
      if down then -value else value
  Binary64.ofDecimal n.negative (Text.decimalValue 0 (n.whole ++ fraction))
    (power - (fraction.length : Int))

end Numeral

end GraphQL
