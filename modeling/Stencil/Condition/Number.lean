/-
# Numbers in conditions

A number is written with an optional sign, digits, and an optional point with digits around it; one
digit is enough.  Its value is the binary64 number nearest to what is written, a tie going to the
even neighbour; what rounds beyond the greatest finite one is no number.

All finite binary64 numbers are multiples of `2 ^ -1074`, so a value is kept as the integer that
counts these units.  Comparing values is then comparing integers, and the zeros of both signs are
one.

`Decimal.read?` is the test of `parse_number`, and `value?` stands for the conversion that it ends
with.
-/
import Stencil.Text.Basic

namespace Stencil

/-! ## 1. Rounding -/

/-- The integer nearest to `n / d`; a tie goes to the even one. -/
def roundHalfEven (n d : Nat) : Nat :=
  if 2 * (n % d) < d ∨ (2 * (n % d) = d ∧ n / d % 2 = 0) then n / d else n / d + 1

/-- How many units of a binary64 number make one. -/
def unitsPerOne : Nat := Nat.pow 2 1074

/-- The least number of units that is beyond all finite binary64 numbers. -/
def unitsBound : Nat := Nat.pow 2 2098

/-- The binary64 number nearest to `n / d`, in units, if it is finite.  With `e` bits more than the
53 that fit, the value is rounded to a multiple of `2 ^ e`. -/
def binary64Units? (n d : Nat) : Option Nat :=
  let e := (n * unitsPerOne / d).log2 - 52
  let rounded := roundHalfEven (n * unitsPerOne) (d * Nat.pow 2 e) * Nat.pow 2 e
  if rounded < unitsBound then some rounded else none

/-! ## 2. Decimals -/

/-- A decimal: a sign, and digits of which the last `places` stand behind the point. -/
structure Decimal where
  negative : Bool
  digits : Text
  places : Nat
  deriving DecidableEq, Repr

namespace Decimal

/-- Splits a sign off. -/
def readSign : Text → Bool × Text
  | '-' :: t => (true, t)
  | '+' :: t => (false, t)
  | t => (false, t)

/-- The decimal that a text writes. -/
def read? (t : Text) : Option Decimal :=
  let (negative, unsigned) := readSign t
  let (whole, fraction) := (Text.breakOn? ['.'] unsigned).getD (unsigned, [])
  if whole = [] ∧ fraction = [] then none
  else if (whole ++ fraction).all Char.isDigit then
    some ⟨negative, whole ++ fraction, fraction.length⟩
  else none

/-- The number that the digits write without a point. -/
def mantissa (d : Decimal) : Nat :=
  d.digits.foldl (fun n c => 10 * n + (c.toNat - '0'.toNat)) 0

/-- The binary64 number nearest to the decimal, in units, if it is finite. -/
def value? (d : Decimal) : Option Int :=
  (binary64Units? d.mantissa (Nat.pow 10 d.places)).map fun units =>
    if d.negative then -Int.ofNat units else Int.ofNat units

end Decimal

/-- The number that a text writes, in units. -/
def Text.number64? (t : Text) : Option Int := (Decimal.read? t).bind Decimal.value?

end Stencil
