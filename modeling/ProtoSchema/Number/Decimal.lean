import ProtoSchema.Number.Binary64

/-!
# Decimal numbers

A `Decimal` is a whole number scaled by a power of ten.  `Decimal.toBinary64` rounds one correctly
to the binary format, and `Decimal.text` writes one with at least one digit on either side of the
point, in positional notation while the first digit stands no further than a fixed number of places
from the point and with an exponent otherwise.

Rounding is exact arithmetic on natural numbers.  A literal may have an exponent with many digits of
its own, so exponents far outside the range of the format are settled beforehand, without forming
the power of ten.

## What is here

* `Decimal.toBinary64` — the reader.  `Decimal.exponentLimit` says from where on the power of ten is
  not formed; that the limit changes no result is `Decimal.toBinary64_eq_nearest` in
  `Proofs/Number/Nearest.lean`.
* `Decimal.trimmed`, `Decimal.scale` — the same number without zeros at its end, and the place of
  its first digit.  The same number can be many decimals, and only a trimmed one is written.
* `Decimal.positional` and `Decimal.scientific` — the two notations, and `Decimal.text`, which
  chooses between them by `Decimal.positionalStart` and `Decimal.positionalEnd`.

Both notations have a point or an exponent, so what is written is never read back as an integer.
-/

set_option autoImplicit false

namespace ProtoSchema

-- Powers are those of the core library, whatever else is imported.
attribute [local instance(high)] instPowNat

/-- The number `coefficient * 10 ^ exponent`. -/
structure Decimal where
  coefficient : Nat
  exponent : Int
  deriving DecidableEq, Repr, Inhabited

namespace Decimal

/-- Powers of ten above this one are too large for the binary format, and those below its negative
are closer to zero than to the smallest positive number, whatever nonzero digit they multiply. -/
abbrev exponentLimit : Int := 400

/-- The number of the binary format closest to the decimal, with the given sign.  The coefficient
is below `2 ^ (log2 + 1)`, hence below the same power of ten, which bounds the decimal from above
when its exponent is small. -/
def toBinary64 (negative : Bool) (d : Decimal) : Binary64 :=
  if d.coefficient = 0 then .zero negative
  else if exponentLimit < d.exponent then .infinity negative
  else if d.exponent + (d.coefficient.log2 + 1) < -exponentLimit then .zero negative
  else
    .nearest negative (d.coefficient * 10 ^ d.exponent.toNat) (10 ^ (-d.exponent).toNat)

/-- The digits of the coefficient. -/
def digits (d : Decimal) : List Char := Nat.toDigits 10 d.coefficient

/-- The same number without zeros at the end of its digits. -/
def trimmed (d : Decimal) : Decimal :=
  if h : d.coefficient ≠ 0 ∧ d.coefficient % 10 = 0 then
    trimmed ⟨d.coefficient / 10, d.exponent + 1⟩
  else d
termination_by d.coefficient
decreasing_by omega

/-- The power of ten of the first digit: `d` lies in `[10 ^ d.scale, 10 ^ (d.scale + 1))`. -/
def scale (d : Decimal) : Int := d.exponent + d.digits.length - 1

/-- First digits from this power of ten up are written with an exponent. -/
abbrev positionalEnd : Int := 16

/-- First digits below this power of ten are written with an exponent. -/
abbrev positionalStart : Int := -4

/-- Positional notation, with a zero on a side of the point that would be empty. -/
def positional (d : Decimal) : List Char :=
  let digits := d.digits
  if d.scale < 0 then
    '0' :: '.' :: List.replicate (-d.scale - 1).toNat '0' ++ digits
  else if 0 ≤ d.exponent then
    digits ++ List.replicate d.exponent.toNat '0' ++ ['.', '0']
  else
    digits.take (d.scale + 1).toNat ++ '.' :: digits.drop (d.scale + 1).toNat

/-- One digit, the others behind a point if there are any, and the power of ten behind an `e`. -/
def scientific (d : Decimal) : List Char :=
  d.digits.take 1 ++ (if d.digits.length ≤ 1 then [] else '.' :: d.digits.drop 1) ++
    'e' :: (toString d.scale).toList

/-- The text of a decimal without zeros at the end of its digits, or of zero itself. -/
def text (d : Decimal) : List Char :=
  if d.coefficient = 0 then ['0', '.', '0']
  else if positionalStart ≤ d.scale ∧ d.scale < positionalEnd then d.positional
  else d.scientific

end Decimal

end ProtoSchema
