/-!
# Binary floating-point numbers

`Binary64` is the 64-bit binary format.  A finite number is a sign and a *rank*: the magnitudes of
the format, zero first, are numbered in increasing order, and a magnitude's rank is its place in
that order.  The rank is at the same time the lower 63 bits of the encoding, which is what makes the
format pleasant to compute with: the successor of a magnitude is the successor of its rank, and a
carry out of the significand moves to the next binade by itself.

The smallest positive magnitude has rank one, and every magnitude is a whole multiple of it.
`units` gives that multiple, exactly, as a natural number; the magnitude is `units rank / 2 ^ 1074`.

`nearest` goes the other way: it takes any fraction to the magnitude closest to it, a fraction half
way between two magnitudes to the one with the even significand, and a fraction too large for the
format to infinity.

## What is here

* `Binary64` — a finite number, an infinity or the one NaN.  A finite rank is a `Fin`, so no value
  of the type stands for two numbers or for none.
* `Binary64.units` — the exact magnitude of a rank.
* `Binary64.roundHalfEven`, `Binary64.nearestRank`, `Binary64.nearest` — rounding of a fraction.
  There is no floating-point arithmetic in it: both parts of the fraction are natural numbers.
* `Binary64.ofNat`, `Binary64.negate` — what the grammar needs of arithmetic.
* `Binary64.ofBits`, `Binary64.bits?` — the encoding.

Equality of this type is equality of what a number is, so zero and minus zero differ and a NaN is
equal to itself.  That is the equality in which trees are compared.
-/

set_option autoImplicit false

namespace ProtoSchema

-- Powers are those of the core library, whatever else is imported.
attribute [local instance(high)] instPowNat

namespace Binary64

/-- The width of the fraction field. -/
abbrev fractionBits : Nat := 52

/-- The rank of infinity: one more than the rank of the largest finite magnitude. -/
abbrev infinityRank : Nat := 0x7ff0000000000000

/-- The exponent of the smallest positive magnitude, `2 ^ (-1074)`. -/
abbrev unitExponent : Nat := 1074

end Binary64

/-- A number of the 64-bit binary format.  The payload and the sign of a NaN are not kept. -/
inductive Binary64 where
  | finite (negative : Bool) (rank : Fin Binary64.infinityRank)
  | infinity (negative : Bool)
  | nan
  deriving DecidableEq, Repr

namespace Binary64

/-- The magnitude of the given rank as a multiple of the smallest positive one.  A magnitude of
the first two binades is its own rank; from there on the significand gets its leading one and each
binade doubles the spacing. -/
def units (rank : Nat) : Nat :=
  let exponent := rank / 2 ^ fractionBits
  let fraction := rank % 2 ^ fractionBits
  if exponent = 0 then fraction else (2 ^ fractionBits + fraction) * 2 ^ (exponent - 1)

/-- The whole number closest to `num / den`, of two equally close ones the even one. -/
def roundHalfEven (num den : Nat) : Nat :=
  let quotient := num / den
  let remainder := num % den
  if 2 * remainder < den then quotient
  else if den < 2 * remainder then quotient + 1
  else quotient + quotient % 2

/-- The rank of the magnitude closest to `num / den`.  Only the binade of the fraction matters for
the spacing of the magnitudes around it; `shift` is the number of times the spacing has doubled
there.  The rank may be that of infinity or above it. -/
def nearestRank (num den : Nat) : Nat :=
  let scaled := num * 2 ^ unitExponent
  let shift := (scaled / den).log2 - fractionBits
  shift * 2 ^ fractionBits + roundHalfEven scaled (den * 2 ^ shift)

/-- The number of the given sign and rank, infinity when the rank is past the finite ones. -/
def ofRank (negative : Bool) (rank : Nat) : Binary64 :=
  if h : rank < infinityRank then .finite negative ⟨rank, h⟩ else .infinity negative

/-- The number closest to `num / den` in magnitude, of the given sign. -/
def nearest (negative : Bool) (num den : Nat) : Binary64 :=
  ofRank negative (nearestRank num den)

/-- The number closest to a natural number. -/
def ofNat (n : Nat) : Binary64 := nearest false n 1

/-- Zero, of either sign. -/
def zero (negative : Bool) : Binary64 := .finite negative ⟨0, by decide⟩

/-- The number with the opposite sign; a NaN stays one. -/
def negate : Binary64 → Binary64
  | .finite negative rank => .finite (!negative) rank
  | .infinity negative => .infinity (!negative)
  | .nan => .nan

/-- Reads the 64 bits of an encoding; every pattern above that of infinity is a NaN. -/
def ofBits (bits : Nat) : Binary64 :=
  let negative := bits / 2 ^ (63 : Nat) % 2 == 1
  let rank := bits % 2 ^ (63 : Nat)
  if infinityRank < rank then .nan else ofRank negative rank

/-- The 64 bits of the encoding, or nothing for a NaN, whose bits are not unique. -/
def bits? : Binary64 → Option Nat
  | .finite negative rank => some (negative.toNat * 2 ^ (63 : Nat) + rank)
  | .infinity negative => some (negative.toNat * 2 ^ (63 : Nat) + infinityRank)
  | .nan => none

end Binary64

end ProtoSchema
