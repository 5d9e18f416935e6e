import ProtoSchema.Number.Decimal

/-!
# The shortest decimal that reads back

A number of the binary format is written with the fewest digits that determine it: of the decimals
that `Decimal.toBinary64` takes to the number, one with the shortest coefficient, and of several
such the one closest to the number.

The search goes over grids of decimals.  If the first digit of the number stands for `10 ^ (k - 1)`,
the decimals with `n` digits around it are the multiples of `10 ^ (k - n)`.  When any of them reads
back, one of the two neighbours of the number does, because the decimals that read back to a number
form an interval around it.  So two candidates per grid are enough, and the first grid on which one
of them reads back is the answer's.

Whether a candidate reads back is asked of the reader itself.  Seventeen digits are enough for every
number of the format; the exact value, which every number of the format has as a decimal, stands at
the end of the search all the same, so that the search always ends with an answer that reads back.

## What is here

* `Binary64.exactDecimal` — the exact value, with as many digits as it takes.
* `Binary64.decimalPlaces` — where the first digit stands, from the bits of the number alone.
* `Binary64.onGrid?` — the answer on one grid, if there is one.
* `Binary64.shortest` — the answer on the coarsest grid that has one.
* `Binary64.text` — the text of a number.  Infinities and the NaN are words and not digits.

That the text is read back as the number, whatever grid the search ends on, is
`Binary64.spells_shortest` in `Proofs/Number/Written.lean`.
-/

set_option autoImplicit false

namespace ProtoSchema

-- Powers are those of the core library, whatever else is imported.
attribute [local instance(high)] instPowNat

namespace Binary64

/-- No number of the format needs more digits than this to be told from its neighbours. -/
abbrev maxDigits : Nat := 17

/-- A number of the format, as a magnitude, is a whole multiple of a power of one half, and so also
a decimal with as many places. -/
def exactDecimal (rank : Nat) : Decimal :=
  ⟨units rank * 5 ^ unitExponent, -(unitExponent : Int)⟩

/-- The `k` with `10 ^ (k - 1) ≤ x < 10 ^ k`, for the positive magnitude `x` of the given rank:
enough decimal places are moved in front of the point to make its whole part positive. -/
def decimalPlaces (rank : Nat) : Int :=
  let places : Nat := 400
  let whole := units rank * 10 ^ places / 2 ^ unitExponent
  ((Nat.toDigits 10 whole).length : Int) - places

/-- The decimal on the grid of multiples of `10 ^ exponent` that reads back to the magnitude of the
given rank and is closest to it; of two equally close ones the larger. -/
def onGrid? (rank : Nat) (exponent : Int) : Option Decimal :=
  let num := units rank * 10 ^ (-exponent).toNat
  let den := 2 ^ unitExponent * 10 ^ exponent.toNat
  let below : Decimal := ⟨num / den, exponent⟩
  let above : Decimal := ⟨num / den + 1, exponent⟩
  let readsBack (d : Decimal) : Bool := d.toBinary64 false == ofRank false rank
  match readsBack below, readsBack above with
  | false, false => none
  | true, false => some below
  | false, true => some above
  | true, true => some (if 2 * (num % den) < den then below else above)

/-- The shortest decimal that reads back to the magnitude of the given rank. -/
def shortest (rank : Nat) : Decimal :=
  let k := decimalPlaces rank
  let found := (List.range maxDigits).findSome? fun (n : Nat) => onGrid? rank (k - (n + 1 : Nat))
  (found.getD (exactDecimal rank)).trimmed

/-- The text of a number: the shortest decimal that reads back, behind a minus sign if the number
is negative.  What is not finite has a sign in any case, because the bare words are names. -/
def text : Binary64 → List Char
  | .finite negative rank => (if negative then ['-'] else []) ++ (shortest rank).text
  | .infinity negative => [if negative then '-' else '+', 'i', 'n', 'f']
  | .nan => ['+', 'n', 'a', 'n']

end Binary64

end ProtoSchema
