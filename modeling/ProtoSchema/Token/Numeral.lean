import ProtoSchema.Token.Basic
import ProtoSchema.Number.Decimal

/-!
# Numerals

A numeral is written in base sixteen behind `0x` or `0X`, in base eight behind a zero, or in base
ten, where a fraction and an exponent may follow.  `Numeral.read` finds the numeral at the head of a
text, `Numeral.text` is the text that it covers, and `Numeral.value?` its value.

The forms are tried in that order.  A zero and octal digits are a decimal numeral all the same when
a point, an exponent or one of the digits eight and nine comes next, and a letter `e` is part of the
numeral only if digits follow it.

A numeral without fraction and exponent is a natural number of 64 bits; it has no value if it does
not fit.  Any other is a binary floating-point number, and always fits.

## What is here

* `digitValue` and `ofDigits` — what digits are worth.  That `ofDigits` is the usual positional
  notation, and not just some function of the digits, is `Proofs/Number/Digits.lean`.
* `Exponent` and `Exponent.read?` — a letter, a sign and digits, or nothing at all.
* `Numeral` — a numeral as it is written: the parts of its text and no value.  Two numerals of one
  value are different if their texts are.
* `Numeral.hexadecimal?`, `Numeral.octal?`, `Numeral.decimalFrom` — the three forms.  The last one
  always succeeds, so `Numeral.read` is total.
* `Numeral.text` and `Numeral.value?` — the two ways to look at a numeral.

## The octal form

`Numeral.continuesDecimal` asks only for the character behind the octal digits.  If it is an `e`
that no digits follow, the numeral is decimal and ends in front of the letter: `017e` begins with
the numeral seventeen, where `017` alone is fifteen.  `Proofs/Token/Lexeme.lean` shows that this is
the only case in which a token has another value alone than it has in its text.
-/

set_option autoImplicit false

namespace ProtoSchema

-- Powers are those of the core library, whatever else is imported.
attribute [local instance(high)] instPowNat

/-- The value of a digit; the letters of either case go on from ten. -/
def digitValue (c : Char) : Nat :=
  if c.isDigit then c.toNat - '0'.toNat
  else if c.isLower then c.toNat - 'a'.toNat + 10
  else c.toNat - 'A'.toNat + 10

/-- The number that the digits spell in the given base. -/
def ofDigits (base : Nat) (digits : List Char) : Nat :=
  digits.foldl (fun n c => base * n + digitValue c) 0

/-- The digits of base eight. -/
def isOctalDigit (c : Char) : Bool := '0' ≤ c && c ≤ '7'

/-- The digits of base sixteen, their letters in either case. -/
def isHexDigit (c : Char) : Bool :=
  c.isDigit || ('a' ≤ c && c ≤ 'f') || ('A' ≤ c && c ≤ 'F')

/-- The signs that an exponent can have. -/
def isSign (c : Char) : Bool := c == '+' || c == '-'

/-- The letter of an exponent, its sign if there is one, and its digits. -/
structure Exponent where
  letter : Char
  sign? : Option Char
  digits : List Char
  deriving DecidableEq, Repr

namespace Exponent

/-- The characters of the exponent. -/
def text (e : Exponent) : List Char := e.letter :: e.sign?.toList ++ e.digits

/-- The power of ten that the exponent stands for. -/
def value (e : Exponent) : Int :=
  if e.sign? = some '-' then -(ofDigits 10 e.digits : Int) else ofDigits 10 e.digits

/-- The exponent at the head of a text; the letter alone is none. -/
def read? : List Char → Option Exponent
  | letter :: cs =>
    if letter = 'e' ∨ letter = 'E' then
      let sign? := cs.head?.filter isSign
      let digits := (cs.drop sign?.toList.length).takeWhile Char.isDigit
      if digits.isEmpty then none else some ⟨letter, sign?, digits⟩
    else none
  | [] => none

end Exponent

/-- The written form of a number. -/
inductive Numeral where
  /-- A zero, the given letter and digits. -/
  | hexadecimal (letter : Char) (digits : List Char)
  /-- A zero and the given digits. -/
  | octal (digits : List Char)
  | decimal (whole : List Char) (fraction? : Option (List Char)) (exponent? : Option Exponent)
  deriving DecidableEq, Repr

namespace Numeral

/-- The characters of a fraction, its point included. -/
def fractionText : Option (List Char) → List Char
  | none => []
  | some digits => '.' :: digits

/-- The characters of an exponent, if there is one. -/
def exponentText : Option Exponent → List Char
  | none => []
  | some e => e.text

/-- The characters of the numeral. -/
def text : Numeral → List Char
  | hexadecimal letter digits => '0' :: letter :: digits
  | octal digits => '0' :: digits
  | decimal whole fraction? exponent? => whole ++ fractionText fraction? ++ exponentText exponent?

/-- Natural numbers from here on do not fit. -/
abbrev integerLimit : Nat := 2 ^ (64 : Nat)

/-- A natural number as a value, if it fits. -/
def integer? (n : Nat) : Option Number :=
  if n < integerLimit then some (.integer n) else none

/-- The value of the numeral; it is exact for natural numbers and rounded once for all others. -/
def value? : Numeral → Option Number
  | hexadecimal _ digits => integer? (ofDigits 16 digits)
  | octal digits => integer? (ofDigits 8 digits)
  | decimal whole none none => integer? (ofDigits 10 whole)
  | decimal whole fraction? exponent? =>
    let fraction := fraction?.getD []
    let exponent := (exponent?.map Exponent.value).getD 0
    let decimal : Decimal := ⟨ofDigits 10 (whole ++ fraction), exponent - fraction.length⟩
    some (.float (decimal.toBinary64 false))

/-- The hexadecimal numeral that begins with `c` and goes on in `cs`. -/
def hexadecimal? (c : Char) : List Char → Option Numeral
  | letter :: cs =>
    let digits := cs.takeWhile isHexDigit
    if c = '0' ∧ (letter = 'x' ∨ letter = 'X') ∧ digits ≠ [] then
      some (hexadecimal letter digits)
    else none
  | [] => none

/-- Whether a numeral that begins like an octal one and goes on with `c` is a decimal one. -/
def continuesDecimal (c : Char) : Bool :=
  c == '.' || c == 'e' || c == 'E' || c == '8' || c == '9'

/-- The octal numeral that begins with `c` and goes on in `cs`. -/
def octal? (c : Char) (cs : List Char) : Option Numeral :=
  let digits := cs.takeWhile isOctalDigit
  if c = '0' ∧ digits ≠ [] ∧ ¬ (cs.dropWhile isOctalDigit).head?.any continuesDecimal then
    some (octal digits)
  else none

/-- The fraction at the head of a text. -/
def fraction? : List Char → Option (List Char)
  | '.' :: cs => some (cs.takeWhile Char.isDigit)
  | _ => none

/-- The decimal numeral that begins with the digit `c` and goes on in `cs`. -/
def decimalFrom (c : Char) (cs : List Char) : Numeral :=
  let whole := c :: cs.takeWhile Char.isDigit
  let fraction? := fraction? (cs.dropWhile Char.isDigit)
  let rest := (cs.dropWhile Char.isDigit).drop (fractionText fraction?).length
  decimal whole fraction? (Exponent.read? rest)

/-- The numeral that begins with the digit `c` and goes on in `cs`. -/
def read (c : Char) (cs : List Char) : Numeral :=
  ((hexadecimal? c cs).or (octal? c cs)).getD (decimalFrom c cs)

end Numeral

end ProtoSchema
