import ProtoSchema.Proofs.Number.Written
import ProtoSchema.Proofs.Token.Faults

/-!
# Spellings of natural numbers

A natural number has one spelling in base ten and, because of zeros in front and letters of either
case, many in the bases sixteen and eight.  In front of a character that ends numerals the spelling
is all of the numeral.  Wherever it is, its value is the number, if that fits
(`Numeral.Spelling.divides`).

A number that does not fit has no value wherever it stands as a numeral.  The letter that makes a
decimal numeral of an octal one (`Numeral.CutShort`) changes nothing here, since it makes the number
larger.

## What is here

* `Numeral.Spelling` — the ways to write a natural number.  The digits are those of `Nat.toDigits`,
  up to the case of letters and zeros in front (`DigitsOf`), so the relation between the characters
  and the number is not the scanner's own.
* `Numeral.Spelling.longest` — the spelling is the longest numeral at its place in front of what
  ends numerals.  Statements about a spelling in a text ask for this, and not for particular
  characters behind it, so that they hold wherever the numeral ends.
* `Numeral.Spelling.value?_alone`, `Numeral.Spelling.value?_eq` — its value by itself and in a text.
* `Numeral.Spelling.divides` — a number that fits is one token, unless the letter cuts it short.
* `Numeral.Spelling.value?_eq_none`, `Numeral.Spelling.exists_scan_error` — a number that does not
  fit is an error of the scan, at the first of its characters.
-/

set_option autoImplicit false

namespace ProtoSchema

-- Powers are those of the core library, whatever else is imported.
attribute [local instance(high)] instPowNat

open Lexical

namespace Numeral

/-! ## Spellings -/

/-- The ways to write a natural number: its digits in base ten, without zeros in front; those in
base sixteen, behind `0x` or `0X`; and those in base eight, behind a zero.  In the last two there
may be zeros in front of the digits, and letters are of either case. -/
inductive Spelling : List Char → Nat → Prop
  | decimal (n : Nat) : Spelling (Nat.toDigits 10 n) n
  | hexadecimal {letter : Char} {digits : List Char} {n : Nat}
    (hletter : letter = 'x' ∨ letter = 'X') (hn : DigitsOf 16 n digits) :
    Spelling ('0' :: letter :: digits) n
  | octal {digits : List Char} {n : Nat} (hn : DigitsOf 8 n digits) : Spelling ('0' :: digits) n

theorem isAlphanum_of_isHexDigit {c : Char} (h : isHexDigit c) : c.isAlphanum := by
  simp only [isHexDigit, Bool.or_eq_true, Bool.and_eq_true, decide_eq_true_eq] at h
  rcases h with (hdigit | ⟨hlow, hhigh⟩) | ⟨hlow, hhigh⟩
  · exact Bool.or_eq_true_iff.mpr (.inr hdigit)
  · have hz : c.val ≤ 'z'.val := UInt32.le_trans hhigh (by decide)
    have hlower : c.isLower := Bool.and_eq_true_iff.mpr ⟨decide_eq_true hlow, decide_eq_true hz⟩
    exact Bool.or_eq_true_iff.mpr (.inl (Bool.or_eq_true_iff.mpr (.inr hlower)))
  · have hZ : c.val ≤ 'Z'.val := UInt32.le_trans hhigh (by decide)
    have hupper : c.isUpper := decide_eq_true ⟨hlow, hZ⟩
    exact Bool.or_eq_true_iff.mpr (.inl (Bool.or_eq_true_iff.mpr (.inl hupper)))

theorem not_isHexDigit_of_closes {c : Char} (h : closes c) : ¬isHexDigit c := by
  intro hhex
  simp [closes, isWordPart, isAlphanum_of_isHexDigit hhex] at h

theorem not_continuesDecimal_of_closes {c : Char} (h : closes c) : ¬continuesDecimal c := by
  obtain ⟨hdigit, hdot, he, hE, -⟩ := not_of_closes h
  simp only [continuesDecimal, Bool.or_eq_true, beq_iff_eq]
  rintro ((((rfl | rfl) | rfl) | rfl) | rfl) <;> contradiction

/-- The numeral of a spelling ends where the spelling does, and its value is the number. -/
theorem Spelling.exists_read {s : List Char} {n : Nat} (h : Spelling s n) :
    ∃ c tail, s = c :: tail ∧ c.isDigit ∧ ∀ rest : List Char, (∀ d ∈ rest.head?, closes d) →
      (read c (tail ++ rest)).text = s ∧ (read c (tail ++ rest)).value? = integer? n := by
  cases h with
  | decimal =>
    obtain ⟨c, tail, hs, hc, htail, hzero⟩ := exists_toDigits_eq_cons n
    refine ⟨c, tail, hs, hc, fun rest hrest ↦ ?_⟩
    have hread : read c (tail ++ (fractionText none ++ (exponentText none ++ rest))) =
        .decimal (c :: tail) none none :=
      read_decimal htail (fun h ↦ (hzero h).2) nofun nofun hrest
    change read c (tail ++ rest) = _ at hread
    rw [hread, value?, text, fractionText, exponentText, List.append_nil, List.append_nil, ← hs,
      ofDigits_ten_toDigits]
    exact ⟨rfl, rfl⟩
  | @hexadecimal letter digits _ hletter hn =>
    obtain ⟨hne, hdigits, rfl⟩ := (digitsOf_iff (by decide) (by decide)).mp hn
    replace hdigits : ∀ d ∈ digits, isHexDigit d := fun d hd ↦ isHexDigit_iff.mpr (hdigits d hd)
    refine ⟨'0', letter :: digits, rfl, rfl, fun rest hrest ↦ ?_⟩
    have htake : (digits ++ rest).takeWhile isHexDigit = digits :=
      takeWhile_append_of_head hdigits fun d hd ↦ not_isHexDigit_of_closes (hrest d hd)
    have hread : read '0' (letter :: digits ++ rest) = .hexadecimal letter digits := by
      apply read_of_hexadecimal?
      rw [List.cons_append, hexadecimal?, htake]
      exact if_pos ⟨rfl, hletter, hne⟩
    rw [hread]
    exact ⟨rfl, rfl⟩
  | @octal digits _ hn =>
    obtain ⟨hne, hdigits, rfl⟩ := (digitsOf_iff (by decide) (by decide)).mp hn
    replace hdigits : ∀ d ∈ digits, isOctalDigit d := fun d hd ↦ isOctalDigit_iff.mpr (hdigits d hd)
    refine ⟨'0', digits, rfl, rfl, fun rest hrest ↦ ?_⟩
    have hdecimal : ∀ d ∈ digits, d.isDigit := fun d hd ↦ isDigit_of_isOctalDigit (hdigits d hd)
    have hbehind : ∀ d ∈ rest.head?, ¬d.isDigit := fun d hd ↦ (not_of_closes (hrest d hd)).1
    have hread : read '0' (digits ++ rest) = .octal digits := by
      refine read_of_octal? (hexadecimal?_of_head fun d hd ↦ ?_) ?_
      · obtain ⟨first, digits, rfl⟩ := List.exists_cons_of_ne_nil hne
        obtain rfl := Option.some.inj hd
        have hfirst := hdecimal first List.mem_cons_self
        constructor <;> rintro rfl <;> exact absurd hfirst (by decide)
      · have hcontinues : ¬rest.head?.any continuesDecimal := by
          cases rest with
          | nil => exact Bool.false_ne_true
          | cons d rest => exact not_continuesDecimal_of_closes (hrest d rfl)
        rw [octal?_whole '0' rest hdecimal hbehind,
          if_pos ⟨rfl, hne, List.all_eq_true.mpr hdigits, hcontinues⟩]
    rw [hread]
    exact ⟨rfl, rfl⟩

/-- In front of what ends numerals the spelling is all of the numeral. -/
theorem Spelling.longest {s behind : List Char} {n : Nat} (h : Spelling s n)
    (hbehind : ∀ d ∈ behind.head?, closes d) : Longest numerals s (s ++ behind) := by
  obtain ⟨c, tail, rfl, hc, hread⟩ := h.exists_read
  have hlongest : Longest numerals (read c (tail ++ behind)).text (c :: (tail ++ behind)) :=
    longest_read hc
  rwa [(hread behind hbehind).1] at hlongest

/-- The value of a spelling by itself is the number, if it fits. -/
theorem Spelling.value?_alone {c : Char} {tail : List Char} {n : Nat} (h : Spelling (c :: tail) n) :
    (read c tail).value? = integer? n := by
  obtain ⟨d, ds, hs, -, hread⟩ := h.exists_read
  obtain ⟨rfl, rfl⟩ := List.cons.inj hs
  have hvalue := (hread [] nofun).2
  rwa [List.append_nil] at hvalue

/-- Wherever the spelling is a numeral, its value is the number, if no letter cuts it short. -/
theorem Spelling.value?_eq {c : Char} {tail behind : List Char} {n : Nat}
    (h : Spelling (c :: tail) n)
    (hread : (read c (tail ++ behind)).text = c :: tail) (hcut : ¬CutShort (c :: tail) behind) :
    (read c (tail ++ behind)).value? = integer? n := by
  rw [← (read_text hread).1 hcut, h.value?_alone]

/-- A number that fits is one token wherever its spelling is a numeral. -/
theorem Spelling.divides {s behind : List Char} {n : Nat} (h : Spelling s n) (hn : n < integerLimit)
    (hnumeral : Longest numerals s (s ++ behind)) (hcut : ¬CutShort s behind) :
    Divides behind s [.numeral s (.integer n)] := by
  obtain ⟨c, tail, rfl, hc, -⟩ := h.exists_read
  have hread : (read c (tail ++ behind)).text = c :: tail := (longest_read hc).unique hnumeral
  have hpiece : Divides behind (c :: (tail ++ [])) [.numeral (c :: tail) (.integer n)] := by
    refine .piece (p := ⟨.number, tail, some (.number (.integer n))⟩) ?_ .nil
    rw [List.append_nil, pieceAt_of_isDigit hc, numberPiece, h.value?_eq hread hcut, hread,
      integer?, if_pos hn]
    rfl
  rwa [List.append_nil] at hpiece

/-! ## Numbers that do not fit -/

theorem integer?_eq_none {n : Nat} (h : integerLimit ≤ n) : integer? n = none :=
  if_neg (Nat.not_lt.mpr h)

/-- The numeral that such a spelling is has no value, even if a letter cuts it short. -/
theorem Spelling.value?_eq_none {c : Char} {tail behind : List Char} {n : Nat}
    (h : Spelling (c :: tail) n) (hn : integerLimit ≤ n)
    (hread : (read c (tail ++ behind)).text = c :: tail) :
    (read c (tail ++ behind)).value? = none := by
  by_cases hcut : CutShort (c :: tail) behind
  · obtain ⟨hdecimal, hoctal⟩ := (read_text hread).2 hcut
    obtain rfl := hcut.isOctalDigit.1
    have hself : integer? (ofDigits 8 tail) = none := by
      rw [← integer?_eq_none hn, ← h.value?_alone, hoctal, value?]
    have hle : ofDigits 8 tail ≤ ofDigits 10 ('0' :: tail) := ofDigits_le_ofDigits (by decide) tail
    rw [hdecimal, value?]
    exact integer?_eq_none ((limit_le_of_integer? hself).trans hle)
  · rw [h.value?_eq hread hcut, integer?_eq_none hn]

/-- **A number that does not fit is no token**, wherever it stands as a numeral. -/
theorem Spelling.exists_scan_error {before s behind : String} {n : Nat} {ss : List Symbol}
    (h : Spelling s.toList n) (hn : integerLimit ≤ n)
    (hbefore : Divides (s.toList ++ behind.toList) before.toList ss)
    (hnumeral : Longest numerals s.toList (s.toList ++ behind.toList)) :
    ∃ position, scan (before ++ s ++ behind) = .error ⟨.numberOutOfRange s, position⟩ := by
  obtain ⟨c, tail, hs, hc, -⟩ := h.exists_read
  rw [hs] at h hnumeral
  rw [hs, List.cons_append] at hbefore
  have hread : (read c (tail ++ behind.toList)).text = c :: tail :=
    (longest_read hc).unique hnumeral
  have hfault : pieceAt c (tail ++ behind.toList) = .error (.numberOutOfRange s) := by
    rw [pieceAt_of_isDigit hc, numberPiece, h.value?_eq_none hn hread, hread, ← hs,
      String.ofList_toList]
    rfl
  have hscan := scanFrom_of_front hbefore hfault .start
  rw [scan, String.toList_append, String.toList_append, hs, List.append_assoc]
  exact ⟨_, hscan⟩

end Numeral

end ProtoSchema
