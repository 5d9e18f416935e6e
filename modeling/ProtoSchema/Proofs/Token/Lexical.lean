import Mathlib.Computability.Language
import ProtoSchema.Proofs.Token.Numeral

/-!
# The lexical grammar

What the tokens of a text are is said here without scanning it.  Operators, words and numerals are
languages, and a token of such a sort is the longest text of the language that stands at its place.
The other tokens are bounded by marks, and the first mark that can close one does.

`Lexes cs s` says that the symbol `s` stands at the head of the text `cs`.

The point of it is to be readable by someone who has never seen the scanner.  So the languages are
built with Mathlib's `Language` and its operations, the way a regular grammar is written, and the
scanner's own functions occur only for the classes of single characters.

## What is here

* `Lexical.one`, `Lexical.many`, `Lexical.oneOrMore`, `Lexical.optionally` — the building blocks.
* `Lexical.hexadecimals`, `Lexical.decimals`, `Lexical.numerals`, `Lexical.words`,
  `Lexical.operators` — the languages.  There is none for octal numerals: as texts they are decimal
  ones, and only the value differs.
* `Longest` — the longest text of a language at the head of another.
* `Lexes` — the lexical grammar, one constructor for each sort of token.  The value of a numeral is
  left open here and settled by `Numeral.Denotes` in `Proofs/Token/Faults.lean`.
* `Lexical.mem_many_one` to `Lexical.mem_decimals` — membership in the languages spelled out in
  terms of lists of characters, in the same order.
-/

set_option autoImplicit false

namespace ProtoSchema

namespace Lexical

/-! ## Languages -/

/-- The texts of one character that passes the test. -/
def one (p : Char → Bool) : Language Char := {w | ∃ c, p c ∧ w = [c]}

/-- Any number of texts of the language behind one another. -/
def many (l : Language Char) : Language Char := KStar.kstar l

/-- One text of the language at least. -/
def oneOrMore (l : Language Char) : Language Char := l * many l

/-- A text of the language, or nothing. -/
def optionally (l : Language Char) : Language Char := 1 + l

/-- A zero, an `x` of either case, and digits of base sixteen. -/
def hexadecimals : Language Char :=
  one (· == '0') * one (fun c => c == 'x' || c == 'X') * oneOrMore (one isHexDigit)

/-- A point and digits behind it. -/
def fractions : Language Char := one (· == '.') * many (one Char.isDigit)

/-- An `e` of either case, perhaps a sign, and digits. -/
def exponents : Language Char :=
  one (fun c => c == 'e' || c == 'E') * optionally (one isSign) * oneOrMore (one Char.isDigit)

/-- Digits, perhaps a fraction, and perhaps an exponent. -/
def decimals : Language Char :=
  oneOrMore (one Char.isDigit) * optionally fractions * optionally exponents

/-- The texts of numerals. -/
def numerals : Language Char := hexadecimals + decimals

/-- A letter or an underscore, and letters, digits and underscores behind it. -/
def words : Language Char := one isWordStart * many (one isWordPart)

/-- The texts of operators and marks of punctuation. -/
def operators : Language Char := {w | ∃ kind : Kind, kind.spelling?.map String.toList = some w}

/-- The text is the longest one of the language that stands at the head of `cs`. -/
structure Longest (l : Language Char) (text cs : List Char) : Prop where
  mem : text ∈ l
  stands : text <+: cs
  longest : ∀ other ∈ l, other <+: cs → other.length ≤ text.length

end Lexical

open Lexical

/-- The symbol stands at the head of the text `cs`.  The value of a number is left open. -/
inductive Lexes (cs : List Char) : Symbol → Prop
  | operator {kind : Kind} {text : String} (hkind : kind.spelling? = some text)
    (h : Longest operators text.toList cs) (hline : ¬['/', '/'] <+: cs)
    (hblock : ¬['/', '*'] <+: cs) :
    Lexes cs ⟨kind, text, none⟩
  | word {text : String} (h : Longest words text.toList cs) :
    Lexes cs ⟨if text ∈ primitiveWords then .primitiveType else .identifier, text, none⟩
  | number {text : String} {n : Number} (h : Longest numerals text.toList cs) :
    Lexes cs ⟨.number, text, some (.number n)⟩
  /-- The first quote that is not escaped closes a string, on the same line. -/
  | string {quote : Char} {content rest : List Char} (hquote : quote = '"' ∨ quote = '\'')
    (hcs : cs = quote :: (content ++ quote :: rest)) (hline : '\n' ∉ content)
    (hcloses : ¬endsEscaped content)
    (hfirst : ∀ front back, content = front ++ quote :: back → endsEscaped front) :
    Lexes cs ⟨.string, String.ofList (quote :: content ++ [quote]),
      some (.text (String.ofList content))⟩
  /-- A newline or the end of the text closes a line comment. -/
  | lineComment {content rest : List Char} (hcs : cs = '/' :: '/' :: (content ++ rest))
    (hline : '\n' ∉ content) (hrest : ∀ c ∈ rest.head?, c = '\n') :
    Lexes cs ⟨.comment, String.ofList ('/' :: '/' :: content), some (.text (String.ofList content))⟩
  /-- The first marks that can close a block comment do. -/
  | blockComment {content rest : List Char}
    (hcs : cs = '/' :: '*' :: (content ++ '*' :: '/' :: rest))
    (hfirst : ∀ front back, content ++ '*' :: '/' :: rest = front ++ '*' :: '/' :: back →
      content.length ≤ front.length) :
    Lexes cs ⟨.comment, String.ofList ('/' :: '*' :: content ++ ['*', '/']),
      some (.text (String.ofList content))⟩

namespace Lexical

/-! ## Texts of the languages -/

variable {p : Char → Bool} {l : Language Char} {w : List Char}

theorem mem_many_one : w ∈ many (one p) ↔ ∀ c ∈ w, p c := by
  rw [many, Language.mem_kstar]
  constructor
  · rintro ⟨ws, rfl, hws⟩ c hc
    obtain ⟨u, hu, hcu⟩ := List.mem_flatten.mp hc
    obtain ⟨d, hd, rfl⟩ := hws u hu
    rwa [List.mem_singleton.mp hcu]
  · intro h
    refine ⟨w.map fun c ↦ [c], ?_, ?_⟩
    · rw [← List.flatMap_def, List.flatMap_singleton']
    · rw [List.forall_mem_map]
      exact fun c hc ↦ ⟨c, h c hc, rfl⟩

theorem mem_one_mul : w ∈ one p * l ↔ ∃ c tail, w = c :: tail ∧ p c ∧ tail ∈ l := by
  rw [Language.mem_mul]
  constructor
  · rintro ⟨_, ⟨c, hc, rfl⟩, tail, htail, rfl⟩
    exact ⟨c, tail, rfl, hc, htail⟩
  · rintro ⟨c, tail, rfl, hc, htail⟩
    exact ⟨[c], ⟨c, hc, rfl⟩, tail, htail, rfl⟩

theorem mem_oneOrMore_one : w ∈ oneOrMore (one p) ↔ w ≠ [] ∧ ∀ c ∈ w, p c := by
  rw [oneOrMore, mem_one_mul]
  constructor
  · rintro ⟨c, tail, rfl, hc, htail⟩
    exact ⟨List.cons_ne_nil _ _, List.forall_mem_cons.mpr ⟨hc, mem_many_one.mp htail⟩⟩
  · rintro ⟨hne, hall⟩
    obtain ⟨c, tail, rfl⟩ := List.exists_cons_of_ne_nil hne
    obtain ⟨hc, htail⟩ := List.forall_mem_cons.mp hall
    exact ⟨c, tail, rfl, hc, mem_many_one.mpr htail⟩

theorem mem_optionally : w ∈ optionally l ↔ w = [] ∨ w ∈ l := .rfl

theorem mem_words : w ∈ words ↔
    ∃ c tail, w = c :: tail ∧ isWordStart c ∧ ∀ d ∈ tail, isWordPart d := by
  simp only [words, mem_one_mul, mem_many_one]

/-- The hexadecimal numerals, spelled out. -/
theorem mem_hexadecimals : w ∈ hexadecimals ↔ ∃ letter digits, w = '0' :: letter :: digits ∧
    (letter = 'x' ∨ letter = 'X') ∧ digits ≠ [] ∧ ∀ d ∈ digits, isHexDigit d := by
  rw [hexadecimals, mul_assoc, mem_one_mul]
  constructor
  · rintro ⟨c, tail, rfl, hc, htail⟩
    obtain ⟨letter, digits, rfl, hletter, hdigits⟩ := mem_one_mul.mp htail
    obtain rfl := beq_iff_eq.mp hc
    exact ⟨letter, digits, rfl, by simpa using hletter, mem_oneOrMore_one.mp hdigits⟩
  · rintro ⟨letter, digits, rfl, hletter, hdigits⟩
    exact ⟨'0', _, rfl, rfl,
      mem_one_mul.mpr ⟨letter, digits, rfl, by simpa using hletter, mem_oneOrMore_one.mpr hdigits⟩⟩

theorem mem_fractions : w ∈ fractions ↔ ∃ ds, w = '.' :: ds ∧ ∀ d ∈ ds, d.isDigit := by
  rw [fractions, mem_one_mul]
  constructor
  · rintro ⟨c, ds, rfl, hc, hds⟩
    obtain rfl := beq_iff_eq.mp hc
    exact ⟨ds, rfl, mem_many_one.mp hds⟩
  · rintro ⟨ds, rfl, hds⟩
    exact ⟨'.', ds, rfl, rfl, mem_many_one.mpr hds⟩

/-- The exponents, spelled out. -/
theorem mem_exponents : w ∈ exponents ↔ ∃ e : Exponent, e.Formed ∧ w = e.text := by
  rw [exponents, mul_assoc, mem_one_mul]
  constructor
  · rintro ⟨letter, tail, rfl, hletter, htail⟩
    obtain ⟨sign, hsign, digits, hdigits, rfl⟩ := Language.mem_mul.mp htail
    obtain ⟨hne, hall⟩ := mem_oneOrMore_one.mp hdigits
    have hletter' : letter = 'e' ∨ letter = 'E' := by simpa using hletter
    rcases mem_optionally.mp hsign with rfl | ⟨c, hc, rfl⟩
    · exact ⟨⟨letter, none, digits⟩, ⟨hletter', nofun, hall, hne⟩, rfl⟩
    · refine ⟨⟨letter, some c, digits⟩, ⟨hletter', ?_, hall, hne⟩, rfl⟩
      rintro _ ⟨⟩
      exact hc
  · rintro ⟨⟨letter, sign?, digits⟩, ⟨hletter, hsign, hall, hne⟩, rfl⟩
    refine ⟨letter, sign?.toList ++ digits, rfl, by simpa using hletter, Language.mem_mul.mpr
      ⟨sign?.toList, ?_, digits, mem_oneOrMore_one.mpr ⟨hne, hall⟩, rfl⟩⟩
    cases sign? with
    | none => exact mem_optionally.mpr (.inl rfl)
    | some c => exact mem_optionally.mpr (.inr ⟨c, hsign c rfl, rfl⟩)

theorem mem_optionally_fractions : w ∈ optionally fractions ↔
    ∃ fraction?, w = Numeral.fractionText fraction? ∧ ∀ ds ∈ fraction?, ∀ d ∈ ds, d.isDigit := by
  rw [mem_optionally, mem_fractions]
  constructor
  · rintro (rfl | ⟨ds, rfl, hds⟩)
    · exact ⟨none, rfl, nofun⟩
    · exact ⟨some ds, rfl, by rintro _ ⟨⟩; exact hds⟩
  · rintro ⟨fraction?, rfl, hf⟩
    cases fraction? with
    | none => exact .inl rfl
    | some ds => exact .inr ⟨ds, rfl, hf ds rfl⟩

theorem mem_optionally_exponents : w ∈ optionally exponents ↔
    ∃ exponent?, w = Numeral.exponentText exponent? ∧ ∀ e ∈ exponent?, e.Formed := by
  rw [mem_optionally, mem_exponents]
  constructor
  · rintro (rfl | ⟨e, he, rfl⟩)
    · exact ⟨none, rfl, nofun⟩
    · exact ⟨some e, rfl, by rintro _ ⟨⟩; exact he⟩
  · rintro ⟨exponent?, rfl, he⟩
    cases exponent? with
    | none => exact .inl rfl
    | some e => exact .inr ⟨e, he e rfl, rfl⟩

/-- The decimal numerals, spelled out. -/
theorem mem_decimals : w ∈ decimals ↔ ∃ whole fraction? exponent?,
    w = (Numeral.decimal whole fraction? exponent?).text ∧ whole ≠ [] ∧ (∀ d ∈ whole, d.isDigit) ∧
      (∀ ds ∈ fraction?, ∀ d ∈ ds, d.isDigit) ∧ ∀ e ∈ exponent?, e.Formed := by
  simp only [decimals, Language.mem_mul, mem_oneOrMore_one, mem_optionally_fractions,
    mem_optionally_exponents]
  constructor
  · rintro ⟨_, ⟨whole, ⟨hne, hwhole⟩, _, ⟨fraction?, rfl, hf⟩, rfl⟩, _, ⟨exponent?, rfl, he⟩, rfl⟩
    exact ⟨whole, fraction?, exponent?, rfl, hne, hwhole, hf, he⟩
  · rintro ⟨whole, fraction?, exponent?, rfl, hne, hwhole, hf, he⟩
    exact ⟨_, ⟨whole, ⟨hne, hwhole⟩, _, ⟨fraction?, rfl, hf⟩, rfl⟩, _, ⟨exponent?, rfl, he⟩, rfl⟩

/-- An operator is a single character, or one with an equals sign behind it. -/
theorem operator?_of_spelling? {kind : Kind} {text : String} (h : kind.spelling? = some text) :
    (∃ c, text.toList = [c] ∧ operator? c = some kind) ∨
      ∃ c shorter, text.toList = [c, '='] ∧ operator? c = some shorter ∧
        withEqual? shorter = some kind := by
  cases kind <;> cases h <;>
    first
    | exact .inl ⟨_, rfl, rfl⟩
    | exact .inr ⟨_, _, rfl, rfl, rfl⟩

end Lexical

end ProtoSchema
