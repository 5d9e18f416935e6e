import ProtoSchema.Proofs.Token.Division
import ProtoSchema.Proofs.Token.Faults

/-!
# Texts made of tokens

The lexical grammar of `ProtoSchema.Proofs.Token.Lexical` says what can stand at one place.  A whole
text follows it if tokens stand in it one behind the other, each of them what the grammar has at its
place, with nothing but blanks in between.  That is `Lexed`, and it says nothing of scanning.

## What is here

* `scan_lexed` — **a scan finds the only division of the text that follows the grammar.**  The
  tokens are such a division, they are all of the text but for blanks (`Lossless`), and any other
  division that follows the grammar has the same tokens in the same order.
* `Lexed.scan` — **what follows the grammar is scanned.**  A text that is divided in this way is
  scanned, unless one of its numbers does not fit; there is no other way to fail.

The grammar leaves open which number a numeral stands for, so two divisions are compared by what it
does say of a symbol: the kind, the text, and the text between the marks (`Symbol.shape`).  It is
also why the second statement has an exception.

The first half of uniqueness is that both divisions have a token at the same place.  A token never
begins with a blank (`Lexes.not_isBlank`), so where the one has a blank the other has it too.
-/

set_option autoImplicit false

namespace ProtoSchema

open Lexical

/-- The text is made of the symbols, each of which the lexical grammar has at its place, with blanks
in front, behind and between them. -/
inductive Lexed : List Char → List Symbol → Prop
  | nil : Lexed [] []
  | blank {c : Char} {cs : List Char} {ss : List Symbol} (hc : isBlank c) (h : Lexed cs ss) :
    Lexed (c :: cs) ss
  | symbol {s : Symbol} {rest : List Char} {ss : List Symbol}
    (hs : Lexes (s.lexeme.toList ++ rest) s) (h : Lexed rest ss) :
    Lexed (s.lexeme.toList ++ rest) (s :: ss)

/-- What the lexical grammar says of a symbol: everything but the value of a number. -/
def Symbol.shape (s : Symbol) : Kind × String × Option String := (s.kind, s.lexeme, s.text?)

variable {c : Char} {cs front back : List Char} {s : Symbol} {ss ss' : List Symbol}
  {fault : LexicalFault}

/-! ## Where a token can begin -/

theorem isBlank_iff : isBlank c ↔ c = ' ' ∨ c = '\t' ∨ c = '\r' ∨ c = '\n' := by
  simp [isBlank, or_assoc]

/-- No token begins with a blank. -/
theorem Lexes.not_isBlank (h : Lexes (c :: cs) s) : ¬isBlank c := by
  rw [isBlank_iff]
  rcases h.head with hhead | hhead | hhead | ⟨kind, hhead⟩ <;>
    rintro (rfl | rfl | rfl | rfl) <;> exact absurd hhead (by decide +revert)

/-- Behind the end of a text there is no token. -/
theorem not_lexes_nil : ¬Lexes [] s := by
  intro h
  cases h with
  | operator hspelling h =>
    rcases operator?_of_spelling? hspelling with ⟨d, htext, -⟩ | ⟨d, shorter, htext, -⟩ <;>
      exact absurd (List.prefix_nil.mp h.stands) (by simp [htext])
  | word h =>
    obtain ⟨d, tail, htext, -⟩ := mem_words.mp h.mem
    exact absurd (List.prefix_nil.mp h.stands) (by simp [htext])
  | number h =>
    obtain ⟨d, tail, htext, -⟩ := isDigit_of_mem_numerals h.mem
    exact absurd (List.prefix_nil.mp h.stands) (by simp [htext])
  | string _ hcs => cases hcs
  | lineComment hcs => cases hcs
  | blockComment hcs => cases hcs

/-- A text that does not begin with a blank begins with a token. -/
theorem Lexed.exists_lexes (h : Lexed (c :: cs) ss) (hc : ¬isBlank c) : ∃ s, Lexes (c :: cs) s := by
  generalize htext : c :: cs = text at h
  cases h with
  | nil => cases htext
  | blank hblank =>
    obtain ⟨rfl, -⟩ := List.cons.inj htext
    exact absurd hblank hc
  | symbol hs => exact ⟨_, hs⟩

/-! ## Divisions -/

/-- Where the scanner finds a token, a text that follows the grammar has it too, and goes on behind
it. -/
theorem Lexed.of_pieceAt {p : Piece} {rest : List Char} (h : Lexed (c :: (p.tail ++ rest)) ss)
    (hp : pieceAt c (p.tail ++ rest) = .ok (some p)) :
    ∃ s ss', ss = s :: ss' ∧ s.shape = (p.symbol c).shape ∧ Lexed rest ss' := by
  generalize htext : c :: (p.tail ++ rest) = text at h
  cases h with
  | nil => cases htext
  | blank hblank =>
    obtain ⟨rfl, -⟩ := List.cons.inj htext
    rw [pieceAt_of_isBlank hblank] at hp
    cases hp
  | @symbol s rest' ss' hs hrest =>
    obtain ⟨hkind, hlexeme, hvalue⟩ := Lexes.unique (htext ▸ hs) hp
    have hsame : s.lexeme.toList ++ rest = s.lexeme.toList ++ rest' := by
      rw [← htext, hlexeme, String.toList_ofList, List.cons_append]
    obtain rfl : rest = rest' := List.append_cancel_left hsame
    refine ⟨s, ss', rfl, ?_, hrest⟩
    rw [Symbol.shape, Symbol.shape, hkind, hlexeme, hvalue]
    rfl

/-- Behind a blank the text follows the grammar as it did in front of it. -/
theorem Lexed.of_isBlank (h : Lexed (c :: cs) ss) (hc : isBlank c) : Lexed cs ss := by
  generalize htext : c :: cs = text at h
  cases h with
  | nil => cases htext
  | blank _ h =>
    obtain ⟨-, rfl⟩ := List.cons.inj htext
    exact h
  | symbol hs => exact absurd hc (htext ▸ hs : Lexes (c :: cs) _).not_isBlank

/-- A division by the scanner follows the grammar. -/
theorem Divides.lexed (h : Divides [] cs ss) : Lexed cs ss := by
  induction h with
  | nil => exact .nil
  | blank hc _ ih => exact .blank hc ih
  | @piece c p rest ss hp _ ih =>
    rw [List.append_nil] at hp
    have hlexeme : (p.symbol c).lexeme.toList = c :: p.tail := String.toList_ofList
    rw [← List.cons_append, ← hlexeme]
    refine .symbol ?_ ih
    rw [hlexeme]
    exact lexes_of_pieceAt hp

/-- There is one division only that follows the grammar. -/
theorem Divides.shape_eq (h : Divides [] cs ss) (h' : Lexed cs ss') :
    ss'.map Symbol.shape = ss.map Symbol.shape := by
  induction h generalizing ss' with
  | nil =>
    generalize htext : ([] : List Char) = text at h'
    cases h' with
    | nil => rfl
    | blank => cases htext
    | symbol hs => exact absurd (htext ▸ hs) not_lexes_nil
  | blank hc _ ih => exact ih (h'.of_isBlank hc)
  | @piece c p rest ss hp _ ih =>
    rw [List.append_nil] at hp
    obtain ⟨s, ss', rfl, hshape, hrest⟩ := h'.of_pieceAt hp
    rw [List.map_cons, List.map_cons, hshape, ih hrest]

/-- What is left behind a part that the scanner has divided follows the grammar as well. -/
theorem Lexed.behind (h : Divides back front ss) (h' : Lexed (front ++ back) ss') :
    ∃ ss, Lexed back ss := by
  induction h generalizing ss' with
  | nil => exact ⟨ss', h'⟩
  | blank hc _ ih => exact ih (h'.of_isBlank hc)
  | @piece c p rest ss hp _ ih =>
    rw [List.cons_append, List.append_assoc] at h'
    rw [List.append_assoc] at hp
    obtain ⟨s, ss', -, -, hrest⟩ := h'.of_pieceAt hp
    exact ih hrest

/-! ## Faults -/

/-- What stands at a quote is a string, which a quote closes on the same line. -/
theorem Lexes.of_quote {quote : Char} (hquote : quote = '"' ∨ quote = '\'')
    (h : Lexes (quote :: cs) s) :
    ∃ content rest, cs = content ++ quote :: rest ∧ '\n' ∉ content ∧ ¬endsEscaped content := by
  cases h with
  | operator hspelling h =>
    obtain ⟨kind, hkind⟩ := exists_operator?_of_stands hspelling h.stands
    rcases hquote with rfl | rfl <;> cases hkind
  | word h =>
    rcases hquote with rfl | rfl <;> exact absurd (isWordStart_of_longest h) (by decide)
  | number h => rcases hquote with rfl | rfl <;> exact absurd (isDigit_of_longest h) (by decide)
  | string _ hcs hline hcloses =>
    obtain ⟨rfl, rfl⟩ := List.cons.inj hcs
    exact ⟨_, _, rfl, hline, hcloses⟩
  | lineComment hcs | blockComment hcs =>
    obtain ⟨rfl, -⟩ := List.cons.inj hcs
    rcases hquote with hquote | hquote <;> cases hquote

/-- What stands at the marks of a block comment is one, and has the marks that close it. -/
theorem Lexes.of_blockMarks (h : Lexes ('/' :: '*' :: cs) s) : ['*', '/'] <:+: cs := by
  cases h with
  | operator _ _ _ hblock => exact absurd ⟨cs, rfl⟩ hblock
  | word h => exact absurd (isWordStart_of_longest h) (by decide)
  | number h => exact absurd (isDigit_of_longest h) (by decide)
  | string hquote hcs =>
    obtain ⟨rfl, -⟩ := List.cons.inj hcs
    rcases hquote with hquote | hquote <;> cases hquote
  | lineComment hcs => cases hcs
  | @blockComment content rest hcs =>
    obtain ⟨-, hcs⟩ := List.cons.inj hcs
    obtain ⟨-, rfl⟩ := List.cons.inj hcs
    exact ⟨content, rest, by simp⟩

/-- Where a token stands, no fault stands but that of a number which does not fit. -/
theorem LexicalFault.Stands.of_lexes (h : fault.Stands cs) (hs : Lexes cs s) :
    ∃ lexeme, fault = .numberOutOfRange lexeme := by
  cases h with
  | unexpectedCharacter _ hnone => exact absurd hs (hnone _ _)
  | unterminatedString hquote hopen =>
    obtain ⟨content, rest, hcs, hline, hcloses⟩ := hs.of_quote hquote
    exact absurd (hopen content rest hcs hline) hcloses
  | unterminatedComment hopen => exact absurd hs.of_blockMarks hopen
  | numberOutOfRange => exact ⟨_, rfl⟩

/-- No fault begins with a blank. -/
theorem LexicalFault.Stands.not_isBlank (h : fault.Stands (c :: cs)) : ¬isBlank c := by
  generalize htext : c :: cs = text at h
  cases h with
  | unexpectedCharacter hblank =>
    obtain ⟨rfl, -⟩ := List.cons.inj htext
    exact hblank
  | unterminatedString hquote =>
    obtain ⟨rfl, -⟩ := List.cons.inj htext
    rcases hquote with rfl | rfl <;> decide
  | unterminatedComment =>
    obtain ⟨rfl, -⟩ := List.cons.inj htext
    decide
  | numberOutOfRange hlongest =>
    rw [← htext] at hlongest
    have hdigit := isDigit_of_longest hlongest
    rw [isBlank_iff]
    rintro (rfl | rfl | rfl | rfl) <;> exact absurd hdigit (by decide)

/-! ## Scans -/

variable {text : String}

/-- **A scan finds the only division of a text that follows the lexical grammar.** -/
theorem scan_lexed {tokens : List Token} (h : scan text = .ok tokens) :
    ∃ ts, tokens = ts ++ [Token.endAt (Mark.start.after text.toList)] ∧ Lossless text ts ∧
      Lexed text.toList (ts.map Token.toSymbol) ∧
      ∀ ss, Lexed text.toList ss → ss.map Symbol.shape = ts.map fun t ↦ t.toSymbol.shape := by
  obtain ⟨ts, rfl, htiled⟩ := tiled_of_scanFrom h
  have hdivides : Divides [] text.toList (ts.map Token.toSymbol) := divides_of_scanFrom h
  refine ⟨ts, rfl, htiled.lossless, hdivides.lexed, fun ss hss ↦ ?_⟩
  rw [hdivides.shape_eq hss, List.map_map]
  rfl

/-- **A text that follows the lexical grammar is scanned**, unless one of its numbers does not
fit. -/
theorem Lexed.scan (h : Lexed text.toList ss) : (∃ tokens, scan text = .ok tokens) ∨
    ∃ lexeme position, scan text = .error ⟨.numberOutOfRange lexeme, position⟩ := by
  cases hscan : ProtoSchema.scan text with
  | ok tokens => exact .inl ⟨tokens, rfl⟩
  | error e =>
    obtain ⟨front, c, back, ss, htext, hdivides, hfault, -⟩ := exists_front_of_scanFrom hscan
    have hstands := stands_of_pieceAt hfault
    obtain ⟨ss, hback⟩ := Lexed.behind hdivides (htext ▸ h)
    obtain ⟨s, hs⟩ := hback.exists_lexes hstands.not_isBlank
    obtain ⟨lexeme, hlexeme⟩ := hstands.of_lexes hs
    exact .inr ⟨lexeme, e.position, by rw [← hlexeme]⟩

end ProtoSchema
