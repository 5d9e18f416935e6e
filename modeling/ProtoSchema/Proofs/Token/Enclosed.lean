import ProtoSchema.Print.Quote
import ProtoSchema.Token.Scan

/-!
# Texts between quotes

`stringText?` stops at the first quote that no backslash escapes, `quoted` puts quotes around a text
without a look at its end, and both are about the same thing: `Enclosed quote content` says that
`content` can stand between two of the quotes.  A text is read off exactly when it is enclosed and
its quote follows (`stringText?_of_enclosed` and `enclosed_of_stringText?`).

## What is here

* `endsEscaped` — whether a text stops behind a backslash that escapes nothing, so that a quote put
  behind it would be escaped.
* `Enclosed` — no newline, no unescaped quote, and no such backslash at the end.
* `enclosed_cons_iff`, `enclosed_escape_iff`, `not_enclosed_backslash` — the same, one character or
  one escape at a time.  These are the steps of `stringText?`, so the proofs about it are inductions
  that end in one of the three.
* `Enclosed.quoteFor` — what can stand between quotes of one sort can stand between the quotes that
  the printer chooses.  The choice looks at the text and not at the quotes that it came with, so a
  string may change its quotes when it is printed, but it never stops being a string.
-/

set_option autoImplicit false

namespace ProtoSchema

/-- Whether a text stops behind a backslash that escapes nothing. -/
def endsEscaped : List Char → Bool
  | [] => false
  | [c] => c == '\\'
  | c :: d :: cs => if c = '\\' then endsEscaped cs else endsEscaped (d :: cs)

/-- The text can stand between two of the quotes. -/
structure Enclosed (quote : Char) (content : List Char) : Prop where
  newline : '\n' ∉ content
  closed : endsEscaped content = false
  bare : hasUnescaped quote content = false

variable {quote : Char} {content cs : List Char}

/-- Nothing at all can stand between quotes. -/
theorem Enclosed.nil : Enclosed quote [] := ⟨by simp, rfl, rfl⟩

/-- Any character but a newline can follow a backslash. -/
theorem enclosed_escape_iff {d : Char} :
    Enclosed quote ('\\' :: d :: content) ↔ d ≠ '\n' ∧ Enclosed quote content := by
  constructor
  · rintro ⟨hn, hc, hb⟩
    simp only [endsEscaped, hasUnescaped, if_true] at hc hb
    simp only [List.mem_cons, not_or] at hn
    exact ⟨fun h ↦ hn.2.1 h.symm, hn.2.2, hc, hb⟩
  · rintro ⟨hd, hn, hc, hb⟩
    refine ⟨?_, by simpa [endsEscaped] using hc, by simpa [hasUnescaped] using hb⟩
    simp only [List.mem_cons, not_or]
    exact ⟨by decide, hd.symm, hn⟩

/-- A character that is no backslash stands for itself. -/
theorem enclosed_cons_iff {c : Char} (hc : c ≠ '\\') :
    Enclosed quote (c :: content) ↔ c ≠ quote ∧ c ≠ '\n' ∧ Enclosed quote content := by
  cases content with
  | nil =>
    constructor
    · rintro ⟨hn, -, hb⟩
      refine ⟨by simpa [hasUnescaped, hc] using hb, ?_, .nil⟩
      rintro rfl
      simp at hn
    · rintro ⟨hq, hn, -⟩
      exact ⟨by simpa using hn.symm, by simpa [endsEscaped] using hc, by simp [hasUnescaped, hq]⟩
  | cons d ds =>
    constructor
    · rintro ⟨hn, he, hb⟩
      simp only [endsEscaped, hasUnescaped, hc, if_false, Bool.or_eq_false_iff] at he hb
      simp only [List.mem_cons, not_or] at hn
      exact ⟨by simpa using hb.1, fun h ↦ hn.1 h.symm, by simpa using hn.2, he, hb.2⟩
    · rintro ⟨hq, hn, hds⟩
      refine ⟨?_, by simpa [endsEscaped, hc] using hds.closed, ?_⟩
      · rw [List.mem_cons, not_or]
        exact ⟨hn.symm, hds.newline⟩
      · simpa [hasUnescaped, hc, hq] using hds.bare

/-- A backslash at the very end escapes nothing. -/
theorem not_enclosed_backslash : ¬ Enclosed quote ['\\'] :=
  fun h ↦ absurd h.closed (by decide)

/-! ## Reading up to the quote -/

/-- What can stand between quotes is read off in front of its quote. -/
theorem stringText?_of_enclosed (hq : quote ≠ '\n') (hb : quote ≠ '\\') :
    ∀ {content : List Char}, Enclosed quote content → ∀ rest,
      stringText? quote (content ++ quote :: rest) = some content
  | [], _, [] => by simp [stringText?]
  | [], _, d :: rest => by simp [stringText?]
  | [c], h, rest => by
    have hc : c ≠ '\\' := by rintro rfl; exact not_enclosed_backslash h
    obtain ⟨hcq, hcn, -⟩ := (enclosed_cons_iff hc).mp h
    have ih := stringText?_of_enclosed hq hb Enclosed.nil rest
    rw [List.nil_append] at ih
    simp [stringText?, hcq, hcn, hc, ih]
  | c :: d :: ds, h, rest => by
    by_cases hc : c = '\\'
    · subst hc
      obtain ⟨hd, hds⟩ := enclosed_escape_iff.mp h
      simp [stringText?, hb.symm, hd, stringText?_of_enclosed hq hb hds rest]
    · obtain ⟨hcq, hcn, hds⟩ := (enclosed_cons_iff hc).mp h
      have ih := stringText?_of_enclosed hq hb hds rest
      rw [List.cons_append] at ih
      simp [stringText?, hcq, hcn, hc, ih]

/-- What is read off can stand between quotes, and the quote follows it. -/
theorem enclosed_of_stringText? (hq : quote ≠ '\n')
    (h : stringText? quote cs = some content) :
    Enclosed quote content ∧ ∃ rest, cs = content ++ quote :: rest := by
  fun_induction stringText? quote cs generalizing content with
  | case1 => cases h
  | case2 => cases h; exact ⟨.nil, [], rfl⟩
  | case3 c hc => cases h
  | case4 d cs => cases h; exact ⟨.nil, d :: cs, rfl⟩
  | case5 d cs hn => cases h
  | case6 c d cs hcq hcn hesc ih =>
    obtain ⟨text, htext, rfl⟩ := Option.map_eq_some_iff.mp h
    obtain ⟨henc, rest, rfl⟩ := ih htext
    obtain ⟨rfl, hd⟩ := hesc
    exact ⟨enclosed_escape_iff.mpr ⟨hd, henc⟩, rest, rfl⟩
  | case7 c d cs hcq hcn hesc ih =>
    obtain ⟨text, htext, rfl⟩ := Option.map_eq_some_iff.mp h
    obtain ⟨henc, rest, hrest⟩ := ih htext
    have hc : c ≠ '\\' := by
      -- a backslash that ends a line is no escape, and the string does not go on behind it
      rintro rfl
      obtain rfl : d = '\n' := by simpa using hesc
      cases text with
      | nil => exact hq (by simpa using (List.cons.inj hrest).1.symm)
      | cons e es =>
        obtain ⟨rfl, -⟩ := List.cons.inj hrest
        exact henc.newline (by simp)
    exact ⟨(enclosed_cons_iff hc).mpr ⟨hcq, hcn, henc⟩, rest, by rw [hrest]; rfl⟩

/-! ## The quotes that are chosen -/

/-- The quotes that are chosen are quotes. -/
theorem isQuote_quoteFor (content : List Char) : isQuote (quoteFor content) := by
  unfold quoteFor
  split <;> rfl

/-- What can stand between quotes of one sort can stand between those that are chosen for it. -/
theorem Enclosed.quoteFor (hq : isQuote quote) (h : Enclosed quote content) :
    Enclosed (ProtoSchema.quoteFor content) content := by
  refine ⟨h.newline, h.closed, ?_⟩
  unfold ProtoSchema.quoteFor
  split
  · rename_i hdouble
    simp only [isQuote, Bool.or_eq_true, beq_iff_eq] at hq
    rcases hq with rfl | rfl
    · exact absurd hdouble (by simp [h.bare])
    · exact h.bare
  · rename_i hdouble
    simpa using hdouble

end ProtoSchema
