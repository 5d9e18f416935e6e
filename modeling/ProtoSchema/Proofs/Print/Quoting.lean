import Mathlib.Algebra.Ring.Parity
import Mathlib.Data.List.DropRight
import ProtoSchema.Proofs.Grammar.WellFormed
import ProtoSchema.Proofs.Token.Lexing

/-!
# Which texts can be written between quotes

The quotes that `quoted` puts around a text do not always keep it together.  Whether they do is a
matter of where the text has backslashes: `Escapes` counts those at the end of what is in front of a
place, and neither the scanner nor the choice of the quotes ever counts.  Both go from the left, one
or two characters at a time, and what they remember is whether the count is odd (`endsEscaped_iff`,
`hasUnescaped_iff`).

With that the texts that come back from a scan are told apart without scanning (`scan_quoted_iff`).

## What is here

* `Escapes` — an odd number of backslashes at the end of a text, so that what follows is escaped.
* `HasBare` — the quote stands somewhere without being escaped.
* `endsEscaped_iff`, `hasUnescaped_iff` — the two functions of the program in these terms.  A text
  is taken apart at its *end* for the first one, which is where backslashes are counted, although
  the function itself recurses from the left.
* `quotable_iff` — no newline, no dangling backslash, and one sort of quotes that is not bare.
* `scan_quoted`, `quotable_of_scan` — such a text comes back, and only such texts ever come.
* `scan_quoted_iff` — both directions for every text at all, with one token and the end as the scan.
-/

set_option autoImplicit false

namespace ProtoSchema

variable {quote c : Char} {cs content : List Char}

/-! ## Escapes -/

/-- What follows the text is escaped: the backslashes that the text ends in are odd in number. -/
def Escapes (front : List Char) : Prop := Odd (front.rtakeWhile (· == '\\')).length

/-- The quote stands in the text, and no backslash escapes it. -/
def HasBare (quote : Char) (content : List Char) : Prop :=
  ∃ front back, content = front ++ quote :: back ∧ ¬Escapes front

/-- One character further: a backslash escapes if it is not escaped itself. -/
theorem escapes_concat : Escapes (cs ++ [c]) ↔ c = '\\' ∧ ¬Escapes cs := by
  by_cases hc : c = '\\'
  · rw [Escapes, List.rtakeWhile_concat_pos _ _ _ (by simpa only [beq_iff_eq] using hc),
      List.length_append, List.length_singleton, Nat.odd_add_one]
    exact (and_iff_right hc).symm
  · rw [Escapes, List.rtakeWhile_concat_neg _ _ _ (by simpa only [beq_iff_eq] using hc)]
    exact ⟨fun h ↦ absurd h Nat.not_odd_zero, fun h ↦ absurd h.1 hc⟩

/-- One character further: only a backslash escapes, and only if it is not escaped itself. -/
theorem endsEscaped_concat : endsEscaped (cs ++ [c]) = (c == '\\' && !endsEscaped cs) := by
  -- a backslash is passed together with what it escapes, which in `case2` can be the new character
  fun_induction endsEscaped cs with
  | case1 => simp [endsEscaped]
  | case2 d =>
    show (if d = '\\' then endsEscaped [] else endsEscaped [c]) = _
    by_cases hd : d = '\\' <;> simp [endsEscaped, hd]
  | case3 d cs ih => exact ih
  | case4 d e cs hd ih => exact (if_neg hd).trans ih

/-- Going from the left, the parity of the backslashes at the end is remembered. -/
theorem endsEscaped_iff : endsEscaped cs ↔ Escapes cs := by
  induction cs using List.reverseRecOn with
  | nil => exact iff_of_false Bool.false_ne_true Nat.not_odd_zero
  | append_singleton cs c ih =>
    rw [endsEscaped_concat, escapes_concat, ← ih, Bool.and_eq_true, beq_iff_eq, Bool.not_eq_true',
      Bool.not_eq_true]

/-- Looking for a quote from the left finds one exactly if one is bare. -/
theorem hasUnescaped_iff (hquote : quote ≠ '\\') :
    hasUnescaped quote content ↔ HasBare quote content := by
  rw [← not_iff_not, Bool.not_eq_true, hasUnescaped_eq_false_iff hquote, HasBare]
  simp only [endsEscaped_iff, not_exists, not_and, not_not]

/-- Which texts can be quoted, said with the count of backslashes. -/
theorem quotable_iff (raw : String) :
    Quotable raw ↔ '\n' ∉ raw.toList ∧ ¬Escapes raw.toList ∧
      ¬(HasBare '"' raw.toList ∧ HasBare '\'' raw.toList) := by
  rw [← endsEscaped_iff, ← hasUnescaped_iff (by decide), ← hasUnescaped_iff (by decide),
    Bool.not_eq_true]
  exact ⟨fun ⟨hline, hclosed, hbare⟩ ↦ ⟨hline, hclosed, hbare⟩,
    fun ⟨hline, hclosed, hbare⟩ ↦ ⟨hline, hclosed, hbare⟩⟩

/-! ## Scanning what is written -/

theorem toList_quoted (raw : String) :
    (quoted raw).toList = quoteFor raw.toList :: (raw.toList ++ [quoteFor raw.toList]) := by
  simp [quoted]

theorem pieceAt_quoted {text : List Char} (hquote : isQuote quote)
    (h : stringText? quote cs = some text) : pieceAt quote cs =
      .ok (some ⟨.string, text ++ [quote], some (.text (String.ofList text))⟩) := by
  rw [pieceAt_of_isQuote hquote, stringPiece, h]
  rfl

/-- A text that can be quoted is scanned as the one string that it is. -/
theorem scan_quoted {raw : String} (h : Quotable raw) :
    scan (quoted raw) = .ok (Symbol.quoted raw).alone := by
  have hquote := isQuote_quoteFor raw.toList
  obtain ⟨hline, hback⟩ := isQuote_ne hquote
  have hpiece := pieceAt_quoted hquote (stringText?_of_enclosed hline hback h.enclosed [])
  rw [String.ofList_toList] at hpiece
  have hscan := scan_of_pieceAt
    (p := ⟨.string, raw.toList ++ [quoteFor raw.toList], some (.text raw)⟩) hpiece
  rw [← toList_quoted, String.ofList_toList] at hscan
  rw [hscan, Symbol.quoted, Piece.symbol, ← toList_quoted, String.ofList_toList]

/-- Whatever a scan says is a string can be quoted again. -/
theorem quotable_of_scan {text raw : String} {tokens : List Token} (h : scan text = .ok tokens)
    {t : Token} (ht : t ∈ tokens) (hk : t.kind = .string) (hv : t.value? = some (.text raw)) :
    Quotable raw := by
  obtain ⟨ts, rfl, htiled⟩ := tiled_of_scanFrom h
  rcases List.mem_append.mp ht with hmem | hend
  · exact (htiled.standsIn t hmem).genuine.quotable hk (by rw [Symbol.text?, hv])
  · rw [List.mem_singleton.mp hend] at hk
    cases hk

/-- **A text comes back from between its quotes** as the one token of a scan exactly if it has no
newline, does not end in an escape and does not have quotes of both sorts that nothing escapes. -/
theorem scan_quoted_iff (raw : String) :
    (∃ t e : Token, scan (quoted raw) = .ok [t, e] ∧ t.kind = .string ∧
        t.value? = some (.text raw) ∧ e.kind = .eof) ↔
      '\n' ∉ raw.toList ∧ ¬Escapes raw.toList ∧
        ¬(HasBare '"' raw.toList ∧ HasBare '\'' raw.toList) := by
  rw [← quotable_iff]
  constructor
  · rintro ⟨t, e, hscan, hstring, hvalue, -⟩
    exact quotable_of_scan hscan List.mem_cons_self hstring hvalue
  · intro h
    exact ⟨_, _, scan_quoted h, rfl, rfl, rfl⟩

end ProtoSchema
