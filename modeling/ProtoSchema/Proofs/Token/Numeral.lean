import ProtoSchema.Proofs.Token.Scans

/-!
# Where a numeral ends

`Numeral.read` takes as much of a text as goes on with the numeral, and what it takes is the same
whatever stands behind it, as long as that does not go on with the numeral.  For decimal numerals
this is `Numeral.read_decimal`; it serves where numbers are written and read back.

The other question is what a numeral that stands in a text is by itself, without the text behind it.
That is the same numeral again (`Numeral.read_text`), but for one case.  A zero and octal digits are
a numeral in base eight, and a letter `e` behind them makes the numeral a decimal one even if no
exponent follows and the letter is no part of it (`Numeral.CutShort`).

## What is here

* `not_of_closes` and the lemmas behind it — what the characters that end a numeral are not.
* `Exponent.Formed` — an exponent that a text can have.  The type allows others, with a letter that
  is none or without digits.
* `Numeral.decimalFrom_eq`, `Numeral.read_decimal` — reading a numeral whose parts are given.  The
  condition that only digits that are no octal ones follow a zero at the beginning keeps the octal
  form out.
* `Numeral.decimalFrom_parts`, `Numeral.hexadecimal?_eq_some`, `Numeral.octal?_eq_some` — the other
  way round, the parts of a numeral that was read.
* `Numeral.CutShort` — the exception.
* `Numeral.read_text_hexadecimal`, `Numeral.read_text_octal`, `Numeral.read_text_decimal` — a
  numeral by itself, one lemma for each form, and `Numeral.read_text`, which puts them together and
  says what happens in the exception.
-/

set_option autoImplicit false

namespace ProtoSchema

-- Powers are those of the core library, whatever else is imported.
attribute [local instance(high)] instPowNat

/-! ## The characters behind a numeral -/

/-- What ends a token goes on with no numeral. -/
theorem not_of_closes {c : Char} (h : closes c) :
    ¬c.isDigit ∧ c ≠ '.' ∧ c ≠ 'e' ∧ c ≠ 'E' ∧ c ≠ 'x' ∧ c ≠ 'X' := by
  simp only [closes, Bool.and_eq_true, Bool.not_eq_true', bne_iff_ne] at h
  obtain ⟨⟨hword, hdot⟩, -⟩ := h
  refine ⟨?_, hdot, ?_, ?_, ?_, ?_⟩
  · intro hdigit
    simp [isWordPart, Char.isAlphanum, hdigit] at hword
  all_goals
    rintro rfl
    exact absurd hword (by decide)

theorem not_of_isDigit {c : Char} (h : c.isDigit) : ¬isBlank c ∧ c ≠ '/' ∧ ¬isQuote c := by
  refine ⟨fun hc ↦ ?_, fun hc ↦ ?_, fun hc ↦ ?_⟩
  · simp only [isBlank, Bool.or_eq_true, beq_iff_eq] at hc
    rcases hc with ((rfl | rfl) | rfl) | rfl <;> exact absurd h (by decide)
  · subst hc
    exact absurd h (by decide)
  · simp only [isQuote, Bool.or_eq_true, beq_iff_eq] at hc
    rcases hc with rfl | rfl <;> exact absurd h (by decide)

theorem pieceAt_of_isDigit {c : Char} (hdigit : c.isDigit) (cs : List Char) :
    pieceAt c cs = some <$> numberPiece c cs := by
  obtain ⟨hblank, hslash, hquote⟩ := not_of_isDigit hdigit
  rw [pieceAt, if_neg hblank, if_neg hslash, if_neg hquote, if_pos hdigit]

theorem isDigit_of_isOctalDigit {c : Char} (h : isOctalDigit c) : c.isDigit := by
  simp only [isOctalDigit, Bool.and_eq_true, decide_eq_true_eq, Char.le_def] at h
  simp only [Char.isDigit, Bool.and_eq_true, decide_eq_true_eq]
  exact ⟨h.1, UInt32.le_trans h.2 (show '7'.val ≤ 57 by decide)⟩

theorem not_isOctalDigit_of_not_isDigit {c : Char} (h : ¬c.isDigit) : ¬isOctalDigit c :=
  fun hoctal ↦ h (isDigit_of_isOctalDigit hoctal)

/-- The digits that are not octal ones. -/
theorem eq_of_isDigit_of_not_isOctalDigit {c : Char} (h : c.isDigit) (hoctal : ¬isOctalDigit c) :
    c = '8' ∨ c = '9' := by
  simp only [Char.isDigit, Bool.and_eq_true, decide_eq_true_eq, UInt32.le_iff_toNat_le] at h
  simp only [isOctalDigit, Bool.and_eq_true, decide_eq_true_eq, Char.le_def, not_and,
    UInt32.le_iff_toNat_le] at hoctal
  have hlt : ¬c.val.toNat ≤ 55 := hoctal h.1
  have hle : c.val.toNat ≤ 57 := h.2
  have hval : c.val.toNat = 56 ∨ c.val.toNat = 57 := by omega
  rcases hval with hval | hval
  · exact .inl (Char.ext (UInt32.toNat_inj.mp hval))
  · exact .inr (Char.ext (UInt32.toNat_inj.mp hval))

theorem dropWhile_append_of_head {p : Char → Bool} {cs rest : List Char} (hcs : ∀ c ∈ cs, p c)
    (hrest : ∀ c ∈ rest.head?, ¬p c) : (cs ++ rest).dropWhile p = rest := by
  rw [List.dropWhile_append_of_pos hcs]
  cases rest with
  | nil => rfl
  | cons c rest => rw [List.dropWhile_cons_of_neg (hrest c rfl)]

theorem not_of_head?_dropWhile {p : Char → Bool} {cs : List Char} :
    ∀ c ∈ (cs.dropWhile p).head?, ¬p c := by
  intro c hc
  have hnot := List.head?_dropWhile_not p cs
  rw [Option.mem_def.mp hc] at hnot
  simpa using hnot

/-! ## Reading a decimal numeral -/

/-- An exponent as it stands in a numeral. -/
structure Exponent.Formed (e : Exponent) : Prop where
  letter : e.letter = 'e' ∨ e.letter = 'E'
  sign : ∀ c ∈ e.sign?, isSign c
  digits : ∀ c ∈ e.digits, c.isDigit
  digits_ne_nil : e.digits ≠ []

/-- An exponent that is read is formed as it should be. -/
theorem Exponent.formed_of_read? {cs : List Char} {e : Exponent} (h : read? cs = some e) :
    e.Formed := by
  cases cs with
  | nil => cases h
  | cons letter cs =>
    rw [read?] at h
    split at h
    · rename_i hletter
      dsimp only at h
      split at h
      · cases h
      · rename_i hdigits
        obtain rfl := Option.some.inj h
        refine ⟨hletter, fun c hc ↦ (Option.filter_eq_some_iff.mp hc).2, fun c hc ↦ ?_, ?_⟩
        · exact List.mem_takeWhile_imp hc
        · simpa using hdigits
    · cases h

/-- An exponent is read up to its end in front of what is no digit. -/
theorem Exponent.read?_of_formed {e : Exponent} (h : e.Formed) {rest : List Char}
    (hrest : ∀ c ∈ rest.head?, ¬c.isDigit) : read? (e.text ++ rest) = some e := by
  obtain ⟨letter, sign?, digits⟩ := e
  obtain ⟨hletter, hsign, hdigits, hne⟩ := h
  have htake : (digits ++ rest).takeWhile Char.isDigit = digits :=
    takeWhile_append_of_head hdigits hrest
  have hempty : digits.isEmpty = false := by simpa using hne
  have hhead : (sign?.toList ++ (digits ++ rest)).head?.filter isSign = sign? := by
    cases sign? with
    | some c => exact Option.filter_eq_some_iff.mpr ⟨rfl, hsign c rfl⟩
    | none =>
      cases digits with
      | nil => exact absurd rfl hne
      | cons d ds =>
        have hd : isSign d = false := by
          have := hdigits d List.mem_cons_self
          simp only [isSign, Bool.or_eq_false_iff, beq_eq_false_iff_ne]
          constructor <;> rintro rfl <;> exact absurd this (by decide)
        simp [Option.filter, hd]
  rw [text, List.cons_append, List.cons_append, List.append_assoc, read?]
  simp only [hletter, if_true, hhead, List.drop_left, htake, hempty, Bool.false_eq_true, if_false]

namespace Numeral

section Behind

variable {c : Char} {whole rest : List Char} {fraction? : Option (List Char)}
  {exponent? : Option Exponent}

theorem head?_exponentText (he : ∀ e ∈ exponent?, e.Formed) :
    ∀ d ∈ (exponentText exponent?).head?, d = 'e' ∨ d = 'E' := by
  cases exponent? with
  | none => nofun
  | some e =>
    rintro _ ⟨⟩
    exact (he e rfl).letter

/-- What follows the digits of a decimal numeral. -/
theorem head?_behind_whole (he : ∀ e ∈ exponent?, e.Formed) (hrest : ∀ c ∈ rest.head?, closes c) :
    ∀ d ∈ (fractionText fraction? ++ (exponentText exponent? ++ rest)).head?,
      ¬d.isDigit ∧ d ≠ 'x' ∧ d ≠ 'X' := by
  cases fraction? with
  | some ds =>
    rintro _ ⟨⟩
    decide
  | none =>
    cases exponent? with
    | some e =>
      intro d hd
      rcases head?_exponentText he d hd with rfl | rfl <;> decide
    | none =>
      intro d hd
      obtain ⟨hdigit, -, -, -, hx, hX⟩ := not_of_closes (hrest d hd)
      exact ⟨hdigit, hx, hX⟩

theorem head?_behind_fraction (he : ∀ e ∈ exponent?, e.Formed)
    (hrest : ∀ c ∈ rest.head?, closes c) :
    ∀ d ∈ (exponentText exponent? ++ rest).head?, ¬d.isDigit ∧ d ≠ '.' := by
  cases exponent? with
  | some e =>
    intro d hd
    rcases head?_exponentText he d hd with rfl | rfl <;> decide
  | none =>
    intro d hd
    obtain ⟨hdigit, hdot, -⟩ := not_of_closes (hrest d hd)
    exact ⟨hdigit, hdot⟩

/-- A fraction is read up to its end in front of what is no digit. -/
theorem fraction?_append (hf : ∀ ds ∈ fraction?, ∀ d ∈ ds, d.isDigit)
    (hrest : ∀ d ∈ rest.head?, ¬d.isDigit ∧ d ≠ '.') :
    Numeral.fraction? (fractionText fraction? ++ rest) = fraction? := by
  cases fraction? with
  | some ds =>
    have htake : (ds ++ rest).takeWhile Char.isDigit = ds :=
      takeWhile_append_of_head (hf ds rfl) fun d hd ↦ (hrest d hd).1
    simp [fractionText, Numeral.fraction?, htake]
  | none =>
    cases rest with
    | nil => rfl
    | cons d rest =>
      rw [fractionText, List.nil_append]
      unfold Numeral.fraction?
      split
      · rename_i heq
        exact absurd (List.cons.inj heq).1 (hrest d rfl).2
      · rfl

theorem read?_exponentText (he : ∀ e ∈ exponent?, e.Formed) (hrest : ∀ c ∈ rest.head?, closes c) :
    Exponent.read? (exponentText exponent? ++ rest) = exponent? := by
  cases exponent? with
  | some e => exact Exponent.read?_of_formed (he e rfl) fun d hd ↦ (not_of_closes (hrest d hd)).1
  | none =>
    cases rest with
    | nil => rfl
    | cons d rest =>
      obtain ⟨-, -, he, hE, -⟩ := not_of_closes (hrest d rfl)
      simp [exponentText, Exponent.read?, he, hE]

/-- The digits of a decimal numeral are read up to its end. -/
theorem decimalFrom_eq (c : Char) (hwhole : ∀ d ∈ whole, d.isDigit)
    (hf : ∀ ds ∈ fraction?, ∀ d ∈ ds, d.isDigit) (he : ∀ e ∈ exponent?, e.Formed)
    (hrest : ∀ c ∈ rest.head?, closes c) :
    decimalFrom c (whole ++ (fractionText fraction? ++ (exponentText exponent? ++ rest))) =
      decimal (c :: whole) fraction? exponent? := by
  have hbehind : ∀ d ∈ (fractionText fraction? ++ (exponentText exponent? ++ rest)).head?,
      ¬d.isDigit ∧ d ≠ 'x' ∧ d ≠ 'X' := head?_behind_whole he hrest
  generalize hcs : fractionText fraction? ++ (exponentText exponent? ++ rest) = cs at hbehind
  have htake : (whole ++ cs).takeWhile Char.isDigit = whole :=
    takeWhile_append_of_head hwhole fun d hd ↦ (hbehind d hd).1
  have hdrop : (whole ++ cs).dropWhile Char.isDigit = cs :=
    dropWhile_append_of_head hwhole fun d hd ↦ (hbehind d hd).1
  have hfraction : Numeral.fraction? cs = fraction? := by
    rw [← hcs]
    exact fraction?_append hf (head?_behind_fraction he hrest)
  have hexponent : Exponent.read? (cs.drop (fractionText fraction?).length) = exponent? := by
    rw [← hcs, List.drop_left]
    exact read?_exponentText he hrest
  simp only [decimalFrom, htake, hdrop, hfraction, hexponent]

/-- **A decimal numeral is read up to its end**, if it begins with a zero only when that is all of
its whole part. -/
theorem read_decimal (hwhole : ∀ d ∈ whole, d.isDigit) (hzero : c = '0' → whole = [])
    (hf : ∀ ds ∈ fraction?, ∀ d ∈ ds, d.isDigit)
    (he : ∀ e ∈ exponent?, e.Formed) (hrest : ∀ c ∈ rest.head?, closes c) :
    read c (whole ++ (fractionText fraction? ++ (exponentText exponent? ++ rest))) =
      decimal (c :: whole) fraction? exponent? := by
  have hdecimal := decimalFrom_eq c hwhole hf he hrest
  have hbehind : ∀ d ∈ (fractionText fraction? ++ (exponentText exponent? ++ rest)).head?,
      ¬d.isDigit ∧ d ≠ 'x' ∧ d ≠ 'X' := head?_behind_whole he hrest
  generalize fractionText fraction? ++ (exponentText exponent? ++ rest) = cs at hbehind hdecimal
  have hhex : hexadecimal? c (whole ++ cs) = none := by
    by_cases hc0 : c = '0'
    · obtain rfl := hzero hc0
      cases cs with
      | nil => rfl
      | cons d cs =>
        obtain ⟨-, hx, hX⟩ := hbehind d rfl
        simp [hexadecimal?, hx, hX]
    · cases hall : whole ++ cs with
      | nil => rfl
      | cons d ds => simp [hexadecimal?, hc0]
  have hoctal : octal? c (whole ++ cs) = none := by
    by_cases hc0 : c = '0'
    · obtain rfl := hzero hc0
      have htake : (([] : List Char) ++ cs).takeWhile isOctalDigit = [] :=
        takeWhile_append_of_head (by simp) fun d hd ↦
          not_isOctalDigit_of_not_isDigit (hbehind d hd).1
      simp only [octal?, htake]
      simp
    · simp [octal?, hc0]
  rw [read, hhex, hoctal, Option.or_none, Option.getD_none, hdecimal]

end Behind

/-! ## A numeral by itself -/

/-- A zero and octal digits, directly in front of a letter `e`. -/
structure CutShort (lexeme behind : List Char) : Prop where
  octal : ∃ digits, lexeme = '0' :: digits ∧ digits ≠ [] ∧ ∀ d ∈ digits, isOctalDigit d
  letter : ∃ d ∈ behind.head?, d = 'e' ∨ d = 'E'

variable {c : Char} {cs tail rest : List Char} {x : Numeral}

/-- The parts of a hexadecimal numeral that is read. -/
theorem hexadecimal?_eq_some (h : hexadecimal? c cs = some x) :
    ∃ letter digits, x = hexadecimal letter digits ∧ c = '0' ∧ (letter = 'x' ∨ letter = 'X') ∧
      digits ≠ [] ∧ ∀ d ∈ digits, isHexDigit d := by
  cases cs with
  | nil => cases h
  | cons letter cs =>
    rw [hexadecimal?] at h
    split at h
    · rename_i hcond
      obtain rfl := Option.some.inj h
      exact ⟨letter, _, rfl, hcond.1, hcond.2.1, hcond.2.2, fun d hd ↦ List.mem_takeWhile_imp hd⟩
    · cases h

/-- The parts of an octal numeral that is read, and what does not follow it. -/
theorem octal?_eq_some (h : octal? c cs = some x) :
    ∃ digits, x = octal digits ∧ c = '0' ∧ digits ≠ [] ∧ (∀ d ∈ digits, isOctalDigit d) ∧
      ∃ behind, cs = digits ++ behind ∧ ∀ d ∈ behind.head?, ¬continuesDecimal d := by
  rw [octal?] at h
  split at h
  · rename_i hcond
    obtain rfl := Option.some.inj h
    refine ⟨_, rfl, hcond.1, hcond.2.1, fun d hd ↦ List.mem_takeWhile_imp hd, _,
      List.takeWhile_append_dropWhile.symm, fun d hd hcontinues ↦ hcond.2.2 ?_⟩
    rw [Option.mem_def.mp hd]
    exact hcontinues
  · cases h

/-- The parts of a decimal numeral in a text. -/
theorem decimalFrom_parts (c : Char) (cs : List Char) :
    ∃ whole fraction? exponent?, decimalFrom c cs = decimal (c :: whole) fraction? exponent? ∧
      (∀ d ∈ whole, d.isDigit) ∧ (∀ ds ∈ fraction?, ∀ d ∈ ds, d.isDigit) ∧
      ∀ e ∈ exponent?, e.Formed := by
  refine ⟨_, _, _, rfl, fun d hd ↦ List.mem_takeWhile_imp hd, fun ds hds d hd ↦ ?_,
    fun e he ↦ Exponent.formed_of_read? he⟩
  unfold Numeral.fraction? at hds
  split at hds
  · obtain rfl := Option.some.inj hds
    exact List.mem_takeWhile_imp hd
  · cases hds

theorem hexadecimal?_of_head (h : ∀ d ∈ cs.head?, d ≠ 'x' ∧ d ≠ 'X') :
    hexadecimal? c cs = none := by
  cases cs with
  | nil => rfl
  | cons d cs =>
    obtain ⟨hx, hX⟩ := h d rfl
    simp [hexadecimal?, hx, hX]

/-- A numeral that could be an octal one, cut into its digits and the rest. -/
theorem octal?_whole (c : Char) {whole : List Char} (behind : List Char)
    (hwhole : ∀ d ∈ whole, d.isDigit) (hbehind : ∀ d ∈ behind.head?, ¬d.isDigit) :
    octal? c (whole ++ behind) =
      if c = '0' ∧ whole ≠ [] ∧ whole.all isOctalDigit ∧ ¬behind.head?.any continuesDecimal
      then some (octal whole) else none := by
  by_cases hall : ∀ d ∈ whole, isOctalDigit d
  · have hstop : ∀ d ∈ behind.head?, ¬isOctalDigit d := fun d hd ↦
      not_isOctalDigit_of_not_isDigit (hbehind d hd)
    rw [octal?, takeWhile_append_of_head hall hstop, dropWhile_append_of_head hall hstop]
    refine if_congr ?_ rfl rfl
    rw [and_congr_right_iff]
    exact fun _ ↦ and_congr_right fun _ ↦ (and_iff_right (List.all_eq_true.mpr hall)).symm
  · -- The first other digit is an eight or a nine, which makes the numeral a decimal one.
    have hne : whole.dropWhile isOctalDigit ≠ [] := by simpa using hall
    obtain ⟨d, ds, hdrop⟩ := List.exists_cons_of_ne_nil hne
    have hoctal : ¬isOctalDigit d := not_of_head?_dropWhile d (by rw [hdrop]; rfl)
    have hmem : d ∈ whole := (List.dropWhile_suffix isOctalDigit).subset (by simp [hdrop])
    have hcontinues : ((whole ++ behind).dropWhile isOctalDigit).head?.any continuesDecimal := by
      rw [List.dropWhile_append, hdrop]
      rcases eq_of_isDigit_of_not_isOctalDigit (hwhole d hmem) hoctal with rfl | rfl <;> rfl
    rw [octal?, if_neg fun h ↦ h.2.2 hcontinues, if_neg fun h ↦ hall (List.all_eq_true.mp h.2.2.1)]

/-! What is read is the first form that fits. -/

theorem read_of_hexadecimal? (h : hexadecimal? c cs = some x) : read c cs = x := by
  rw [read, h, Option.some_or, Option.getD_some]

theorem read_of_octal? (hhex : hexadecimal? c cs = none) (h : octal? c cs = some x) :
    read c cs = x := by
  rw [read, hhex, h, Option.none_or, Option.getD_some]

theorem read_of_none (hhex : hexadecimal? c cs = none) (h : octal? c cs = none) :
    read c cs = decimalFrom c cs := by
  rw [read, hhex, h, Option.none_or, Option.getD_none]

theorem CutShort.isOctalDigit (h : CutShort (c :: tail) rest) :
    c = '0' ∧ tail ≠ [] ∧ ∀ d ∈ tail, ProtoSchema.isOctalDigit d := by
  obtain ⟨digits, hdigits, hne, hoctal⟩ := h.octal
  obtain ⟨rfl, rfl⟩ := List.cons.inj hdigits
  exact ⟨rfl, hne, hoctal⟩

/-- In a larger base the same digits are a larger number. -/
theorem ofDigits_le_ofDigits {base base' : Nat} (h : base ≤ base') (digits : List Char) :
    ofDigits base digits ≤ ofDigits base' digits := by
  suffices hfold : ∀ m m', m ≤ m' → digits.foldl (fun n c ↦ base * n + digitValue c) m ≤
      digits.foldl (fun n c ↦ base' * n + digitValue c) m' from hfold 0 0 (Nat.le_refl 0)
  induction digits with
  | nil => exact fun m m' hm ↦ hm
  | cons c cs ih =>
    exact fun m m' hm ↦ ih _ _ (Nat.add_le_add_right (Nat.mul_le_mul h hm) _)

/-- Digits alone are no hexadecimal numeral, which has a letter in the second place. -/
theorem hexadecimal?_of_digits (h : ∀ d ∈ tail, d.isDigit) : hexadecimal? c tail = none := by
  refine hexadecimal?_of_head fun d hd ↦ ?_
  have hdigit := h d (List.mem_of_mem_head? hd)
  constructor <;> rintro rfl <;> exact absurd hdigit (by decide)

/-- A hexadecimal numeral by itself is that numeral. -/
theorem read_text_hexadecimal (hx : hexadecimal? c (tail ++ rest) = some x)
    (h : x.text = c :: tail) : read c tail = x ∧ ¬CutShort (c :: tail) rest := by
  obtain ⟨letter, digits, rfl, rfl, hletter, hne, hdigits⟩ := hexadecimal?_eq_some hx
  obtain rfl : letter :: digits = tail := (List.cons.inj h).2
  constructor
  · apply read_of_hexadecimal?
    rw [hexadecimal?, List.takeWhile_eq_self_iff.mpr hdigits]
    exact if_pos ⟨rfl, hletter, hne⟩
  · intro hcut
    have hdigit := hcut.isOctalDigit.2.2 letter List.mem_cons_self
    rcases hletter with rfl | rfl <;> exact absurd hdigit (by decide)

theorem read_octal {digits : List Char} (hne : digits ≠ []) (h : ∀ d ∈ digits, isOctalDigit d) :
    read '0' digits = octal digits := by
  have hdigits : ∀ d ∈ digits, d.isDigit := fun d hd ↦ isDigit_of_isOctalDigit (h d hd)
  refine read_of_octal? (hexadecimal?_of_digits hdigits) ?_
  have hwhole := octal?_whole '0' [] hdigits (by simp)
  rwa [List.append_nil, if_pos ⟨rfl, hne, List.all_eq_true.mpr h, by simp⟩] at hwhole

/-- An octal numeral by itself is that numeral. -/
theorem read_text_octal (hx : octal? c (tail ++ rest) = some x) (h : x.text = c :: tail) :
    read c tail = x ∧ ¬CutShort (c :: tail) rest := by
  obtain ⟨digits, rfl, rfl, hne, hdigits, behind, hsplit, hbehind⟩ := octal?_eq_some hx
  obtain rfl : digits = tail := (List.cons.inj h).2
  obtain rfl : rest = behind := List.append_cancel_left hsplit
  refine ⟨read_octal hne hdigits, fun hcut ↦ ?_⟩
  obtain ⟨d, hd, hletter⟩ := hcut.letter
  refine absurd ?_ (hbehind d hd)
  rcases hletter with rfl | rfl <;> rfl

/-- If nothing of a decimal numeral but its digits is there, what follows does not begin with a
digit or a point. -/
theorem head?_of_decimalFrom (h : decimalFrom c (tail ++ rest) = decimal (c :: tail) none none)
    (htail : ∀ d ∈ tail, d.isDigit) : ∀ d ∈ rest.head?, ¬d.isDigit ∧ d ≠ '.' := by
  obtain ⟨hwhole, hfraction, -⟩ := decimal.inj h
  intro d hd
  obtain ⟨ds, rfl⟩ := List.head?_eq_some_iff.mp hd
  have hdigit : ¬d.isDigit := by
    intro hdigit
    have hlen := congrArg List.length (List.cons.inj hwhole).2
    rw [List.takeWhile_append_of_pos htail, List.takeWhile_cons_of_pos hdigit] at hlen
    simp at hlen
  refine ⟨hdigit, ?_⟩
  rintro rfl
  rw [List.dropWhile_append_of_pos htail, List.dropWhile_cons_of_neg hdigit] at hfraction
  cases hfraction

/-- The case that nothing but digits is there. -/
theorem read_text_digits (hoctal : octal? c (tail ++ rest) = none)
    (h : decimalFrom c (tail ++ rest) = decimal (c :: tail) none none)
    (htail : ∀ d ∈ tail, d.isDigit) (hcut : ¬CutShort (c :: tail) rest) :
    read c tail = decimal (c :: tail) none none := by
  have hbehind := head?_of_decimalFrom h htail
  rw [octal?_whole c rest htail fun d hd ↦ (hbehind d hd).1] at hoctal
  have hself : octal? c tail = none := by
    have hwhole := octal?_whole c [] htail (by simp)
    rw [List.append_nil] at hwhole
    rw [hwhole, if_neg]
    rintro ⟨rfl, hne, hdigits, -⟩
    refine absurd hoctal (by rw [if_pos ⟨rfl, hne, hdigits, ?_⟩]; exact Option.some_ne_none _)
    intro hcontinues
    cases rest with
    | nil => cases hcontinues
    | cons d rest =>
      obtain ⟨hdigit, hdot⟩ := hbehind d rfl
      have hd : continuesDecimal d := hcontinues
      refine hcut ⟨⟨tail, rfl, hne, List.all_eq_true.mp hdigits⟩, d, rfl, ?_⟩
      simp only [continuesDecimal, Bool.or_eq_true, beq_iff_eq] at hd
      rcases hd with (((rfl | rfl) | rfl) | rfl) | rfl
      · exact absurd rfl hdot
      · exact .inl rfl
      · exact .inr rfl
      · exact absurd rfl hdigit
      · exact absurd rfl hdigit
  rw [read_of_none (hexadecimal?_of_digits htail) hself]
  have hdecimal : decimalFrom c (tail ++ (fractionText none ++ (exponentText none ++ []))) =
      decimal (c :: tail) none none := decimalFrom_eq c htail (by simp) (by simp) (by simp)
  rwa [fractionText, exponentText, List.append_nil, List.append_nil, List.append_nil] at hdecimal

/-- Digits are those of a decimal numeral if something else stands behind them that is no `x`,
unless they are an octal one. -/
theorem read_whole_append {whole after : List Char} {d : Char} (hwhole : ∀ e ∈ whole, e.isDigit)
    (hd : ¬d.isDigit ∧ d ≠ 'x' ∧ d ≠ 'X') (hoctal : octal? c (whole ++ d :: after ++ rest) = none) :
    read c (whole ++ d :: after) = decimalFrom c (whole ++ d :: after) := by
  obtain ⟨hdigit, hx, hX⟩ := hd
  have hhex : hexadecimal? c (whole ++ d :: after) = none := by
    refine hexadecimal?_of_head fun e he ↦ ?_
    cases whole with
    | nil =>
      obtain rfl := Option.some.inj he
      exact ⟨hx, hX⟩
    | cons a whole =>
      obtain rfl := Option.some.inj he
      have ha := hwhole a List.mem_cons_self
      constructor <;> rintro rfl <;> exact absurd ha (by decide)
  have hhead : ∀ e ∈ (d :: after).head?, ¬e.isDigit := by
    rintro _ ⟨⟩
    exact hdigit
  refine read_of_none hhex ?_
  rw [List.append_assoc, octal?_whole c (d :: after ++ rest) hwhole hhead] at hoctal
  rwa [octal?_whole c _ hwhole hhead]

/-- A decimal numeral by itself is that numeral, unless a letter has made it one. -/
theorem read_text_decimal (hhex : hexadecimal? c (tail ++ rest) = none)
    (hoctal : octal? c (tail ++ rest) = none)
    (h : (decimalFrom c (tail ++ rest)).text = c :: tail) :
    (¬CutShort (c :: tail) rest → read c tail = decimalFrom c (tail ++ rest)) ∧
      (CutShort (c :: tail) rest → decimalFrom c (tail ++ rest) =
        decimal (c :: tail) none none) := by
  obtain ⟨whole, fraction?, exponent?, hparts, hwhole, hf, he⟩ := decimalFrom_parts c (tail ++ rest)
  have htail : whole ++ (fractionText fraction? ++ exponentText exponent?) = tail := by
    rw [hparts, text, List.append_assoc] at h
    exact (List.cons.inj h).2
  have hbehind : ∀ d ∈ (fractionText fraction? ++ exponentText exponent?).head?,
      ¬d.isDigit ∧ d ≠ 'x' ∧ d ≠ 'X' := by
    have hhead : ∀ d ∈ (fractionText fraction? ++ (exponentText exponent? ++ [])).head?,
        ¬d.isDigit ∧ d ≠ 'x' ∧ d ≠ 'X' := head?_behind_whole he (by simp)
    rwa [List.append_nil] at hhead
  have hself : decimalFrom c tail = decimalFrom c (tail ++ rest) := by
    have hdecimal :
      decimalFrom c (whole ++ (fractionText fraction? ++ (exponentText exponent? ++ []))) =
        decimal (c :: whole) fraction? exponent? := decimalFrom_eq c hwhole hf he (by simp)
    rwa [List.append_nil, htail, ← hparts] at hdecimal
  by_cases hafter : fractionText fraction? ++ exponentText exponent? = []
  · obtain ⟨hfraction, hexponent⟩ := List.append_eq_nil_iff.mp hafter
    obtain rfl : fraction? = none := by cases fraction? <;> trivial
    obtain rfl : exponent? = none := by cases exponent? <;> trivial
    rw [hafter, List.append_nil] at htail
    subst htail
    exact ⟨fun hcut ↦ (read_text_digits hoctal hparts hwhole hcut).trans hparts.symm,
      fun _ ↦ hparts⟩
  · obtain ⟨d, after, hcons⟩ := List.exists_cons_of_ne_nil hafter
    have hd := hbehind d (by rw [hcons]; rfl)
    rw [hcons] at htail
    subst htail
    refine ⟨fun _ ↦ (read_whole_append hwhole hd hoctal).trans hself, fun hcut ↦ ?_⟩
    have hdigit := hcut.isOctalDigit.2.2 d (List.mem_append_right _ List.mem_cons_self)
    exact absurd (isDigit_of_isOctalDigit hdigit) hd.1

/-- **A numeral by itself is the same numeral**, unless it is cut short by a letter `e`; then it was
a decimal one, and is an octal one by itself. -/
theorem read_text (h : (read c (tail ++ rest)).text = c :: tail) :
    (¬CutShort (c :: tail) rest → read c tail = read c (tail ++ rest)) ∧
      (CutShort (c :: tail) rest →
        read c (tail ++ rest) = decimal (c :: tail) none none ∧ read c tail = octal tail) := by
  cases hhex : hexadecimal? c (tail ++ rest) with
  | some y =>
    rw [read_of_hexadecimal? hhex] at h ⊢
    obtain ⟨hread, hcut⟩ := read_text_hexadecimal hhex h
    exact ⟨fun _ ↦ hread, fun hc ↦ absurd hc hcut⟩
  | none =>
    cases hoctal : octal? c (tail ++ rest) with
    | some y =>
      rw [read_of_octal? hhex hoctal] at h ⊢
      obtain ⟨hread, hcut⟩ := read_text_octal hoctal h
      exact ⟨fun _ ↦ hread, fun hc ↦ absurd hc hcut⟩
    | none =>
      rw [read_of_none hhex hoctal] at h ⊢
      obtain ⟨hself, hdecimal⟩ := read_text_decimal hhex hoctal h
      refine ⟨hself, fun hcut ↦ ⟨hdecimal hcut, ?_⟩⟩
      obtain ⟨rfl, hne, hdigits⟩ := hcut.isOctalDigit
      exact read_octal hne hdigits

end Numeral

end ProtoSchema
