import ProtoSchema.Proofs.Number.Digits
import ProtoSchema.Proofs.Text.Bytes
import ProtoSchema.Proofs.Token.Lexing

/-!
# Where a scan fails

A scan that fails reports one fault and one place.  The faults come from readers that have looked
ahead a good deal by then, to the end of a line or even of the text, and still the place is that of
the first character of the token that cannot be read.  `scan_error` says what there is to know about
it: the text in front of the place scans by itself, and what stands at the place is the fault that
is reported.

What a fault is, `LexicalFault.Stands` says without the scanner, in the terms of the lexical
grammar.  The harder half is the text in front.  A token that is read there ends where it does
because of what stands behind it, and that is cut off now.  Of all the tokens only the last one can
notice, and only a numeral that a letter `e` has cut short would be another one then
(`pieceAt_within`); but no fault begins with a letter.

## What is here

* `Numeral.Denotes` — which number a numeral without fraction and exponent stands for, in terms of
  the digits that the core library gives to a number (`DigitsOf`).
* `LexicalFault.Stands` — the four faults: a character that no token begins with, a string and a
  comment that are not closed, and a numeral of a number that does not fit.
* `endsEscaped_of_stringText?_eq_none`, `not_isInfix_of_blockText?_eq_none`,
  `Numeral.denotes_of_read`, `Lexes.head` — what it means that a reader finds nothing.
* `stands_of_pieceAt` — a fault that is found stands there.
* `slashPiece_within` to `pieceAt_within` — a token ends where it does also when what is behind it
  is cut off, further on.
* `exists_front_of_scanFrom`, `scanFrom_of_front` — cutting the text at the fault, and back.
* `scan_error` — the theorem, and `scan_error_unexpected`, a text with a newline, a tab and a
  character of two bytes in front of the fault.
-/

set_option autoImplicit false

namespace ProtoSchema

open Lexical

-- Powers are those of the core library, whatever else is imported.
attribute [local instance(high)] instPowNat

/-! ## Faults -/

/-- A numeral without fraction and exponent denotes the natural number whose digits it has, if
`behind` follows it. -/
inductive Numeral.Denotes (behind : List Char) : List Char → Nat → Prop
  | hexadecimal {letter : Char} {digits : List Char} {n : Nat}
    (hletter : letter = 'x' ∨ letter = 'X') (hn : DigitsOf 16 n digits) :
    Denotes behind ('0' :: letter :: digits) n
  | octal {digits : List Char} {n : Nat} (hn : DigitsOf 8 n digits)
    (hbehind : ∀ c ∈ behind.head?, ¬continuesDecimal c) :
    Denotes behind ('0' :: digits) n
  /-- The base is ten if it is none of the others. -/
  | decimal {digits : List Char} {n : Nat} (hn : DigitsOf 10 n digits)
    (hother : ∀ ds, digits = '0' :: ds → ds ≠ [] → (∀ d ∈ ds, isOctalDigit d) →
      ∃ c ∈ behind.head?, continuesDecimal c) :
    Denotes behind digits n

/-- The text `cs` begins with what the fault says. -/
inductive LexicalFault.Stands : LexicalFault → List Char → Prop
  | unexpectedCharacter {c : Char} {cs : List Char} (hblank : ¬isBlank c)
    (hnone : ∀ rest s, ¬Lexes (c :: rest) s) :
    Stands (.unexpectedCharacter c) (c :: cs)
  /-- Each further quote up to the end of the line is escaped. -/
  | unterminatedString {quote : Char} {cs : List Char} (hquote : quote = '"' ∨ quote = '\'')
    (hopen : ∀ front back, cs = front ++ quote :: back → '\n' ∉ front → endsEscaped front) :
    Stands .unterminatedString (quote :: cs)
  | unterminatedComment {cs : List Char} (hopen : ¬['*', '/'] <:+: cs) :
    Stands .unterminatedComment ('/' :: '*' :: cs)
  | numberOutOfRange {lexeme : String} {behind : List Char} {n : Nat}
    (hlongest : Longest numerals lexeme.toList (lexeme.toList ++ behind))
    (hn : Numeral.Denotes behind lexeme.toList n) (hlimit : 2 ^ (64 : Nat) ≤ n) :
    Stands (.numberOutOfRange lexeme) (lexeme.toList ++ behind)

variable {c quote : Char} {cs tail rest behind u : List Char} {p : Piece} {fault : LexicalFault}

/-! ### Strings and comments -/

/-- The shortest text in front of a quote that is not escaped would be that of a string. -/
theorem endsEscaped_of_stringText?_eq_none (hquote : isQuote quote)
    (h : stringText? quote cs = none)
    (front back : List Char) (hcs : cs = front ++ quote :: back) (hline : '\n' ∉ front) :
    endsEscaped front := by
  by_contra hopen
  obtain ⟨hnewline, hbackslash⟩ := isQuote_ne hquote
  have henclosed : Enclosed quote front := by
    refine (enclosed_iff hquote).mpr ⟨hline, hopen, fun front' back' hfront ↦ ?_⟩
    refine endsEscaped_of_stringText?_eq_none hquote h front' (back' ++ quote :: back) ?_ ?_
    · rw [hcs, hfront, List.append_assoc, List.cons_append]
    · exact fun hmem ↦ hline (hfront ▸ List.mem_append_left _ hmem)
  rw [hcs, stringText?_of_enclosed hnewline hbackslash henclosed] at h
  cases h
termination_by front.length
decreasing_by simp [hfront]

/-- If no end of a comment is found, none is there. -/
theorem not_isInfix_of_blockText?_eq_none (h : blockText? cs = none) : ¬['*', '/'] <:+: cs := by
  rintro ⟨front, back, hcs⟩
  fun_induction blockText? cs generalizing front with
  | case1 => cases h
  | case2 c cs hclose ih =>
    cases front with
    | nil =>
      obtain ⟨rfl, rfl⟩ := List.cons.inj hcs
      exact hclose back rfl rfl
    | cons d front => exact ih (Option.map_eq_none_iff.mp h) front (List.cons.inj hcs).2
  | case3 => simp at hcs

/-- A comment that is not closed is the fault that is reported. -/
theorem stands_of_slashPiece (h : slashPiece cs = .error fault) : fault.Stands ('/' :: cs) := by
  unfold slashPiece at h
  split at h
  · cases h
  · split at h
    · cases h
    · rename_i htext
      cases h
      exact .unterminatedComment (not_isInfix_of_blockText?_eq_none htext)
  · cases h

/-- A string that is not closed is the fault that is reported. -/
theorem stands_of_stringPiece (hquote : isQuote c) (h : stringPiece c cs = .error fault) :
    fault.Stands (c :: cs) := by
  rw [stringPiece] at h
  split at h
  · cases h
  · rename_i htext
    cases h
    exact .unterminatedString (by simpa [isQuote] using hquote)
      (endsEscaped_of_stringText?_eq_none hquote htext)

/-! ### Numbers -/

namespace Numeral

theorem limit_le_of_integer? {n : Nat} (h : integer? n = none) : 2 ^ (64 : Nat) ≤ n := by
  rw [integer?] at h
  split at h
  · cases h
  · rename_i hlt
    exact Nat.le_of_not_lt hlt

/-- A decimal numeral without a value is one whose digits spell a number that does not fit. -/
theorem denotes_of_decimalFrom (hdigit : c.isDigit) (hoctal : octal? c (tail ++ behind) = none)
    (h : (decimalFrom c (tail ++ behind)).text = c :: tail)
    (hnone : (decimalFrom c (tail ++ behind)).value? = none) :
    ∃ n, Denotes behind (c :: tail) n ∧ 2 ^ (64 : Nat) ≤ n := by
  obtain ⟨whole, fraction?, exponent?, hparts, hwhole, -, -⟩ := decimalFrom_parts c (tail ++ behind)
  rw [hparts] at h hnone
  -- With a fraction or an exponent there is a value.
  obtain ⟨rfl, rfl⟩ : fraction? = none ∧ exponent? = none := by
    cases fraction? <;> cases exponent? <;> first | exact ⟨rfl, rfl⟩ | cases hnone
  obtain rfl : whole = tail := by simpa [text, fractionText, exponentText] using h
  have hbehind := head?_of_decimalFrom hparts hwhole
  rw [octal?_whole c behind hwhole fun d hd ↦ (hbehind d hd).1] at hoctal
  have hn : DigitsOf 10 (ofDigits 10 (c :: whole)) (c :: whole) :=
    digitsOf_of_isDigit (List.cons_ne_nil _ _) (List.forall_mem_cons.mpr ⟨hdigit, hwhole⟩)
  refine ⟨_, .decimal hn ?_, limit_le_of_integer? hnone⟩
  rintro ds hds hne hdigits
  obtain ⟨rfl, rfl⟩ := List.cons.inj hds
  have hcontinues : behind.head?.any continuesDecimal := by
    by_contra hnot
    rw [if_pos ⟨rfl, hne, List.all_eq_true.mpr hdigits, hnot⟩] at hoctal
    cases hoctal
  obtain ⟨d, hd, hc⟩ := (Option.any_eq_true _ _).mp hcontinues
  exact ⟨d, hd, hc⟩

/-- A numeral without a value is a natural number that does not fit. -/
theorem denotes_of_read (hdigit : c.isDigit) (h : (read c (tail ++ behind)).text = c :: tail)
    (hnone : (read c (tail ++ behind)).value? = none) :
    ∃ n, Denotes behind (c :: tail) n ∧ 2 ^ (64 : Nat) ≤ n := by
  cases hhex : hexadecimal? c (tail ++ behind) with
  | some x =>
    rw [read_of_hexadecimal? hhex] at h hnone
    obtain ⟨letter, digits, rfl, -, hletter, hne, hdigits⟩ := hexadecimal?_eq_some hhex
    rw [← h]
    exact ⟨_, .hexadecimal hletter (digitsOf_of_isHexDigit hne hdigits),
      limit_le_of_integer? hnone⟩
  | none =>
    cases hoctal : octal? c (tail ++ behind) with
    | some x =>
      rw [read_of_octal? hhex hoctal] at h hnone
      obtain ⟨digits, rfl, -, hne, hdigits, after, hsplit, hafter⟩ := octal?_eq_some hoctal
      obtain rfl : digits = tail := (List.cons.inj h).2
      obtain rfl : behind = after := List.append_cancel_left hsplit
      rw [← h]
      exact ⟨_, .octal (digitsOf_of_isOctalDigit hne hdigits) hafter, limit_le_of_integer? hnone⟩
    | none =>
      rw [read_of_none hhex hoctal] at h hnone
      exact denotes_of_decimalFrom hdigit hoctal h hnone

end Numeral

/-- A numeral that does not fit is the fault that is reported. -/
theorem stands_of_numberPiece (hdigit : c.isDigit) (h : numberPiece c cs = .error fault) :
    fault.Stands (c :: cs) := by
  have hlongest : Longest numerals (Numeral.read c cs).text (c :: cs) := Numeral.longest_read hdigit
  obtain ⟨tail, behind, htext, rfl⟩ := Numeral.text_read c cs
  rw [numberPiece] at h
  split at h
  · cases h
  · rename_i hnone
    cases h
    obtain ⟨n, hn, hlimit⟩ := Numeral.denotes_of_read hdigit htext hnone
    rw [htext] at hlongest ⊢
    have hlexeme : (String.ofList (c :: tail)).toList = c :: tail := String.toList_ofList
    have hstands : (LexicalFault.numberOutOfRange (String.ofList (c :: tail))).Stands
        ((String.ofList (c :: tail)).toList ++ behind) :=
      .numberOutOfRange (by rwa [hlexeme]) (by rwa [hlexeme]) hlimit
    rwa [hlexeme] at hstands

/-! ### Other characters -/

/-- What the first character of a token can be. -/
theorem Lexes.head {s : Symbol} (h : Lexes (c :: cs) s) :
    isQuote c ∨ c.isDigit ∨ isWordStart c ∨ ∃ kind, operator? c = some kind := by
  cases h with
  | operator hspelling h =>
    exact .inr (.inr (.inr (exists_operator?_of_stands hspelling h.stands)))
  | word h => exact .inr (.inr (.inl (isWordStart_of_longest h)))
  | number h => exact .inr (.inl (isDigit_of_longest h))
  | string hquote hcs =>
    obtain ⟨rfl, -⟩ := List.cons.inj hcs
    exact .inl (by simpa [isQuote] using hquote)
  | lineComment hcs =>
    obtain ⟨rfl, -⟩ := List.cons.inj hcs
    exact .inr (.inr (.inr ⟨_, rfl⟩))
  | blockComment hcs =>
    obtain ⟨rfl, -⟩ := List.cons.inj hcs
    exact .inr (.inr (.inr ⟨_, rfl⟩))

/-- **A fault that is found is one that stands there.** -/
theorem stands_of_pieceAt (h : pieceAt c cs = .error fault) : fault.Stands (c :: cs) := by
  have map_some {x : Except LexicalFault Piece} (hx : some <$> x = .error fault) :
      x = .error fault := by
    cases x with
    | error e => exact congrArg Except.error (Except.error.inj hx)
    | ok q => cases hx
  rw [pieceAt] at h
  split_ifs at h with hblank hslash hquote hdigit hword
  · subst hslash
    exact stands_of_slashPiece (map_some h)
  · exact stands_of_stringPiece hquote (map_some h)
  · exact stands_of_numberPiece hdigit (map_some h)
  · have hpiece := map_some h
    rw [operatorPiece] at hpiece
    split at hpiece
    · rename_i hoperator
      cases hpiece
      refine .unexpectedCharacter hblank fun rest s hs ↦ ?_
      rcases hs.head with hc | hc | hc | ⟨kind, hkind⟩
      · exact hquote hc
      · exact hdigit hc
      · exact hword hc
      · rw [hoperator] at hkind
        cases hkind
    · split at hpiece <;> cases hpiece

/-! ## The text in front -/

/-- A run of characters that is over within a text is over within any part that it is in. -/
theorem takeWhile_within {q : Char → Bool} (h : (tail ++ rest ++ u).takeWhile q = tail) :
    (tail ++ rest).takeWhile q = tail := by
  have htail : ∀ d ∈ tail, q d := fun d hd ↦ List.mem_takeWhile_imp (h ▸ hd)
  rw [List.append_assoc, List.takeWhile_append_of_pos htail] at h
  refine takeWhile_append_of_head htail fun d hd hq ↦ ?_
  obtain ⟨rest, rfl⟩ := List.head?_eq_some_iff.mp hd
  rw [List.cons_append, List.takeWhile_cons_of_pos hq] at h
  simp at h

/-- A comment that is over within a text is over within any part that it is in. -/
theorem slashPiece_within (h : slashPiece (p.tail ++ rest ++ u) = .ok p) :
    slashPiece (p.tail ++ rest) = .ok p := by
  generalize hcs : p.tail ++ rest ++ u = cs at h
  unfold slashPiece at h
  split at h
  · rename_i cs
    cases h
    have hcs : cs.takeWhile (· ≠ '\n') ++ rest ++ u = cs := (List.cons.inj hcs).2
    have hline := takeWhile_within (congrArg (List.takeWhile (· ≠ '\n')) hcs)
    simp only [List.cons_append, slashPiece, hline]
  · rename_i cs
    split at h
    · rename_i text htext
      cases h
      have hcs : text ++ ['*', '/'] ++ rest ++ u = cs := (List.cons.inj hcs).2
      rw [← hcs] at htext
      have hself := blockText?_within (v := []) htext (by simp)
      rw [List.append_nil] at hself
      simp only [List.cons_append, slashPiece, hself]
    · cases h
  · rename_i hline hblock
    cases h
    refine slashPiece_of_head fun d hd ↦ ?_
    obtain ⟨rest, rfl⟩ := List.head?_eq_some_iff.mp hd
    constructor <;> rintro rfl
    · exact hline _ hcs.symm
    · exact hblock _ hcs.symm

theorem wordPiece_within (h : wordPiece c (p.tail ++ rest ++ u) = p) :
    wordPiece c (p.tail ++ rest) = p := by
  have htail : (p.tail ++ rest ++ u).takeWhile isWordPart = p.tail := congrArg Piece.tail h
  rw [wordPiece, htail] at h
  rwa [wordPiece, takeWhile_within htail]

theorem operatorPiece_within (h : operatorPiece c (p.tail ++ rest ++ u) = .ok p) :
    operatorPiece c (p.tail ++ rest) = .ok p := by
  generalize hcs : p.tail ++ rest ++ u = cs at h
  rw [operatorPiece_eq_ok_iff] at h ⊢
  cases h with
  | longer hkind hlonger => exact .longer hkind hlonger
  | single hkind halone =>
    refine .single hkind (halone.imp_right fun hne hhead ↦ hne ?_)
    obtain ⟨rest, rfl⟩ := List.head?_eq_some_iff.mp hhead
    rw [← hcs]
    rfl

namespace Numeral

theorem cutShort_append (hcut : rest = [] → ¬CutShort (c :: tail) u) :
    CutShort (c :: tail) (rest ++ u) ↔ CutShort (c :: tail) rest := by
  cases rest with
  | nil => exact ⟨fun h ↦ absurd h (hcut rfl), fun ⟨_, _, hd, _⟩ ↦ by cases hd⟩
  | cons d rest =>
    constructor
    · exact fun ⟨hoctal, hletter⟩ ↦ ⟨hoctal, hletter⟩
    · exact fun ⟨hoctal, hletter⟩ ↦ ⟨hoctal, hletter⟩

/-- A numeral within a part of a text is the same by the part alone, if no letter behind the part
cuts it short. -/
theorem read_within (hdigit : c.isDigit) (h : (read c (tail ++ rest ++ u)).text = c :: tail)
    (hcut : rest = [] → ¬CutShort (c :: tail) u) :
    read c (tail ++ rest) = read c (tail ++ rest ++ u) := by
  have hlongest : Longest numerals (c :: tail) (c :: (tail ++ rest ++ u)) := h ▸ longest_read hdigit
  have hpart : Longest numerals (c :: tail) (c :: (tail ++ rest)) :=
    ⟨hlongest.mem, ⟨rest, rfl⟩, fun other hother hstands ↦
      hlongest.longest other hother (hstands.trans ⟨u, rfl⟩)⟩
  have htext : (read c (tail ++ rest)).text = c :: tail := (longest_read hdigit).unique hpart
  rw [List.append_assoc] at h ⊢
  obtain ⟨hself, hshort⟩ := read_text h
  obtain ⟨hself', hshort'⟩ := read_text htext
  rw [cutShort_append hcut] at hself hshort
  by_cases hletter : CutShort (c :: tail) rest
  · rw [(hshort hletter).1, (hshort' hletter).1]
  · rw [← hself hletter, ← hself' hletter]

end Numeral

/-- **A token within a part of a text** is the same by the part alone, if no letter behind the part
cuts it short. -/
theorem pieceAt_within (h : pieceAt c (p.tail ++ rest ++ u) = .ok (some p))
    (hcut : rest = [] → ¬Numeral.CutShort (c :: p.tail) u) :
    pieceAt c (p.tail ++ rest) = .ok (some p) := by
  rw [pieceAt] at h ⊢
  split_ifs at h ⊢ with hblank hslash hquote hdigit hword
  · cases h
  · rw [slashPiece_within (map_some_eq_ok h)]
    rfl
  · have hself := stringPiece_congr (v := []) hquote (map_some_eq_ok h) (by simp)
    rw [List.append_nil] at hself
    rw [hself]
    rfl
  · have hnumber := map_some_eq_ok h
    have htext : (Numeral.read c (p.tail ++ rest ++ u)).text = c :: p.tail := by
      rw [List.append_assoc] at hnumber ⊢
      exact (text_of_numberPiece hnumber).1
    rw [numberPiece_of_read (Numeral.read_within hdigit htext hcut), hnumber]
    rfl
  · rw [wordPiece_within (Option.some.inj (Except.ok.inj h))]
  · rw [operatorPiece_within (map_some_eq_ok h)]
    rfl

/-- **A part of a text is divided alike by itself**, if no letter follows it that could cut its last
numeral short. -/
theorem Divides.alone {ss : List Symbol} (h : Divides u cs ss)
    (hu : ∀ d ∈ u.head?, d ≠ 'e' ∧ d ≠ 'E') : Divides [] cs ss := by
  induction h with
  | nil => exact .nil
  | blank hc _ ih => exact .blank hc ih
  | piece hp _ ih =>
    refine .piece ?_ ih
    rw [List.append_nil]
    refine pieceAt_within hp fun _ hcut ↦ ?_
    obtain ⟨d, hd, hletter⟩ := hcut.letter
    exact hletter.elim (hu d hd).1 (hu d hd).2

/-! ## Scans -/

/-- A scan that fails has divided the text in front of the place where it does. -/
theorem exists_front_of_scanFrom {m : Mark} {e : LexicalError} (h : scanFrom m cs = .error e) :
    ∃ front c back ss, cs = front ++ c :: back ∧ Divides (c :: back) front ss ∧
      pieceAt c back = .error e.fault ∧ e.position = (m.after front).position := by
  fun_induction scanFrom m cs with
  | case1 m => cases h
  | case2 m c cs fault hp =>
    cases h
    exact ⟨[], c, cs, [], rfl, .nil, hp, rfl⟩
  | case3 m c cs hp ih =>
    obtain ⟨front, d, back, ss, rfl, hdivides, hfault, hposition⟩ := ih h
    exact ⟨c :: front, d, back, ss, rfl, .blank (isBlank_of_pieceAt hp) hdivides, hfault, hposition⟩
  | case4 m c cs p hp ih =>
    obtain ⟨rest, rfl⟩ := (heads_of_pieceAt hp).stands
    rw [List.drop_left] at h ih
    have hrest : scanFrom (m.after (c :: p.tail)) rest = .error e := by
      cases hscan : scanFrom (m.after (c :: p.tail)) rest with
      | ok found => rw [hscan] at h; cases h
      | error e' => rw [hscan] at h; exact congrArg Except.error (Except.error.inj h)
    obtain ⟨front, d, back, ss, rfl, hdivides, hfault, hposition⟩ := ih hrest
    refine ⟨c :: (p.tail ++ front), d, back,
      p.symbol c :: ss, by simp, .piece ?_ hdivides, hfault, ?_⟩
    · rwa [List.append_assoc]
    · rw [hposition, ← Mark.after_append]
      rfl

/-- A scan fails where the text in front is divided and nothing can be read. -/
theorem scanFrom_of_front {front back : List Char} {ss : List Symbol}
    (h : Divides (c :: back) front ss) (hfault : pieceAt c back = .error fault) (m : Mark) :
    scanFrom m (front ++ c :: back) = .error ⟨fault, (m.after front).position⟩ := by
  induction h generalizing m with
  | nil =>
    rw [List.nil_append, scanFrom, hfault]
    rfl
  | blank hc _ ih =>
    rw [List.cons_append, scanFrom, pieceAt_of_isBlank hc]
    exact ih _
  | @piece d p rest ss hp _ ih =>
    rw [List.cons_append, scanFrom, hp, List.append_assoc]
    simp only [List.drop_left, ih]
    rw [← List.cons_append, Mark.after_append]
    rfl

/-- No fault begins with a letter. -/
theorem LexicalFault.Stands.not_isWordStart (h : fault.Stands (c :: cs)) : ¬isWordStart c := by
  generalize htext : c :: cs = text at h
  cases h with
  | unexpectedCharacter hblank hnone =>
    obtain ⟨rfl, -⟩ := List.cons.inj htext
    exact fun hword ↦ hnone [] _ (lexes_wordPiece hword)
  | unterminatedString hquote =>
    obtain ⟨rfl, -⟩ := List.cons.inj htext
    rcases hquote with rfl | rfl <;> decide
  | unterminatedComment =>
    obtain ⟨rfl, -⟩ := List.cons.inj htext
    decide
  | numberOutOfRange hlongest =>
    obtain ⟨d, tail, hlexeme, hdigit⟩ := isDigit_of_mem_numerals hlongest.mem
    rw [hlexeme] at htext
    obtain ⟨rfl, -⟩ := List.cons.inj htext
    exact fun hword ↦ (not_of_isWordStart hword).2.2.2 hdigit

/-- **A scan fails at the first token that cannot be read.**  The position that is reported is that
of one place only, the text in front of it scans by itself, and what stands there is the fault. -/
theorem scan_error {text : String} {e : LexicalError} (h : scan text = .error e) :
    ∃ front back, text = front ++ back ∧
      (∀ offset, Position.inBytes (bytesOf text.toList) offset = e.position ↔
        offset = front.utf8ByteSize) ∧
      (∃ tokens, scan front = .ok tokens) ∧ e.fault.Stands back.toList := by
  obtain ⟨front, c, back, ss, hcs, hdivides, hfault, hposition⟩ := exists_front_of_scanFrom h
  have hstands := stands_of_pieceAt hfault
  refine ⟨String.ofList front, String.ofList (c :: back), ?_, fun offset ↦ ?_, ?_, ?_⟩
  · rw [← String.ofList_append, ← hcs, String.ofList_toList]
  · have hsize : (String.ofList front).utf8ByteSize = (bytesOf front).length := by
      rw [← length_bytesOf_toList, String.toList_ofList]
    rw [hposition, Mark.after_start front (c :: back), ← hcs, hsize]
    exact (Position.inBytes_injective _).eq_iff
  · have halone : Divides [] front ss := by
      refine hdivides.alone ?_
      rintro _ ⟨⟩
      have hword := hstands.not_isWordStart
      constructor <;> rintro rfl <;> exact hword rfl
    obtain ⟨ts, hts, -⟩ := scanFrom_of_divides halone .start
    exact ⟨_, by rw [scan, String.toList_ofList, hts]⟩
  · rwa [String.toList_ofList]

/-- A character of two bytes behind tokens that depend on what follows them: a numeral, an operator
and a comment up to the end of its line. -/
theorem scan_error_unexpected :
    ∃ text e front back, text = "// é\nx = 017\t<é=" ∧ scan text = .error e ∧
      e = ⟨.unexpectedCharacter 'é', ⟨2, 9⟩⟩ ∧ text = front ++ back ∧
      (∀ offset, Position.inBytes (bytesOf text.toList) offset = e.position ↔
        offset = front.utf8ByteSize) ∧
      (∃ tokens, scan front = .ok tokens) ∧ e.fault.Stands back.toList := by
  have h : scan "// é\nx = 017\t<é=" = .error ⟨.unexpectedCharacter 'é', ⟨2, 9⟩⟩ := by
    decide +kernel
  obtain ⟨front, back, hfront⟩ := scan_error h
  exact ⟨_, _, front, back, rfl, h, rfl, hfront⟩

end ProtoSchema
