import Mathlib.Data.List.TakeWhile
import ProtoSchema.Proofs.Token.Division
import ProtoSchema.Proofs.Token.Numeral

/-!
# A token by itself

Nearly every reader of a piece looks at the characters behind it: a word ends where no letter
follows, an equals sign is doubled or not, a numeral goes on with an exponent or not.  None of this
is to change what the piece means.  `scan_lexeme` takes the text of a token out of its place, scans
it alone, and finds the same symbol and nothing else.

It is so for all tokens but one sort.  In `017e` the numeral ends in front of the letter, and yet
the letter has made it a decimal one: the token has the value 17, and the text `017` by itself has
the value 15.  `scan_lexeme` says that this is the only exception, and `scan_lexeme_octal` that it
is one.

## What is here

* `slashPiece_tail`, `wordPiece_tail`, `operatorPiece_tail`, `numberPiece_of_read` — the readers,
  asked again with nothing behind the piece.
* `Numeral.CutShort`, in `Proofs/Token/Numeral.lean`, is the exception: octal digits behind a zero,
  none of them eight or nine, in front of an `e` that no exponent follows.
* `pieceAt_tail` and `pieceAt_tail_of_cutShort` — a piece by itself, outside of the exception and in
  it.  In the exception both values are given: the digits in base ten, and the digits in base eight.
* `Symbol.alone` — the tokens of a text that is one symbol, the end included.
* `scan_lexeme` — the theorem, for each token of each text that is scanned, with both alternatives.
* `scan_lexeme_exponent` and `scan_lexeme_octal` — a text for each of them.
-/

set_option autoImplicit false

namespace ProtoSchema

-- Powers are those of the core library, whatever else is imported.
attribute [local instance(high)] instPowNat

/-! ## Pieces -/

variable {c : Char} {rest : List Char} {p : Piece}

/-- A comment that a newline ended is ended by the end of the text as well. -/
theorem slashPiece_tail (h : slashPiece (p.tail ++ rest) = .ok p) : slashPiece p.tail = .ok p := by
  generalize p.tail ++ rest = cs at h
  unfold slashPiece at h
  split at h
  · rename_i cs
    obtain rfl := Except.ok.inj h
    simp only [slashPiece, List.takeWhile_idem]
  · rename_i cs
    split at h
    · rename_i text htext
      obtain rfl := Except.ok.inj h
      obtain ⟨behind, rfl⟩ := text_of_blockText? htext
      have hsplit : blockText? (text ++ ['*', '/'] ++ behind) = some text := by
        rwa [List.append_assoc]
      have hself := blockText?_within (v := []) hsplit (by simp)
      rw [List.append_nil] at hself
      simp only [slashPiece, List.cons_append, hself]
    · cases h
  · obtain rfl := Except.ok.inj h
    rfl

/-- A word by itself is that word. -/
theorem wordPiece_tail : wordPiece c (wordPiece c rest).tail = wordPiece c rest := by
  simp only [wordPiece, List.takeWhile_idem]

/-- An operator by itself is that operator. -/
theorem operatorPiece_tail (h : operatorPiece c (p.tail ++ rest) = .ok p) :
    operatorPiece c p.tail = .ok p := by
  generalize p.tail ++ rest = cs at h
  rw [operatorPiece_eq_ok_iff] at h ⊢
  cases h with
  | longer hkind hlonger => exact .longer hkind hlonger
  | single hkind _ => exact .single hkind (.inr nofun)

/-- The piece of a numeral, in terms of the numeral. -/
theorem text_of_numberPiece (h : numberPiece c (p.tail ++ rest) = .ok p) :
    (Numeral.read c (p.tail ++ rest)).text = c :: p.tail ∧ p.kind = .number ∧
      ∃ n, (Numeral.read c (p.tail ++ rest)).value? = some n ∧ p.value? = some (.number n) := by
  generalize p.tail ++ rest = cs at h
  obtain ⟨tail, -, htext, -⟩ := Numeral.text_read c cs
  rw [numberPiece] at h
  split at h
  · rename_i n hn
    obtain rfl := Except.ok.inj h
    exact ⟨by rw [htext, List.tail_cons], rfl, n, hn, rfl⟩
  · cases h

theorem numberPiece_of_read {cs ds : List Char} (h : Numeral.read c cs = Numeral.read c ds) :
    numberPiece c cs = numberPiece c ds := by
  rw [numberPiece, numberPiece, h]

/-- What a piece is by itself: the same piece, if no letter cuts it short. -/
theorem pieceAt_tail (h : pieceAt c (p.tail ++ rest) = .ok (some p))
    (hcut : ¬Numeral.CutShort (c :: p.tail) rest) : pieceAt c p.tail = .ok (some p) := by
  rw [pieceAt] at h ⊢
  split_ifs at h ⊢ with hblank hslash hquote hdigit hword
  · cases h
  · rw [slashPiece_tail (map_some_eq_ok h)]
    rfl
  · have hself := stringPiece_congr (v := []) hquote (map_some_eq_ok h) (Nat.le_refl _)
    rw [List.append_nil] at hself
    rw [hself]
    rfl
  · have hnumber := map_some_eq_ok h
    have hread := (Numeral.read_text (text_of_numberPiece hnumber).1).1 hcut
    rw [numberPiece_of_read hread, hnumber]
    rfl
  · have hword : wordPiece c (p.tail ++ rest) = p := Option.some.inj (Except.ok.inj h)
    have hself : wordPiece c p.tail = p := by
      rw [← hword]
      exact wordPiece_tail
    rw [hself]
  · rw [operatorPiece_tail (map_some_eq_ok h)]
    rfl

/-! ## Numerals that are cut short -/

theorem ofDigits_zero_cons (base : Nat) (ds : List Char) :
    ofDigits base ('0' :: ds) = ofDigits base ds := rfl

/-- What a piece is that is cut short, and what it is by itself: a numeral in base ten and one in
base eight. -/
theorem pieceAt_tail_of_cutShort (h : pieceAt c (p.tail ++ rest) = .ok (some p))
    (hcut : Numeral.CutShort (c :: p.tail) rest) :
    p.kind = .number ∧ p.value? = some (.number (.integer (ofDigits 10 (c :: p.tail)))) ∧
      pieceAt c p.tail =
        .ok (some ⟨.number, p.tail, some (.number (.integer (ofDigits 8 (c :: p.tail))))⟩) := by
  obtain ⟨rfl, hne, hoctal⟩ := hcut.isOctalDigit
  have hnumber : numberPiece '0' (p.tail ++ rest) = .ok p := map_some_eq_ok h
  obtain ⟨htext, hkind, n, hn, hvalue⟩ := text_of_numberPiece hnumber
  obtain ⟨hdecimal, hself⟩ := (Numeral.read_text htext).2 hcut
  rw [hdecimal, Numeral.value?, Numeral.integer?] at hn
  split at hn
  · rename_i hlt
    obtain rfl := Option.some.inj hn
    refine ⟨hkind, hvalue, ?_⟩
    have hlt' : ofDigits 8 p.tail < Numeral.integerLimit :=
      Nat.lt_of_le_of_lt (Numeral.ofDigits_le_ofDigits (by decide) p.tail) hlt
    have hpiece : numberPiece '0' p.tail =
        .ok ⟨.number, p.tail, some (.number (.integer (ofDigits 8 ('0' :: p.tail))))⟩ := by
      rw [numberPiece, hself, Numeral.value?, Numeral.integer?, if_pos hlt', ofDigits_zero_cons]
      rfl
    show some <$> numberPiece '0' p.tail = _
    rw [hpiece]
    rfl
  · cases hn

/-! ## Scans -/

/-- The tokens of a text that is one symbol. -/
def Symbol.alone (s : Symbol) : List Token :=
  let stop := Mark.start.after s.lexeme.toList
  [⟨s, ⟨.start, stop⟩⟩, .endAt stop]

/-- A text that is one piece is scanned as the symbol of the piece. -/
theorem scan_of_pieceAt (h : pieceAt c p.tail = .ok (some p)) :
    scan (String.ofList (c :: p.tail)) = .ok (p.symbol c).alone := by
  rw [scan, String.toList_ofList, scanFrom, h]
  dsimp only
  rw [List.drop_length, scanFrom]
  rw [Symbol.alone, Piece.symbol, String.toList_ofList]
  rfl

/-- **A token means what its lexeme says.**  The lexeme of a token, scanned alone, is the same
symbol and nothing else, unless the token is a numeral that is cut short: that has its value in base
ten where it stands, and in base eight alone. -/
theorem scan_lexeme {text : String} {tokens : List Token} (h : scan text = .ok tokens) {t : Token}
    (ht : t ∈ tokens) (hk : t.kind ≠ .eof) :
    ∃ front behind, text.toList = front ++ t.lexeme.toList ++ behind ∧
      t.span = ⟨Mark.start.after front, Mark.start.after (front ++ t.lexeme.toList)⟩ ∧
      (¬Numeral.CutShort t.lexeme.toList behind → scan t.lexeme = .ok t.toSymbol.alone) ∧
      (Numeral.CutShort t.lexeme.toList behind →
        t.value? = some (.number (.integer (ofDigits 10 t.lexeme.toList))) ∧
        scan t.lexeme = .ok (Symbol.alone ⟨t.kind, t.lexeme,
          some (.number (.integer (ofDigits 8 t.lexeme.toList)))⟩)) := by
  obtain ⟨ts, us, rfl⟩ := List.mem_iff_append.mp ht
  obtain ⟨front, c, p, behind, hsplit, -, hpiece, rfl, -⟩ := exists_split_of_scanFrom h hk
  have hlexeme : (p.token c (Mark.start.after front)).lexeme.toList = c :: p.tail :=
    String.toList_ofList
  rw [hlexeme]
  refine ⟨front, behind, by simp [hsplit], by rw [Mark.after_append]; rfl, fun hcut ↦ ?_,
    fun hcut ↦ ?_⟩
  · exact scan_of_pieceAt (pieceAt_tail hpiece hcut)
  · obtain ⟨hkind, hvalue, hself⟩ := pieceAt_tail_of_cutShort hpiece hcut
    refine ⟨hvalue, ?_⟩
    show scan (String.ofList (c :: p.tail)) = .ok (Symbol.alone ⟨p.kind, _, _⟩)
    rw [hkind]
    exact scan_of_pieceAt (p := ⟨.number, p.tail, _⟩) hself

/-- A numeral with an exponent, between other tokens without blanks. -/
theorem scan_lexeme_exponent :
    ∃ text tokens t front behind, text = "'é\\\\'==-017.5e+3/*/ 08 */<=// b\n" ∧
      scan text = .ok tokens ∧ t ∈ tokens ∧ t.kind ≠ .eof ∧ t.lexeme = "017.5e+3" ∧
      text.toList = front ++ t.lexeme.toList ++ behind ∧
      t.span = ⟨Mark.start.after front, Mark.start.after (front ++ t.lexeme.toList)⟩ ∧
      (¬Numeral.CutShort t.lexeme.toList behind → scan t.lexeme = .ok t.toSymbol.alone) ∧
      (Numeral.CutShort t.lexeme.toList behind →
        t.value? = some (.number (.integer (ofDigits 10 t.lexeme.toList))) ∧
        scan t.lexeme = .ok (Symbol.alone ⟨t.kind, t.lexeme,
          some (.number (.integer (ofDigits 8 t.lexeme.toList)))⟩)) := by
  obtain ⟨tokens, h⟩ := exists_ok_of_isOk
    (x := scan "'é\\\\'==-017.5e+3/*/ 08 */<=// b\n") (by decide +kernel)
  have hall : (scan "'é\\\\'==-017.5e+3/*/ 08 */<=// b\n").map (fun ts ↦
      ts[3]?.map fun t ↦ (t.kind, t.lexeme)) = .ok (some (.number, "017.5e+3")) := by decide +kernel
  rw [h] at hall
  obtain ⟨t, ht, hlexeme⟩ := Option.map_eq_some_iff.mp (Except.ok.inj hall)
  obtain ⟨hkind, hlexeme⟩ := Prod.mk.inj hlexeme
  have hk : t.kind ≠ .eof := by rw [hkind]; nofun
  obtain ⟨front, behind, hsplit, hspan, hscan⟩ := scan_lexeme h (List.mem_of_getElem? ht) hk
  exact ⟨_, tokens, t, front, behind, rfl, h, List.mem_of_getElem? ht, hk, hlexeme, hsplit,
    hspan, hscan⟩

/-- **The letter changes the value of the numeral in front of it**, and is no part of it. -/
theorem scan_lexeme_octal :
    ∃ text tokens t, text = "017e" ∧ scan text = .ok tokens ∧ t ∈ tokens ∧ t.kind ≠ .eof ∧
      t.lexeme = "017" ∧ t.value? = some (.number (.integer 17)) ∧
      scan t.lexeme = .ok (Symbol.alone ⟨.number, "017", some (.number (.integer 15))⟩) ∧
      scan t.lexeme ≠ .ok t.toSymbol.alone := by
  have h : (scan "017e").map (·.map Token.toSymbol) =
      .ok [⟨.number, "017", some (.number (.integer 17))⟩, ⟨.identifier, "e", none⟩,
        .endOfInput] := by decide +kernel
  obtain ⟨tokens, hscan⟩ := exists_ok_of_isOk (x := scan "017e") (by decide +kernel)
  rw [hscan] at h
  have hself : scan "017" =
      .ok (Symbol.alone ⟨.number, "017", some (.number (.integer 15))⟩) := by decide +kernel
  match tokens, Except.ok.inj h with
  | t :: _, hsymbols =>
    have ht : t.toSymbol = ⟨.number, "017", some (.number (.integer 17))⟩ :=
      (List.cons.inj hsymbols).1
    have hlexeme : t.lexeme = "017" := congrArg Symbol.lexeme ht
    refine ⟨_, _, t, rfl, hscan, List.mem_cons_self, ?_, hlexeme, congrArg Symbol.value? ht, ?_, ?_⟩
    · rw [ht]
      nofun
    · rw [hlexeme, hself]
    · rw [hlexeme, hself, ht]
      decide +kernel

end ProtoSchema
