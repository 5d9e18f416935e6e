import Mathlib.Data.List.TakeWhile
import Mathlib.Tactic.Set
import Mathlib.Tactic.SplitIfs
import ProtoSchema.Proofs.Token.Enclosed

/-!
# What a token of a text looks like

A buffer of tokens can hold any symbols.  Those that come out of a text are *genuine*: their kind,
lexeme and value belong together.  `heads_of_pieceAt` shows it of the piece at the head of a text,
along with the fact that the piece is the very text that stands there.

Most of what is read from a buffer needs none of this, for the grammar never asks whether the value
of a symbol fits its lexeme.  It is needed as soon as the text comes back into play: when a schema
is printed from the names and values of its symbols, and when a token is found again in the bytes.

## What is here

* `IsWord`, `isNumeralPart` — the texts of words, and the characters that numerals are made of.
* `Symbol.Genuine` — the seven sorts of symbols that a text can have, one constructor for each.
* `Exponent.text_of_read?`, `Numeral.text_of_hexadecimal?`, `Numeral.text_of_octal?`,
  `Numeral.text_decimalFrom`, `Numeral.text_read` — each reader of a numeral takes the text that is
  there and changes nothing about it.
* `Numeral.lt_of_value?` — a natural number that is a value has 64 bits.
* `Piece.symbol`, `Piece.Heads` — a piece as a symbol, and what it is to be the head of a text.
* `heads_of_stringPiece`, `heads_of_slashPiece`, `heads_of_numberPiece`, `heads_wordPiece`,
  `heads_of_operatorPiece` — the five readers, and `heads_of_pieceAt` for all of them.
* `OperatorAt`, `operatorPiece_eq_ok_iff` — operators of one and of two characters as an inductive
  predicate, because the reader's nested matches are of no use to a proof.
-/

set_option autoImplicit false

namespace ProtoSchema

/-! ## Words -/

/-- A letter or an underscore, and letters, digits and underscores behind it. -/
def IsWord (text : String) : Prop :=
  ∃ c tail, text = String.ofList (c :: tail) ∧ isWordStart c ∧ ∀ d ∈ tail, isWordPart d

/-! ## Genuine symbols -/

/-- The characters that numerals are made of. -/
def isNumeralPart (c : Char) : Bool :=
  isHexDigit c || c == 'x' || c == 'X' || c == '.' || isSign c

/-- The symbols that a text can have. -/
inductive Symbol.Genuine : Symbol → Prop
  | operator {kind : Kind} {text : String} (h : kind.spelling? = some text) :
    Genuine ⟨kind, text, none⟩
  | word {text : String} (h : IsWord text) : Genuine ⟨.ofWord text, text, none⟩
  | string {quote : Char} {content : List Char} (hq : isQuote quote) (h : Enclosed quote content) :
    Genuine ⟨.string, String.ofList (quote :: content ++ [quote]),
      some (.text (String.ofList content))⟩
  | integer {lexeme : String} {n : Nat} (hl : ∀ c ∈ lexeme.toList, isNumeralPart c)
    (h : n < Numeral.integerLimit) : Genuine ⟨.number, lexeme, some (.number (.integer n))⟩
  | float {lexeme : String} {x : Binary64} (hl : ∀ c ∈ lexeme.toList, isNumeralPart c) :
    Genuine ⟨.number, lexeme, some (.number (.float x))⟩
  | lineComment {content : List Char} (h : '\n' ∉ content) :
    Genuine ⟨.comment, String.ofList ('/' :: '/' :: content), some (.text (String.ofList content))⟩
  | blockComment {content : List Char} :
    Genuine ⟨.comment, String.ofList ('/' :: '*' :: content ++ ['*', '/']),
      some (.text (String.ofList content))⟩

/-- The end of a text is no symbol of it. -/
theorem Symbol.Genuine.kind_ne_eof {s : Symbol} (h : s.Genuine) : s.kind ≠ .eof := by
  cases h with
  | @operator kind text h => rintro rfl; cases h
  | @word text h => simp only [Kind.ofWord]; split <;> simp
  | string | integer | float | lineComment | blockComment => simp

/-- Whatever has a number for a value is a numeral. -/
theorem Symbol.Genuine.kind_of_number? {s : Symbol} (h : s.Genuine) (hn : s.number?.isSome) :
    s.kind = .number := by
  cases h with
  | integer | float => rfl
  | operator | word | string | lineComment | blockComment => simp [Symbol.number?] at hn

/-! ## Numerals are the text that stands there -/

theorem isHexDigit_of_isDigit {c : Char} (h : c.isDigit) : isHexDigit c := by simp [isHexDigit, h]

theorem isHexDigit_of_isOctalDigit {c : Char} (h : isOctalDigit c) : isHexDigit c := by
  apply isHexDigit_of_isDigit
  simp only [isOctalDigit, Bool.and_eq_true, decide_eq_true_eq, Char.le_def] at h
  simp only [Char.isDigit, Bool.and_eq_true, decide_eq_true_eq]
  exact ⟨h.1, UInt32.le_trans h.2 (show '7'.val ≤ 57 by decide)⟩

theorem isNumeralPart_of_isHexDigit {c : Char} (h : isHexDigit c) : isNumeralPart c := by
  simp [isNumeralPart, h]

theorem isNumeralPart_of_isDigit {c : Char} (h : c.isDigit) : isNumeralPart c :=
  isNumeralPart_of_isHexDigit (isHexDigit_of_isDigit h)

namespace Exponent

theorem isNumeralPart_of_read? {cs : List Char} {e : Exponent} (h : read? cs = some e) {c : Char}
    (hc : c ∈ e.text) : isNumeralPart c := by
  cases cs with
  | nil => simp [read?] at h
  | cons letter cs =>
    simp only [read?] at h
    split at h
    · rename_i hletter
      split at h
      · cases h
      · cases h
        simp only [text, List.mem_append, List.mem_cons, Option.mem_toList,
          Option.filter_eq_some_iff] at hc
        rcases hc with (rfl | ⟨-, hsign⟩) | hdigit
        · rcases hletter with rfl | rfl <;> decide
        · simp [isNumeralPart, hsign]
        · exact isNumeralPart_of_isDigit (List.mem_takeWhile_imp hdigit)
    · cases h

theorem text_of_read? {cs : List Char} {e : Exponent} (h : read? cs = some e) :
    ∃ rest, cs = e.text ++ rest := by
  cases cs with
  | nil => simp [read?] at h
  | cons letter cs =>
    simp only [read?] at h
    split at h
    · split at h
      · cases h
      · cases h
        set sign? := cs.head?.filter isSign with hsign
        have hcs : cs = sign?.toList ++ cs.drop sign?.toList.length := by
          cases cs with
          | nil => simp [hsign]
          | cons c cs => by_cases hc : isSign c <;> simp [hsign, Option.filter, hc]
        refine ⟨(cs.drop sign?.toList.length).dropWhile Char.isDigit, ?_⟩
        rw [text, List.cons_append, List.cons_append, List.append_assoc,
          List.takeWhile_append_dropWhile, ← hcs]
    · cases h

end Exponent

namespace Numeral

/-- A hexadecimal numeral is the head of the text that it is read from. -/
theorem text_of_hexadecimal? {c : Char} {cs : List Char} {x : Numeral}
    (h : hexadecimal? c cs = some x) : ∃ rest, c :: cs = x.text ++ rest := by
  cases cs with
  | nil => simp [hexadecimal?] at h
  | cons letter cs =>
    simp only [hexadecimal?] at h
    split at h
    · rename_i hc
      cases h
      exact ⟨cs.dropWhile isHexDigit, by simp [text, hc.1, List.takeWhile_append_dropWhile]⟩
    · cases h

/-- So is an octal one. -/
theorem text_of_octal? {c : Char} {cs : List Char} {x : Numeral}
    (h : octal? c cs = some x) : ∃ rest, c :: cs = x.text ++ rest := by
  simp only [octal?] at h
  split at h
  · rename_i hc
    cases h
    exact ⟨cs.dropWhile isOctalDigit, by simp [text, hc.1, List.takeWhile_append_dropWhile]⟩
  · cases h

theorem isNumeralPart_of_fraction? {cs : List Char} {c : Char}
    (hc : c ∈ fractionText (fraction? cs)) : isNumeralPart c := by
  unfold fraction? at hc
  split at hc
  · rcases List.mem_cons.mp hc with rfl | hc
    · decide
    · exact isNumeralPart_of_isDigit (List.mem_takeWhile_imp hc)
  · cases hc

theorem isNumeralPart_of_decimalFrom {c d : Char} {cs : List Char} (hc : c.isDigit)
    (hd : d ∈ (decimalFrom c cs).text) : isNumeralPart d := by
  simp only [decimalFrom, text, List.mem_append, List.mem_cons] at hd
  rcases hd with ((rfl | hd) | hd) | hd
  · exact isNumeralPart_of_isDigit hc
  · exact isNumeralPart_of_isDigit (List.mem_takeWhile_imp hd)
  · exact isNumeralPart_of_fraction? hd
  · unfold exponentText at hd
    split at hd
    · cases hd
    · rename_i e he
      exact Exponent.isNumeralPart_of_read? he hd

theorem isNumeralPart_of_read {c d : Char} {cs : List Char} (hc : c.isDigit)
    (hd : d ∈ (read c cs).text) : isNumeralPart d := by
  rw [read] at hd
  cases hx : hexadecimal? c cs with
  | some x =>
    rw [hx] at hd
    cases cs with
    | nil => cases hx
    | cons letter cs =>
      simp only [hexadecimal?] at hx
      split at hx <;> cases hx
      rename_i h
      rcases List.mem_cons.mp hd with rfl | hd
      · decide
      rcases List.mem_cons.mp hd with rfl | hd
      · rcases h.2.1 with rfl | rfl <;> decide
      · exact isNumeralPart_of_isHexDigit (List.mem_takeWhile_imp hd)
  | none =>
    cases ho : octal? c cs with
    | some x =>
      rw [hx, ho] at hd
      simp only [octal?] at ho
      split at ho <;> cases ho
      rcases List.mem_cons.mp hd with rfl | hd
      · decide
      · exact isNumeralPart_of_isHexDigit
          (isHexDigit_of_isOctalDigit (List.mem_takeWhile_imp hd))
    | none =>
      rw [hx, ho] at hd
      exact isNumeralPart_of_decimalFrom hc hd

theorem text_read_ne_nil (c : Char) (cs : List Char) : (read c cs).text ≠ [] := by
  rw [read]
  cases hx : hexadecimal? c cs with
  | some x =>
    cases cs with
    | nil => cases hx
    | cons letter cs =>
      simp only [hexadecimal?] at hx
      split at hx <;> cases hx
      simp [text]
  | none =>
    cases ho : octal? c cs with
    | some x =>
      simp only [octal?] at ho
      split at ho <;> cases ho
      simp [text]
    | none => simp [decimalFrom, text]

theorem fraction?_text (cs : List Char) :
    cs = fractionText (fraction? cs) ++ cs.drop (fractionText (fraction? cs)).length := by
  unfold fraction?
  split
  · rename_i cs
    simp only [fractionText, List.length_cons, List.drop_succ_cons, List.cons_append]
    rw [List.prefix_iff_eq_append.mp (List.takeWhile_prefix Char.isDigit)]
  · simp [fractionText]

/-- So is a decimal one. -/
theorem text_decimalFrom (c : Char) (cs : List Char) :
    ∃ rest, c :: cs = (decimalFrom c cs).text ++ rest := by
  simp only [decimalFrom, text]
  set behind := cs.dropWhile Char.isDigit with hbehind
  set rest := behind.drop (fractionText (fraction? behind)).length with hrest
  have hcs : c :: cs =
      c :: cs.takeWhile Char.isDigit ++ fractionText (fraction? behind) ++ rest := by
    rw [List.append_assoc, hrest, ← fraction?_text, hbehind, List.cons_append,
      List.takeWhile_append_dropWhile]
  rw [hcs]
  cases he : Exponent.read? rest with
  | none => exact ⟨rest, by simp [exponentText]⟩
  | some e =>
    obtain ⟨more, hmore⟩ := Exponent.text_of_read? he
    exact ⟨more, by simp [exponentText, hmore]⟩

/-- The numeral read at a digit begins with it and goes on with what follows. -/
theorem text_read (c : Char) (cs : List Char) :
    ∃ tail rest, (read c cs).text = c :: tail ∧ cs = tail ++ rest := by
  have hrest : ∃ rest, c :: cs = (read c cs).text ++ rest := by
    rw [read]
    cases hx : hexadecimal? c cs with
    | some x => exact text_of_hexadecimal? hx
    | none =>
      cases ho : octal? c cs with
      | some x => exact text_of_octal? ho
      | none => exact text_decimalFrom c cs
  obtain ⟨rest, hrest⟩ := hrest
  cases htext : (read c cs).text with
  | nil => exact absurd htext (text_read_ne_nil c cs)
  | cons d tail =>
    rw [htext, List.cons_append] at hrest
    obtain ⟨rfl, hcs⟩ := List.cons.inj hrest
    exact ⟨tail, rest, rfl, hcs⟩

/-- A natural number that is the value of a numeral fits. -/
theorem lt_of_value? {x : Numeral} {n : Nat} (h : x.value? = some (.integer n)) :
    n < integerLimit := by
  have lt_of_integer? {k : Nat} (h : integer? k = some (.integer n)) : n < integerLimit := by
    simp only [integer?] at h
    split at h
    · cases h; assumption
    · cases h
  unfold value? at h
  split at h
  · exact lt_of_integer? h
  · exact lt_of_integer? h
  · exact lt_of_integer? h
  · simp at h

end Numeral

/-! ## Pieces -/

/-- The piece as a symbol that begins with `c`. -/
def Piece.symbol (p : Piece) (c : Char) : Symbol := ⟨p.kind, String.ofList (c :: p.tail), p.value?⟩

@[simp]
theorem Piece.toSymbol_token (p : Piece) (c : Char) (m : Mark) :
    (p.token c m).toSymbol = p.symbol c := rfl

/-- The piece is the head of the text `c :: cs`, and a genuine symbol. -/
structure Piece.Heads (p : Piece) (c : Char) (cs : List Char) : Prop where
  stands : ∃ rest, cs = p.tail ++ rest
  genuine : (p.symbol c).Genuine

variable {c : Char} {cs : List Char} {p : Piece}

theorem isQuote_ne {q : Char} (hq : isQuote q) : q ≠ '\n' ∧ q ≠ '\\' := by
  constructor <;> rintro rfl <;> revert hq <;> decide

/-- A string is the head of the text that it is read from. -/
theorem heads_of_stringPiece (hq : isQuote c) (h : stringPiece c cs = .ok p) : p.Heads c cs := by
  simp only [stringPiece] at h
  split at h
  · rename_i text htext
    cases h
    obtain ⟨henc, rest, rfl⟩ := enclosed_of_stringText? (isQuote_ne hq).1 htext
    exact ⟨⟨rest, by simp⟩, .string hq henc⟩
  · cases h

/-- The text of a comment stands in front of the marks that close it. -/
theorem text_of_blockText? {text : List Char} (h : blockText? cs = some text) :
    ∃ rest, cs = text ++ '*' :: '/' :: rest := by
  fun_induction blockText? cs generalizing text with
  | case1 rest => cases h; exact ⟨rest, rfl⟩
  | case2 c cs _ ih =>
    obtain ⟨text, htext, rfl⟩ := Option.map_eq_some_iff.mp h
    obtain ⟨rest, rfl⟩ := ih htext
    exact ⟨rest, rfl⟩
  | case3 => cases h

/-- So is a comment, or a slash alone. -/
theorem heads_of_slashPiece (h : slashPiece cs = .ok p) : p.Heads '/' cs := by
  simp only [slashPiece] at h
  split at h
  · rename_i cs
    cases h
    refine ⟨⟨cs.dropWhile (· ≠ '\n'), ?_⟩, .lineComment fun h ↦ ?_⟩
    · rw [List.cons_append, List.takeWhile_append_dropWhile]
    · simpa using List.mem_takeWhile_imp h
  · split at h
    · rename_i text htext
      cases h
      obtain ⟨rest, rfl⟩ := text_of_blockText? htext
      exact ⟨⟨rest, by simp⟩, .blockComment⟩
    · cases h
  · cases h
    exact ⟨⟨cs, rfl⟩, .operator rfl⟩

/-- So is a numeral. -/
theorem heads_of_numberPiece (hc : c.isDigit) (h : numberPiece c cs = .ok p) : p.Heads c cs := by
  obtain ⟨tail, rest, htext, rfl⟩ := Numeral.text_read c cs
  simp only [numberPiece] at h
  split at h
  · rename_i n hn
    cases h
    refine ⟨⟨rest, by rw [htext]; rfl⟩, ?_⟩
    have hpart : ∀ d ∈ (String.ofList (c :: tail)).toList, isNumeralPart d := by
      intro d hd
      rw [String.toList_ofList, ← htext] at hd
      exact Numeral.isNumeralPart_of_read hc hd
    rw [Piece.symbol, htext]
    cases n with
    | integer n => exact .integer hpart (Numeral.lt_of_value? hn)
    | float x => exact .float hpart
  · cases h

/-- So is a word. -/
theorem heads_wordPiece (hc : isWordStart c) : (wordPiece c cs).Heads c cs := by
  refine ⟨⟨cs.dropWhile isWordPart, List.takeWhile_append_dropWhile.symm⟩,
    .word ⟨c, _, rfl, hc, ?_⟩⟩
  exact fun d hd ↦ List.mem_takeWhile_imp hd

theorem spelling?_of_operator? {kind : Kind} (h : operator? c = some kind) :
    kind.spelling? = some (String.ofList [c]) := by
  unfold operator? at h
  split at h <;> cases h <;> rfl

theorem spelling?_of_withEqual? {kind longer : Kind} (hk : operator? c = some kind)
    (h : withEqual? kind = some longer) : longer.spelling? = some (String.ofList [c, '=']) := by
  unfold operator? at hk
  split at hk <;> cases hk <;> cases h <;> rfl

/-- An equals sign belongs to the operator in front of it if that makes another operator. -/
inductive OperatorAt (c : Char) : List Char → Piece → Prop
  | longer {kind longer : Kind} {rest : List Char} (hkind : operator? c = some kind)
    (hlonger : withEqual? kind = some longer) : OperatorAt c ('=' :: rest) ⟨longer, ['='], none⟩
  | single {kind : Kind} {cs : List Char} (hkind : operator? c = some kind)
    (halone : withEqual? kind = none ∨ cs.head? ≠ some '=') : OperatorAt c cs ⟨kind, [], none⟩

/-- An operator is read exactly where one stands. -/
theorem operatorPiece_eq_ok_iff : operatorPiece c cs = .ok p ↔ OperatorAt c cs p := by
  constructor
  · intro h
    simp only [operatorPiece] at h
    split at h
    · cases h
    rename_i kind hkind
    split at h
    · rename_i longer rest hlonger
      cases h
      exact .longer hkind hlonger
    · rename_i hother
      cases h
      refine .single hkind (or_iff_not_imp_left.mpr fun hlonger hhead ↦ ?_)
      obtain ⟨longer, hlonger⟩ := Option.ne_none_iff_exists'.mp hlonger
      obtain ⟨rest, hrest⟩ := List.head?_eq_some_iff.mp hhead
      exact hother longer rest hlonger hrest
  · intro h
    cases h with
    | longer hkind hlonger => simp only [operatorPiece, hkind, hlonger]
    | single hkind halone =>
      simp only [operatorPiece, hkind]
      split
      · rename_i hlonger
        rcases halone with hnone | hhead
        · exact nomatch hnone.symm.trans hlonger
        · exact absurd rfl hhead
      · rfl

/-- So is an operator. -/
theorem heads_of_operatorPiece (h : operatorPiece c cs = .ok p) : p.Heads c cs := by
  cases operatorPiece_eq_ok_iff.mp h with
  | longer hkind hlonger => exact ⟨⟨_, rfl⟩, .operator (spelling?_of_withEqual? hkind hlonger)⟩
  | single hkind _ => exact ⟨⟨_, rfl⟩, .operator (spelling?_of_operator? hkind)⟩

theorem map_some_eq_ok {x : Except LexicalFault Piece} (h : some <$> x = .ok (some p)) :
    x = .ok p := by
  cases x with
  | error e => cases h
  | ok q => exact congrArg Except.ok (Option.some.inj (Except.ok.inj h))

/-- **The piece at the head of a text is the text that stands there, and a genuine symbol.** -/
theorem heads_of_pieceAt (h : pieceAt c cs = .ok (some p)) : p.Heads c cs := by
  simp only [pieceAt] at h
  split_ifs at h with hblank hslash hquote hdigit hword
  · cases h
  · subst hslash
    exact heads_of_slashPiece (map_some_eq_ok h)
  · exact heads_of_stringPiece hquote (map_some_eq_ok h)
  · exact heads_of_numberPiece hdigit (map_some_eq_ok h)
  · cases h
    exact heads_wordPiece hword
  · exact heads_of_operatorPiece (map_some_eq_ok h)

end ProtoSchema
