import ProtoSchema.Proofs.Token.Lexeme
import ProtoSchema.Proofs.Token.Longest

/-!
# Scanning follows the lexical grammar

Wherever `pieceAt` finds a token, the lexical grammar has that token at the place
(`lexes_of_pieceAt`), and no other (`Lexes.unique`).  A scan looks at the places one after the
other, so the same is true of all of its tokens (`scan_lexes`).

For words, numerals and operators this is longest match.  What is left are the tokens that end at a
mark, and the question for each of them is whether the mark that is found is the first that counts.
In a string that depends on the backslashes in front of it, and the scanner, which steps over two
characters at a backslash, and the grammar, which looks back at what is in front of a quote, have to
agree on it (`hasUnescaped_eq_false_iff`).

## What is here

* `forall_front_cons`, `hasUnescaped_eq_false_iff`, `enclosed_iff` — quotes.  Looking ahead over
  escapes and looking back at them comes to the same, by induction with the parity of backslashes in
  `endsEscaped`.
* `length_le_of_blockText?` — the marks of a comment.
* `lexes_of_stringPiece` to `lexes_wordPiece`, and `lexes_of_pieceAt` — the tokens that are found
  are in the grammar.
* `operator_unique`, `blockText?_unique`, `Lexes.unique` — the grammar has no others at the place.
  A slash is the case to watch: it is an operator only where it begins no comment.
* `scan_lexes` — all tokens of a scan, together with what `scan_lossless` says of their places.

The converse, that a list of tokens which follows the grammar at each place and leaves only blanks
between them is the scan, is in `Proofs/Token/Lexed.lean`.
-/

set_option autoImplicit false

namespace ProtoSchema

open Lexical

variable {c quote : Char} {cs content rest : List Char} {p : Piece} {s : Symbol}

/-! ## The marks at the end of a token -/

theorem endsEscaped_cons (hc : c ≠ '\\') : endsEscaped (c :: cs) = endsEscaped cs := by
  cases cs with
  | nil => simpa [endsEscaped] using hc
  | cons d cs => rw [endsEscaped, if_neg hc]

/-- A property of what is in front of the quotes of a text, one character further. -/
theorem forall_front_cons {P : List Char → Prop} :
    (∀ front back, c :: cs = front ++ quote :: back → P front) ↔
      (c = quote → P []) ∧ ∀ front back, cs = front ++ quote :: back → P (c :: front) := by
  constructor
  · intro h
    refine ⟨?_, fun front back hcs ↦ h (c :: front) back (congrArg (c :: ·) hcs)⟩
    rintro rfl
    exact h [] cs rfl
  · rintro ⟨hnil, hcons⟩ front back hcs
    cases front with
    | nil => exact hnil (List.cons.inj hcs).1
    | cons d front =>
      obtain ⟨rfl, hrest⟩ := List.cons.inj hcs
      exact hcons front back hrest

/-- Looking for a quote from the left and looking back from each quote come to the same. -/
theorem hasUnescaped_eq_false_iff (hquote : quote ≠ '\\') :
    hasUnescaped quote content = false ↔
      ∀ front back, content = front ++ quote :: back → endsEscaped front := by
  fun_induction hasUnescaped quote content with
  | case1 => simp
  | case2 c =>
    rw [forall_front_cons]
    by_cases hc : c = quote
    · simp [hc, hquote, endsEscaped]
    · simp [hc]
  | case3 d cs ih =>
    -- the character behind the backslash is no quote that counts, whatever it is
    rw [ih, forall_front_cons, forall_front_cons]
    simp [endsEscaped, hquote.symm]
  | case4 c d cs hc ih =>
    rw [forall_front_cons]
    simp only [endsEscaped_cons hc, ← ih]
    by_cases hquote : c = quote <;> simp [hquote, endsEscaped]

/-- A text can stand between quotes if no newline is in it, no backslash at its end escapes nothing,
and each quote in it is escaped by what is in front of it. -/
theorem enclosed_iff (hquote : isQuote quote) :
    Enclosed quote content ↔ '\n' ∉ content ∧ ¬endsEscaped content ∧
      ∀ front back, content = front ++ quote :: back → endsEscaped front := by
  rw [← hasUnescaped_eq_false_iff (isQuote_ne hquote).2, Bool.not_eq_true]
  exact ⟨fun ⟨hline, hcloses, hbare⟩ ↦ ⟨hline, hcloses, hbare⟩,
    fun ⟨hline, hcloses, hbare⟩ ↦ ⟨hline, hcloses, hbare⟩⟩

/-- The marks that are found are the first ones. -/
theorem length_le_of_blockText? (h : blockText? cs = some content) :
    ∀ front back, cs = front ++ '*' :: '/' :: back → content.length ≤ front.length := by
  fun_induction blockText? cs generalizing content with
  | case1 => cases h; exact fun _ _ _ ↦ Nat.zero_le _
  | case2 c cs hopen ih =>
    obtain ⟨text, htext, rfl⟩ := Option.map_eq_some_iff.mp h
    intro front back hcs
    cases front with
    | nil =>
      obtain ⟨rfl, rfl⟩ := List.cons.inj hcs
      exact (hopen back rfl rfl).elim
    | cons d front => exact Nat.succ_le_succ (ih htext front back (List.cons.inj hcs).2)
  | case3 => cases h

/-! ## The tokens that are found -/

/-- A string that is found is one of the lexical grammar. -/
theorem lexes_of_stringPiece (hquote : isQuote c) (h : stringPiece c cs = .ok p) :
    Lexes (c :: cs) (p.symbol c) := by
  simp only [stringPiece] at h
  split at h
  · rename_i text htext
    cases h
    obtain ⟨henclosed, rest, rfl⟩ := enclosed_of_stringText? (isQuote_ne hquote).1 htext
    obtain ⟨hline, hcloses, hfirst⟩ := (enclosed_iff hquote).mp henclosed
    exact .string (by simpa [isQuote] using hquote) rfl hline hcloses hfirst
  · cases h

/-- So is an operator, where no comment begins. -/
theorem lexes_of_operatorPiece (h : operatorPiece c cs = .ok p) (hline : ¬['/', '/'] <+: c :: cs)
    (hblock : ¬['/', '*'] <+: c :: cs) : Lexes (c :: cs) (p.symbol c) := by
  obtain ⟨hspelling, hvalue⟩ := spelling?_of_operatorPiece h
  have hlongest : Longest operators (String.ofList (c :: p.tail)).toList (c :: cs) := by
    rw [String.toList_ofList]
    exact longest_operator h
  rw [Piece.symbol, hvalue]
  exact .operator hspelling hlongest hline hblock

/-- So is a comment. -/
theorem lexes_of_slashPiece (h : slashPiece cs = .ok p) : Lexes ('/' :: cs) (p.symbol '/') := by
  unfold slashPiece at h
  split at h
  · rename_i cs
    cases h
    have hsplit : '/' :: '/' :: cs =
        '/' :: '/' :: (cs.takeWhile (· ≠ '\n') ++ cs.dropWhile (· ≠ '\n')) := by
      rw [List.takeWhile_append_dropWhile]
    refine .lineComment hsplit ?_ fun d hd ↦ ?_
    · exact fun hmem ↦ by simpa using List.mem_takeWhile_imp hmem
    · simpa using not_of_head?_dropWhile d hd
  · rename_i cs
    split at h
    · rename_i content hcontent
      cases h
      obtain ⟨rest, rfl⟩ := text_of_blockText? hcontent
      exact .blockComment rfl (length_le_of_blockText? hcontent)
    · cases h
  · rename_i hline hblock
    cases h
    have hpiece : operatorPiece '/' cs = .ok ⟨.slash, [], none⟩ := operatorPiece_eq rfl (.inl rfl)
    refine lexes_of_operatorPiece hpiece ?_ ?_
    · rintro ⟨rest, hcs⟩
      exact hline rest (List.cons.inj hcs).2.symm
    · rintro ⟨rest, hcs⟩
      exact hblock rest (List.cons.inj hcs).2.symm

theorem symbol_of_numberPiece (hdigit : c.isDigit) (h : numberPiece c cs = .ok p) :
    ∃ n, p.symbol c = ⟨.number, String.ofList (Numeral.read c cs).text, some (.number n)⟩ := by
  obtain ⟨rest, rfl⟩ := (heads_of_numberPiece hdigit h).stands
  obtain ⟨htext, hkind, n, -, hvalue⟩ := text_of_numberPiece h
  exact ⟨n, by rw [Piece.symbol, htext, hkind, hvalue]⟩

/-- So is a numeral. -/
theorem lexes_of_numberPiece (hdigit : c.isDigit) (h : numberPiece c cs = .ok p) :
    Lexes (c :: cs) (p.symbol c) := by
  obtain ⟨n, hsymbol⟩ := symbol_of_numberPiece hdigit h
  rw [hsymbol]
  refine .number ?_
  rw [String.toList_ofList]
  exact Numeral.longest_read hdigit

theorem ofWord_eq (text : String) :
    Kind.ofWord text = if text ∈ primitiveWords then .primitiveType else .identifier := by
  simp [Kind.ofWord, isPrimitiveWord]

/-- So is a word. -/
theorem lexes_wordPiece (hword : isWordStart c) : Lexes (c :: cs) ((wordPiece c cs).symbol c) := by
  rw [Piece.symbol, wordPiece, ofWord_eq]
  refine .word ?_
  rw [String.toList_ofList]
  exact longest_word hword

/-- **What is found at a place is what the lexical grammar has there.** -/
theorem lexes_of_pieceAt (h : pieceAt c cs = .ok (some p)) : Lexes (c :: cs) (p.symbol c) := by
  simp only [pieceAt] at h
  split_ifs at h with hblank hslash hquote hdigit hword
  · cases h
  · subst hslash
    exact lexes_of_slashPiece (map_some_eq_ok h)
  · exact lexes_of_stringPiece hquote (map_some_eq_ok h)
  · exact lexes_of_numberPiece hdigit (map_some_eq_ok h)
  · cases h
    exact lexes_wordPiece hword
  · refine lexes_of_operatorPiece (map_some_eq_ok h) ?_ ?_ <;>
      exact fun hcs ↦ hslash (List.cons_prefix_cons.mp hcs).1.symm

/-! ## No other tokens -/

theorem pieceAt_slash (cs : List Char) : pieceAt '/' cs = some <$> slashPiece cs := rfl

theorem operatorPiece_of_pieceAt {kind : Kind} (hoperator : operator? c = some kind)
    (hline : ¬['/', '/'] <+: c :: cs) (hblock : ¬['/', '*'] <+: c :: cs)
    (h : pieceAt c cs = .ok (some p)) : operatorPiece c cs = .ok p := by
  by_cases hslash : c = '/'
  · subst hslash
    have hhead : ∀ d ∈ cs.head?, d ≠ '/' ∧ d ≠ '*' := by
      intro d hd
      obtain ⟨rest, rfl⟩ := List.head?_eq_some_iff.mp hd
      refine ⟨?_, ?_⟩
      · rintro rfl
        exact hline ⟨rest, rfl⟩
      · rintro rfl
        exact hblock ⟨rest, rfl⟩
    rw [pieceAt_slash, slashPiece_of_head hhead] at h
    rw [operatorPiece_eq rfl (.inl rfl)]
    exact map_some_eq_ok h
  · rw [pieceAt_of_operator? hoperator hslash] at h
    exact map_some_eq_ok h

/-- A text that stands at a place begins with the character that is there. -/
theorem head_of_stands {d : Char} {tail text : List Char} (htext : text = d :: tail)
    (h : text <+: c :: cs) : d = c := by
  rw [htext] at h
  exact (List.cons_prefix_cons.mp h).1

theorem isDigit_of_mem_numerals {w : List Char} (hw : w ∈ numerals) :
    ∃ d tail, w = d :: tail ∧ d.isDigit := by
  rcases hw with hw | hw
  · obtain ⟨letter, digits, rfl, -⟩ := mem_hexadecimals.mp hw
    exact ⟨'0', _, rfl, rfl⟩
  · obtain ⟨whole, fraction?, exponent?, rfl, hne, hwhole, -⟩ := mem_decimals.mp hw
    obtain ⟨d, whole, rfl⟩ := List.exists_cons_of_ne_nil hne
    exact ⟨d, _, rfl, hwhole d List.mem_cons_self⟩

/-- Where an operator stands, its first character is an operator by itself. -/
theorem exists_operator?_of_stands {kind : Kind} {text : String}
    (hspelling : kind.spelling? = some text) (h : text.toList <+: c :: cs) :
    ∃ first, operator? c = some first := by
  rcases operator?_of_spelling? hspelling with ⟨d, htext, hd⟩ | ⟨d, shorter, htext, hd, -⟩
  · exact ⟨kind, head_of_stands htext h ▸ hd⟩
  · exact ⟨shorter, head_of_stands htext h ▸ hd⟩

/-- Where a word of the grammar stands, a word can begin. -/
theorem isWordStart_of_longest {text : List Char} (h : Longest words text (c :: cs)) :
    isWordStart c := by
  obtain ⟨d, tail, htext, hword, -⟩ := mem_words.mp h.mem
  exact head_of_stands htext h.stands ▸ hword

/-- Where a numeral of the grammar stands, there is a digit. -/
theorem isDigit_of_longest {text : List Char} (h : Longest numerals text (c :: cs)) :
    c.isDigit := by
  obtain ⟨d, tail, htext, hdigit⟩ := isDigit_of_mem_numerals h.mem
  exact head_of_stands htext h.stands ▸ hdigit

/-- Where an operator of the grammar stands, it is the one that is found. -/
theorem operator_unique {kind : Kind} {text : String} (hspelling : kind.spelling? = some text)
    (h : Longest operators text.toList (c :: cs)) (hline : ¬['/', '/'] <+: c :: cs)
    (hblock : ¬['/', '*'] <+: c :: cs) (hp : pieceAt c cs = .ok (some p)) :
    kind = p.kind ∧ text = String.ofList (c :: p.tail) ∧ none = p.value? := by
  obtain ⟨first, hfirst⟩ := exists_operator?_of_stands hspelling h.stands
  have hpiece := operatorPiece_of_pieceAt hfirst hline hblock hp
  obtain ⟨hspelling', hvalue⟩ := spelling?_of_operatorPiece hpiece
  obtain rfl : text = String.ofList (c :: p.tail) := by
    rw [← h.unique (longest_operator hpiece), String.ofList_toList]
  exact ⟨Kind.eq_of_spelling? hspelling hspelling', rfl, hvalue.symm⟩

/-- The first marks that close a comment are those that are found. -/
theorem blockText?_unique {text : List Char}
    (hfirst : ∀ front back, content ++ '*' :: '/' :: rest = front ++ '*' :: '/' :: back →
      content.length ≤ front.length)
    (h : blockText? (content ++ '*' :: '/' :: rest) = some text) : text = content := by
  obtain ⟨back, hback⟩ := text_of_blockText? h
  have hle : content.length ≤ text.length := hfirst text back hback
  have hge : text.length ≤ content.length := length_le_of_blockText? h content rest rfl
  exact (List.append_inj hback (Nat.le_antisymm hle hge)).1.symm

/-- **At a place where a token is found the lexical grammar has no other.** -/
theorem Lexes.unique (h : Lexes (c :: cs) s) (hp : pieceAt c cs = .ok (some p)) :
    s.kind = p.kind ∧ s.lexeme = String.ofList (c :: p.tail) ∧ s.text? = (p.symbol c).text? := by
  cases h with
  | operator hspelling h hline hblock =>
    obtain ⟨hkind, hlexeme, hvalue⟩ := operator_unique hspelling h hline hblock hp
    refine ⟨hkind, hlexeme, ?_⟩
    rw [Symbol.text?, Symbol.text?, Piece.symbol, ← hvalue]
  | @word text h =>
    have hword := isWordStart_of_longest h
    rw [pieceAt_of_isWordStart hword] at hp
    cases hp
    obtain rfl : text = String.ofList (c :: cs.takeWhile isWordPart) := by
      rw [← h.unique (longest_word hword), String.ofList_toList]
    exact ⟨(ofWord_eq _).symm, rfl, rfl⟩
  | @number text n h =>
    have hdigit := isDigit_of_longest h
    rw [pieceAt_of_isDigit hdigit] at hp
    obtain ⟨m, hsymbol⟩ := symbol_of_numberPiece hdigit (map_some_eq_ok hp)
    obtain rfl : text = String.ofList (Numeral.read c cs).text := by
      rw [← h.unique (Numeral.longest_read hdigit), String.ofList_toList]
    exact ⟨(congrArg Symbol.kind hsymbol).symm, (congrArg Symbol.lexeme hsymbol).symm,
      (congrArg Symbol.text? hsymbol).symm⟩
  | string hquote hcs hline hcloses hfirst =>
    obtain ⟨rfl, rfl⟩ := List.cons.inj hcs
    have hq : isQuote c := by simpa [isQuote] using hquote
    obtain ⟨hnewline, hbackslash⟩ := isQuote_ne hq
    have henclosed := (enclosed_iff hq).mpr ⟨hline, hcloses, hfirst⟩
    have htext := stringText?_of_enclosed hnewline hbackslash henclosed
    rw [pieceAt_of_isQuote hq, stringPiece, htext] at hp
    cases hp
    exact ⟨rfl, rfl, rfl⟩
  | @lineComment content rest hcs hline hrest =>
    obtain ⟨rfl, rfl⟩ := List.cons.inj hcs
    have htake : (content ++ rest).takeWhile (· ≠ '\n') = content := by
      refine takeWhile_append_of_head (fun d hd ↦ ?_) fun d hd ↦ ?_
      · simpa using ne_of_mem_of_not_mem hd hline
      · simpa using hrest d hd
    rw [pieceAt_slash, slashPiece, htake] at hp
    cases hp
    exact ⟨rfl, rfl, rfl⟩
  | @blockComment content rest hcs hfirst =>
    obtain ⟨rfl, rfl⟩ := List.cons.inj hcs
    rw [pieceAt_slash, slashPiece] at hp
    split at hp
    · rename_i text htext
      obtain rfl := blockText?_unique hfirst htext
      cases hp
      exact ⟨rfl, rfl, rfl⟩
    · cases hp

/-! ## Scans -/

/-- **A scan follows the lexical grammar.**  Each of the tokens is what the grammar has at the place
where the token begins, and the grammar has nothing else there.  The tokens stand one behind the
other and are all of the text but for blanks. -/
theorem scan_lexes {text : String} {tokens : List Token} (h : scan text = .ok tokens) :
    ∃ ts, tokens = ts ++ [Token.endAt (Mark.start.after text.toList)] ∧ Lossless text ts ∧
      ∀ t ∈ ts, ∃ front cs, text.toList = front ++ cs ∧
        t.span = ⟨Mark.start.after front, Mark.start.after (front ++ t.lexeme.toList)⟩ ∧
        Lexes cs t.toSymbol ∧
        ∀ s, Lexes cs s → s.kind = t.kind ∧ s.lexeme = t.lexeme ∧ s.text? = t.toSymbol.text? := by
  obtain ⟨ts, rfl, htiled⟩ := tiled_of_scanFrom h
  refine ⟨ts, rfl, htiled.lossless, fun t ht ↦ ?_⟩
  obtain ⟨before, behind, rfl⟩ := List.append_of_mem ht
  rw [List.append_assoc, List.cons_append] at h
  obtain ⟨front, c, p, rest, hcs, -, hpiece, rfl, -⟩ :=
    exists_split_of_scanFrom h (htiled.kind_ne_eof t ht)
  refine ⟨front, c :: (p.tail ++ rest), hcs, ?_, lexes_of_pieceAt hpiece, ?_⟩
  · simp only [Piece.token, String.toList_ofList, Mark.after_append]
  · exact fun s hs ↦ hs.unique hpiece

/-- A number with a hexadecimal letter, one that a letter `e` without digits follows, a comparison,
an escaped quote in a string, and a comment with marks that overlap. -/
theorem scan_lexes_mixed :
    ∃ text tokens ts, text = "x<=0x1Fg 012.5e+e '\\'é'/*/ **/" ∧ scan text = .ok tokens ∧
      tokens[2]?.map Token.toSymbol = some ⟨.number, "0x1F", some (.number (.integer 31))⟩ ∧
      tokens = ts ++ [Token.endAt (Mark.start.after text.toList)] ∧ Lossless text ts ∧
      ∀ t ∈ ts, ∃ front cs, text.toList = front ++ cs ∧
        t.span = ⟨Mark.start.after front, Mark.start.after (front ++ t.lexeme.toList)⟩ ∧
        Lexes cs t.toSymbol ∧
        ∀ s, Lexes cs s → s.kind = t.kind ∧ s.lexeme = t.lexeme ∧ s.text? = t.toSymbol.text? := by
  obtain ⟨tokens, h⟩ :=
    exists_ok_of_isOk (x := scan "x<=0x1Fg 012.5e+e '\\'é'/*/ **/") (by decide +kernel)
  have hvalue : (scan "x<=0x1Fg 012.5e+e '\\'é'/*/ **/").toOption.map
      (fun tokens ↦ tokens[2]?.map Token.toSymbol) =
        some (some ⟨.number, "0x1F", some (.number (.integer 31))⟩) := by
    decide +kernel
  rw [h] at hvalue
  obtain ⟨ts, htokens, hlexes⟩ := scan_lexes h
  exact ⟨_, tokens, ts, rfl, h, Option.some.inj hvalue, htokens, hlexes⟩

end ProtoSchema
