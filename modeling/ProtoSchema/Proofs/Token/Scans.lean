import ProtoSchema.Proofs.Token.Division
import ProtoSchema.Print.Quote

/-!
# Texts made of tokens

A text that is put together from the texts of tokens is not always divided into those tokens again:
two words without a blank between them are one word, and a point behind a number belongs to it.  So
what a text says depends on what is written behind it.

`Scans` is the relation between a whole text without comments and its symbols, one token or one
blank at a time.  `Spells` is about a part of a text: whatever stands behind it, it is divided into
the given symbols and what stands behind into its own, as long as the first character there is one
of those that may follow.  `Leads` says no less of texts behind which nothing can be read.

The printer is verified with `Spells`: each text that it writes is proved to spell its symbols, in
front of the weakest condition that is true of it, and the conditions are discharged where texts are
put together, by the first character of the next one.  `Leads` is needed where the text goes on with
something that is rejected, to show that the rejection happens there and not before.

## What is here

* `Scans`, `Divides.scans` — whole texts, and their connection to divisions.
* `closes`, `endsWord`, `anything` — the three conditions on what follows.
* `Spells`, `Leads`, and for both of them `append`, `append_of_head` and `append_of_heads` — texts
  behind one another.
* `Spells.word`, `Spells.keyword` — words; a keyword is printed with its blank.
* `Spells.operator`, `Spells.mark` and one lemma for each mark that the printer writes.
* `Spells.string`, `Spells.quoted`, `Spells.blanks` — the rest.  Numbers are in
  `Proofs/Number/Written.lean`.
-/

set_option autoImplicit false

namespace ProtoSchema

/-! ## Dividing a text -/

/-- The text is divided into the symbols, none of which is a comment. -/
inductive Scans : List Char → List Symbol → Prop
  | nil : Scans [] []
  | blank {c : Char} {cs : List Char} {ss : List Symbol} (hc : isBlank c) (h : Scans cs ss) :
    Scans (c :: cs) ss
  | piece {c : Char} {p : Piece} {rest : List Char} {ss : List Symbol}
    (hp : pieceAt c (p.tail ++ rest) = .ok (some p)) (hk : p.kind ≠ .comment) (h : Scans rest ss) :
    Scans (c :: (p.tail ++ rest)) (p.symbol c :: ss)

/-- A text that is divided without comments is divided. -/
theorem Scans.divides {cs : List Char} {ss : List Symbol} (h : Scans cs ss) :
    Divides [] cs ss ∧ ∀ s ∈ ss, s.kind ≠ .comment := by
  induction h with
  | nil => exact ⟨.nil, nofun⟩
  | blank hc _ ih => exact ⟨.blank hc ih.1, ih.2⟩
  | piece hp hk _ ih =>
    exact ⟨.piece (by rwa [List.append_nil]) ih.1, List.forall_mem_cons.mpr ⟨hk, ih.2⟩⟩

/-- The symbols of a text are genuine. -/
theorem Scans.genuine {cs : List Char} {ss : List Symbol} (h : Scans cs ss) :
    ∀ s ∈ ss, s.Genuine := by
  induction h with
  | nil => nofun
  | blank _ _ ih => exact ih
  | piece hp _ _ ih =>
    intro s hs
    rcases List.mem_cons.mp hs with rfl | hs
    · exact (heads_of_pieceAt hp).genuine
    · exact ih s hs

/-- In front of a text that is divided, a part is divided as it is in front of any. -/
theorem Divides.scans {behind cs : List Char} {ss ts : List Symbol} (h : Divides behind cs ss)
    (hss : ∀ s ∈ ss, s.kind ≠ .comment) (hts : Scans behind ts) :
    Scans (cs ++ behind) (ss ++ ts) := by
  induction h with
  | nil => exact hts
  | blank hc _ ih => exact .blank hc (ih hss)
  | piece hp _ ih =>
    obtain ⟨hk, hss⟩ := List.forall_mem_cons.mp hss
    rw [List.cons_append, List.append_assoc]
    rw [List.append_assoc] at hp
    exact .piece hp hk (ih hss)

/-! ## What may follow -/

/-- A token ends here whatever it is, and so do all characters that are no part of a word, of a
number or of an operator that an equals sign goes on with. -/
def closes (c : Char) : Bool := !isWordPart c && c != '.' && c != '='

/-- A word ends in front of such a character. -/
def endsWord (c : Char) : Bool := !isWordPart c

/-- Any character. -/
def anything (_ : Char) : Bool := true

/-- The text is divided into the symbols, and what stands behind it into its own, if a character
follows of which `q` holds, or none. -/
def Spells (q : Char → Bool) (text : String) (ss : List Symbol) : Prop :=
  ∀ rest ts, (∀ c ∈ rest.head?, q c) → Scans rest ts → Scans (text.toList ++ rest) (ss ++ ts)

/-- The same, and not only of what is divided behind the text: whatever it is, the text in front of
it is divided into the symbols. -/
structure Leads (q : Char → Bool) (text : String) (ss : List Symbol) : Prop where
  divides : ∀ behind : List Char, (∀ c ∈ behind.head?, q c) → Divides behind text.toList ss
  comment : ∀ s ∈ ss, s.kind ≠ .comment

namespace Leads

variable {q q' : Char → Bool} {text text' : String} {ss ss' : List Symbol}

/-- What leads symbols spells them. -/
theorem spells (h : Leads q text ss) : Spells q text ss :=
  fun rest _ hrest hts ↦ (h.divides rest hrest).scans h.comment hts

theorem nil : Leads q "" [] := ⟨fun _ _ ↦ .nil, nofun⟩

theorem blank : Leads q " " [] := ⟨fun _ _ ↦ .blank rfl .nil, nofun⟩

theorem append (h : Leads anything text ss) (h' : Leads q text' ss') :
    Leads q (text ++ text') (ss ++ ss') := by
  refine ⟨fun behind hbehind ↦ ?_, List.forall_mem_append.mpr ⟨h.comment, h'.comment⟩⟩
  rw [String.toList_append]
  exact (h.divides _ fun _ _ ↦ rfl).append (h'.divides behind hbehind)

/-- A text behind another one, the first character of which may follow there. -/
theorem append_of_head {c : Char} (h : Leads q text ss) (h' : Leads q' text' ss')
    (hc : text'.toList.head? = some c) (hq : q c) : Leads q' (text ++ text') (ss ++ ss') := by
  refine ⟨fun behind hbehind ↦ ?_, List.forall_mem_append.mpr ⟨h.comment, h'.comment⟩⟩
  rw [String.toList_append]
  refine (h.divides _ ?_).append (h'.divides behind hbehind)
  rw [List.head?_append, hc]
  rintro _ ⟨⟩
  exact hq

/-- A text that is one token. -/
theorem piece {c : Char} {p : Piece}
    (h : ∀ behind : List Char, (∀ d ∈ behind.head?, q d) →
      pieceAt c (p.tail ++ behind) = .ok (some p)) (hk : p.kind ≠ .comment) :
    Leads q (String.ofList (c :: p.tail)) [p.symbol c] := by
  refine ⟨fun behind hbehind ↦ ?_, List.forall_mem_singleton.mpr hk⟩
  have hpiece : Divides behind (c :: (p.tail ++ [])) [p.symbol c] :=
    .piece (by rw [List.append_nil]; exact h behind hbehind) .nil
  rwa [List.append_nil, ← String.toList_ofList (l := c :: p.tail)] at hpiece

end Leads

namespace Spells

variable {q q' : Char → Bool} {text text' : String} {ss ss' : List Symbol}

/-- Fewer characters that may follow ask for less. -/
theorem mono (h : Spells q text ss) (hq : ∀ c, q' c → q c) : Spells q' text ss :=
  fun rest ts hrest ↦ h rest ts fun c hc ↦ hq c (hrest c hc)

/-- What can be written in front of anything can be written in front of what follows. -/
theorem of_anything (h : Spells anything text ss) : Spells q text ss := h.mono fun _ _ ↦ rfl

theorem closes_of_endsWord (h : Spells endsWord text ss) : Spells closes text ss :=
  h.mono fun c hc ↦ by
    simp only [closes, Bool.and_eq_true] at hc
    exact hc.1.1

/-- With nothing behind it, a text is divided into what it spells. -/
theorem scans (h : Spells q text ss) : Scans text.toList ss := by
  simpa using h [] [] (by simp) .nil

theorem nil : Spells q "" [] := fun _ _ _ h ↦ h

theorem blank : Spells q " " [] := fun _ _ _ h ↦ .blank rfl h

theorem append (h : Spells anything text ss) (h' : Spells q text' ss') :
    Spells q (text ++ text') (ss ++ ss') := by
  intro rest ts hrest hts
  rw [String.toList_append, List.append_assoc, List.append_assoc]
  exact h _ _ (fun _ _ ↦ rfl) (h' rest ts hrest hts)

/-- A text behind another one, the first character of which may follow there. -/
theorem append_of_head {c : Char} (h : Spells q text ss) (h' : Spells q' text' ss')
    (hc : text'.toList.head? = some c) (hq : q c) : Spells q' (text ++ text') (ss ++ ss') := by
  intro rest ts hrest hts
  rw [String.toList_append, List.append_assoc, List.append_assoc]
  refine h _ _ ?_ (h' rest ts hrest hts)
  rw [List.head?_append, hc]
  rintro _ ⟨⟩
  exact hq

/-- A text behind another one that may be empty. -/
theorem append_of_heads (h : Spells q text ss) (h' : Spells q text' ss')
    (hq : ∀ c ∈ text'.toList.head?, q c) : Spells q (text ++ text') (ss ++ ss') := by
  intro rest ts hrest hts
  rw [String.toList_append, List.append_assoc, List.append_assoc]
  refine h _ _ (fun c hc ↦ ?_) (h' rest ts hrest hts)
  rw [List.head?_append] at hc
  rcases Option.or_eq_some_iff.mp hc with hc | ⟨-, hc⟩
  · exact hq c hc
  · exact hrest c hc

end Spells

/-! ## Words -/

/-- The symbol of a word. -/
def Symbol.word (text : String) : Symbol := ⟨.ofWord text, text, none⟩

/-- A name of a text is a word. -/
theorem Symbol.Genuine.isWord_lexeme {s : Symbol} (h : s.Genuine) (hs : s.isName) :
    IsWord s.lexeme ∧ s = .word s.lexeme := by
  cases h with
  | word h => exact ⟨h, rfl⟩
  | @operator kind text h =>
    simp only [Symbol.isName, Bool.or_eq_true, beq_iff_eq] at hs
    rcases hs with rfl | rfl <;> cases h
  | string | integer | float | lineComment | blockComment => cases hs

theorem takeWhile_append_of_head {p : Char → Bool} {cs rest : List Char} (hcs : ∀ c ∈ cs, p c)
    (hrest : ∀ c ∈ rest.head?, ¬p c) : (cs ++ rest).takeWhile p = cs := by
  rw [List.takeWhile_append_of_pos hcs]
  cases rest with
  | nil => simp
  | cons c rest => rw [List.takeWhile_cons_of_neg (hrest c rfl), List.append_nil]

theorem not_of_isWordStart {c : Char} (h : isWordStart c) :
    ¬isBlank c ∧ c ≠ '/' ∧ ¬isQuote c ∧ ¬c.isDigit := by
  refine ⟨fun hc ↦ ?_, fun hc ↦ ?_, fun hc ↦ ?_, fun hc ↦ ?_⟩
  · simp only [isBlank, Bool.or_eq_true, beq_iff_eq] at hc
    rcases hc with ((rfl | rfl) | rfl) | rfl <;> exact absurd h (by decide)
  · subst hc
    exact absurd h (by decide)
  · simp only [isQuote, Bool.or_eq_true, beq_iff_eq] at hc
    rcases hc with rfl | rfl <;> exact absurd h (by decide)
  · have hletter : c.isAlpha =
        (decide (c.val ≥ 'A'.val ∧ c.val ≤ 'Z'.val) || c.val ≥ 'a'.val && c.val ≤ 'z'.val) := by
      rfl
    simp only [isWordStart, hletter, Char.isDigit, Bool.or_eq_true,
      Bool.and_eq_true, decide_eq_true_eq, beq_iff_eq, UInt32.le_iff_toNat_le, ge_iff_le] at h hc
    rcases h with (h | h) | rfl
    · simp at h hc; omega
    · simp at h hc; omega
    · exact absurd hc (by decide)

/-- A letter begins a word. -/
theorem pieceAt_of_isWordStart {c : Char} (hword : isWordStart c) (cs : List Char) :
    pieceAt c cs = .ok (some (wordPiece c cs)) := by
  obtain ⟨hblank, hslash, hquote, hdigit⟩ := not_of_isWordStart hword
  rw [pieceAt, if_neg hblank, if_neg hslash, if_neg hquote, if_neg hdigit, if_pos hword]

theorem kind_ofWord_ne_comment (text : String) : Kind.ofWord text ≠ .comment := by
  rw [Kind.ofWord]
  split <;> simp

theorem Leads.word {text : String} (h : IsWord text) : Leads endsWord text [.word text] := by
  obtain ⟨c, tail, rfl, hc, htail⟩ := h
  refine .piece (p := ⟨.ofWord (String.ofList (c :: tail)), tail, none⟩) (fun behind hbehind ↦ ?_)
    (kind_ofWord_ne_comment _)
  have htake : (tail ++ behind).takeWhile isWordPart = tail := by
    refine takeWhile_append_of_head htail fun d hd hpart ↦ ?_
    have hends := hbehind d hd
    rw [endsWord, hpart] at hends
    cases hends
  rw [pieceAt_of_isWordStart hc, wordPiece, htake]

/-- A word is one symbol in front of what ends words. -/
theorem Spells.word {text : String} (h : IsWord text) : Spells endsWord text [.word text] :=
  (Leads.word h).spells

theorem isWord_of_all {text : String} (hc : text.toList.head?.any isWordStart)
    (htail : text.toList.tail.all isWordPart) : IsWord text := by
  cases hcs : text.toList with
  | nil => simp [hcs] at hc
  | cons c cs =>
    rw [hcs] at hc htail
    exact ⟨c, cs, by rw [← hcs, String.ofList_toList], by simpa using hc, by simpa using htail⟩

/-- A word with a blank behind it. -/
theorem Leads.keyword {q : Char → Bool} {word text : String} (h : IsWord word)
    (htext : text = word ++ " ") : Leads q text [.word word] := by
  rw [htext]
  exact (Leads.word h).append_of_head .blank (c := ' ') rfl rfl

theorem Spells.keyword {q : Char → Bool} {word text : String} (h : IsWord word)
    (htext : text = word ++ " ") : Spells q text [.word word] :=
  (Leads.keyword h htext).spells

/-! ## Marks -/

theorem pieceAt_of_operator? {c : Char} {kind : Kind} (h : operator? c = some kind) (hc : c ≠ '/')
    (cs : List Char) : pieceAt c cs = some <$> operatorPiece c cs := by
  obtain ⟨hblank, hquote, hdigit, hword⟩ :
      isBlank c = false ∧ isQuote c = false ∧ c.isDigit = false ∧ isWordStart c = false := by
    unfold operator? at h
    split at h <;> first | decide | cases h
  rw [pieceAt, if_neg (by simp [hblank]), if_neg hc, if_neg (by simp [hquote]),
    if_neg (by simp [hdigit]), if_neg (by simp [hword])]

theorem operatorPiece_eq {c : Char} {kind : Kind} (h : operator? c = some kind) {cs : List Char}
    (hcs : withEqual? kind = none ∨ cs.head? ≠ some '=') :
    operatorPiece c cs = .ok ⟨kind, [], none⟩ :=
  operatorPiece_eq_ok_iff.mpr (.single h hcs)

/-- An operator of one character, which an equals sign must not follow if that makes another one. -/
theorem Leads.operator {q : Char → Bool} {c : Char} {kind : Kind} (h : operator? c = some kind)
    (hc : c ≠ '/') (hq : ∀ d, q d → withEqual? kind = none ∨ d ≠ '=') :
    Leads q (String.ofList [c]) [⟨kind, String.ofList [c], none⟩] := by
  have hk : kind ≠ .comment := by
    rintro rfl
    exact nomatch spelling?_of_operator? h
  refine .piece (p := ⟨kind, [], none⟩) (fun behind hbehind ↦ ?_) hk
  rw [pieceAt_of_operator? h hc, List.nil_append, operatorPiece_eq h]
  · rfl
  · cases behind with
    | nil => exact .inr nofun
    | cons d behind => simpa using hq d (hbehind d rfl)

/-- An operator is one symbol where nothing joins with it. -/
theorem Spells.operator {q : Char → Bool} {c : Char} {kind : Kind} (h : operator? c = some kind)
    (hc : c ≠ '/') (hq : ∀ d, q d → withEqual? kind = none ∨ d ≠ '=') :
    Spells q (String.ofList [c]) [⟨kind, String.ofList [c], none⟩] :=
  (Leads.operator h hc hq).spells

/-- The symbol of a mark of punctuation. -/
def Symbol.mark (kind : Kind) : Symbol := ⟨kind, kind.spelling?.getD "", none⟩

/-- A symbol of a text that is a mark is determined by its kind. -/
theorem Symbol.Genuine.eq_mark {s : Symbol} (h : s.Genuine) {kind : Kind} (hs : s.kind = kind)
    (hk : kind.spelling?.isSome) : s = .mark kind := by
  subst hs
  cases h with
  | @operator kind text h => simp [Symbol.mark, h]
  | @word text h =>
    simp only [Kind.ofWord] at hk
    split at hk <;> cases hk
  | string | integer | float | lineComment | blockComment => cases hk

/-- The marks that no other character goes on with. -/
def Kind.standsAlone (kind : Kind) : Bool := kind != .slash && (withEqual? kind).isNone

theorem Leads.mark {q : Char → Bool} {c : Char} {kind : Kind} (h : operator? c = some kind)
    (hk : kind.standsAlone) : Leads q (String.ofList [c]) [.mark kind] := by
  obtain ⟨hslash, hequal⟩ := Bool.and_eq_true_iff.mp hk
  have hc : c ≠ '/' := by
    rintro rfl
    obtain rfl := Option.some.inj h
    cases hslash
  rw [Symbol.mark, spelling?_of_operator? h]
  exact .operator h hc fun _ _ ↦ .inl (Option.isNone_iff_eq_none.mp hequal)

/-- A mark that stands alone is one symbol whatever follows. -/
theorem Spells.mark {q : Char → Bool} {c : Char} {kind : Kind} (h : operator? c = some kind)
    (hk : kind.standsAlone) : Spells q (String.ofList [c]) [.mark kind] :=
  (Leads.mark h hk).spells

theorem Spells.leftParen {q : Char → Bool} : Spells q "(" [.mark .leftParen] :=
  Spells.mark (c := '(') rfl rfl

theorem Leads.comma {q : Char → Bool} : Leads q ", " [.mark .comma] :=
  Leads.append (Leads.mark (c := ',') rfl rfl) .blank

theorem Spells.comma {q : Char → Bool} : Spells q ", " [.mark .comma] := Leads.comma.spells

theorem Leads.semicolon {q : Char → Bool} : Leads q ";" [.mark .semicolon] :=
  Leads.mark (c := ';') rfl rfl

theorem Spells.semicolon {q : Char → Bool} : Spells q ";" [.mark .semicolon] :=
  Leads.semicolon.spells

/-- An equals sign between blanks. -/
theorem Leads.equals {q : Char → Bool} : Leads q " = " [.mark .equal] := by
  have hequal : Leads closes "=" [.mark .equal] := by
    refine .operator (c := '=') rfl (by decide) fun d hd ↦ .inr ?_
    rintro rfl
    exact absurd hd (by decide)
  exact Leads.blank.append (hequal.append_of_head .blank (c := ' ') rfl rfl)

theorem Spells.equals {q : Char → Bool} : Spells q " = " [.mark .equal] := Leads.equals.spells

/-- A word and the equals sign behind it. -/
theorem Leads.named {q : Char → Bool} {word : String} (h : IsWord word) :
    Leads q (word ++ " = ") [.word word, .mark .equal] :=
  (Leads.word h).append_of_head .equals (c := ' ') rfl rfl

/-! ## Strings -/

theorem pieceAt_of_isQuote {c : Char} (hquote : isQuote c) (cs : List Char) :
    pieceAt c cs = some <$> stringPiece c cs := by
  obtain ⟨hblank, hslash⟩ : ¬isBlank c ∧ c ≠ '/' := by
    simp only [isQuote, Bool.or_eq_true, beq_iff_eq] at hquote
    rcases hquote with rfl | rfl <;> decide
  rw [pieceAt, if_neg hblank, if_neg hslash, if_pos hquote]

/-- A string is one symbol whatever follows. -/
theorem Spells.string {q : Char → Bool} {quote : Char} {content : List Char} (hq : isQuote quote)
    (h : Enclosed quote content) :
    Spells q (String.ofList (quote :: content ++ [quote]))
      [⟨.string, String.ofList (quote :: content ++ [quote]),
        some (.text (String.ofList content))⟩] := by
  intro rest ts _ hts
  obtain ⟨hnewline, hbackslash⟩ := isQuote_ne hq
  have hpiece : pieceAt quote (content ++ [quote] ++ rest) = .ok
      (some ⟨.string, content ++ [quote], some (.text (String.ofList content))⟩) := by
    have htext : stringText? quote (content ++ [quote] ++ rest) = some content := by
      rw [List.append_assoc]
      exact stringText?_of_enclosed hnewline hbackslash h rest
    rw [pieceAt_of_isQuote hq, stringPiece, htext]
    rfl
  rw [String.toList_ofList]
  exact .piece (p := ⟨.string, content ++ [quote], some (.text (String.ofList content))⟩) hpiece
    (by simp) hts

/-- The symbol of a string literal with the quotes that are chosen for it. -/
def Symbol.quoted (content : String) : Symbol :=
  ⟨.string, ProtoSchema.quoted content, some (.text content)⟩

/-- A text that can stand between quotes is one symbol when it is quoted. -/
theorem Spells.quoted {q : Char → Bool} {quote : Char} {content : String} (hq : isQuote quote)
    (h : Enclosed quote content.toList) :
    Spells q (ProtoSchema.quoted content) [.quoted content] := by
  have htext : ProtoSchema.quoted content = String.ofList
      (quoteFor content.toList :: content.toList ++ [quoteFor content.toList]) := by
    apply String.toList_injective
    simp [ProtoSchema.quoted]
  have hspells := Spells.string (q := q) (isQuote_quoteFor content.toList) (h.quoteFor hq)
  rwa [String.ofList_toList, ← htext] at hspells

/-! ## Blanks -/

/-- Blanks are no symbols. -/
theorem Spells.blanks {q : Char → Bool} {text : String} (h : ∀ c ∈ text.toList, isBlank c) :
    Spells q text [] := by
  intro rest ts _ hts
  generalize text.toList = cs at h ⊢
  induction cs with
  | nil => exact hts
  | cons c cs ih =>
    exact .blank (h c List.mem_cons_self) (ih fun d hd ↦ h d (List.mem_cons_of_mem c hd))

end ProtoSchema
