import ProtoSchema.Proofs.Token.Lossless

/-!
# Parts of a text

How a part of a text is divided into tokens depends on what stands behind it, because a token goes
on as long as it can.  `Divides behind` is about a part of a text and the text behind it, and a scan
is made of such parts: it divides the whole text with nothing behind, and can be cut in front of
each token (`exists_split_of_scanFrom`).

Behind a newline, a semicolon or a brace it does not matter what stands there: none of them goes on
with a token that began in front of it, but a string or a comment, and one of those would not be
over (`Divides.alike`).  So a part that such a character follows is divided alike in other texts.

## What is here

* `Divides` — a part of a text is divided into symbols in front of the given text.  Places do not
  occur in it, which is what lets a part be moved.
* `Divides.append` — parts behind one another.  The first has the second behind it.
* `scanFrom_of_divides`, `divides_of_scanFrom` — a scan is a division with nothing behind.
* `exists_split_of_scanFrom` — a scan can be cut in front of each token.
* `endsPiece`, `Alike` — the four characters, and two texts that begin with the same one of them.
* `takeWhile_append_of_ends` to `operatorPiece_append` — each reader of a numeral, a word or an
  operator stops in front of such a character, whatever follows.
* `stringPiece_congr`, `slashPiece_congr`, `pieceAt_congr` — strings and comments that are over.
* `Divides.alike` — the theorem that all editing of texts goes through: two texts in a row, a
  semicolon put in, a name changed, an excerpt taken out.
-/

set_option autoImplicit false

namespace ProtoSchema

/-- The part of a text is divided into the symbols, comments among them, if `behind` follows. -/
inductive Divides (behind : List Char) : List Char → List Symbol → Prop
  | nil : Divides behind [] []
  | blank {c : Char} {cs : List Char} {ss : List Symbol} (hc : isBlank c)
    (h : Divides behind cs ss) : Divides behind (c :: cs) ss
  | piece {c : Char} {p : Piece} {rest : List Char} {ss : List Symbol}
    (hp : pieceAt c (p.tail ++ rest ++ behind) = .ok (some p)) (h : Divides behind rest ss) :
    Divides behind (c :: (p.tail ++ rest)) (p.symbol c :: ss)

theorem pieceAt_of_isBlank {c : Char} (hc : isBlank c) (cs : List Char) : pieceAt c cs = .ok none :=
  if_pos hc

/-- A part and the part behind it are divided one after the other. -/
theorem Divides.append {behind cs ds : List Char} {ss ts : List Symbol}
    (h : Divides (ds ++ behind) cs ss) (h' : Divides behind ds ts) :
    Divides behind (cs ++ ds) (ss ++ ts) := by
  induction h with
  | nil => exact h'
  | blank hc _ ih => exact .blank hc ih
  | @piece c p rest ss hp _ ih =>
    rw [List.cons_append, List.append_assoc]
    refine .piece ?_ ih
    rwa [List.append_assoc p.tail, List.append_assoc rest, ← List.append_assoc p.tail]

/-! ## Scans -/

/-- **Scanning divides a text.** -/
theorem scanFrom_of_divides {cs : List Char} {ss : List Symbol} (h : Divides [] cs ss) (m : Mark) :
    ∃ ts, scanFrom m cs = .ok (ts ++ [Token.endAt (m.after cs)]) ∧ ts.map Token.toSymbol = ss := by
  induction h generalizing m with
  | nil => exact ⟨[], by rw [scanFrom]; rfl, rfl⟩
  | @blank c cs ss hc h ih =>
    obtain ⟨ts, hts, hmap⟩ := ih (m.next c)
    refine ⟨ts, ?_, hmap⟩
    rw [scanFrom, pieceAt_of_isBlank hc, hts]
    rfl
  | @piece c p rest ss hp h ih =>
    obtain ⟨ts, hts, rfl⟩ := ih (m.after (c :: p.tail))
    refine ⟨p.token c m :: ts, ?_, rfl⟩
    rw [List.append_nil] at hp
    rw [scanFrom, hp]
    simp only [List.drop_left, hts]
    rw [← Mark.after_append]
    rfl

/-- What is scanned is divided into the tokens that are found. -/
theorem divides_of_scanFrom {m : Mark} {cs : List Char} {ts : List Token} {stop : Token}
    (h : scanFrom m cs = .ok (ts ++ [stop])) : Divides [] cs (ts.map Token.toSymbol) := by
  fun_induction scanFrom m cs generalizing ts with
  | case1 m =>
    have hlast : [] ++ [Token.endAt m] = ts ++ [stop] := Except.ok.inj h
    obtain ⟨rfl, -⟩ := List.append_inj' hlast rfl
    exact .nil
  | case2 m c cs fault hp => cases h
  | case3 m c cs hp ih => exact .blank (isBlank_of_pieceAt hp) (ih h)
  | case4 m c cs p hp ih =>
    obtain ⟨rest, rfl⟩ := (heads_of_pieceAt hp).stands
    rw [List.drop_left] at h ih
    obtain ⟨found, hscan, hfound⟩ := map_cons_eq_ok h
    obtain ⟨us, rfl, -⟩ := tiled_of_scanFrom hscan
    rw [← List.cons_append] at hfound
    obtain ⟨rfl, hstop⟩ := List.append_inj' hfound rfl
    rw [List.singleton_inj.mp hstop] at hscan
    exact .piece (by rwa [List.append_nil]) (ih hscan)

/-- A scan can be cut in front of each of its tokens. -/
theorem exists_split_of_scanFrom {m : Mark} {cs : List Char} {ts us : List Token} {t : Token}
    (h : scanFrom m cs = .ok (ts ++ t :: us)) (ht : t.kind ≠ .eof) :
    ∃ front c p rest, cs = front ++ c :: (p.tail ++ rest) ∧
      Divides (c :: (p.tail ++ rest)) front (ts.map Token.toSymbol) ∧
      pieceAt c (p.tail ++ rest) = .ok (some p) ∧ t = p.token c (m.after front) ∧
      scanFrom (m.after front) (c :: (p.tail ++ rest)) = .ok (t :: us) := by
  fun_induction scanFrom m cs generalizing ts with
  | case1 m =>
    have hmem : t ∈ [Token.endAt m] := Except.ok.inj h ▸ List.mem_append_right _ List.mem_cons_self
    rw [List.mem_singleton.mp hmem] at ht
    exact absurd rfl ht
  | case2 m c cs fault hp => cases h
  | case3 m c cs hp ih =>
    obtain ⟨front, d, p, rest, rfl, hdivides, hpiece, htoken, hscan⟩ := ih h
    exact ⟨c :: front, d, p, rest, rfl, .blank (isBlank_of_pieceAt hp) hdivides, hpiece,
      htoken, hscan⟩
  | case4 m c cs p hp ih =>
    obtain ⟨rest, rfl⟩ := (heads_of_pieceAt hp).stands
    rw [List.drop_left] at h ih
    obtain ⟨found, hscan, hfound⟩ := map_cons_eq_ok h
    cases ts with
    | nil =>
      obtain ⟨rfl, rfl⟩ := List.cons.inj hfound
      refine ⟨[], c, p, rest, rfl, .nil, hp, rfl, ?_⟩
      rw [Mark.after_nil, scanFrom, hp]
      simp only [List.drop_left, hscan]
      rfl
    | cons first ts =>
      obtain ⟨rfl, rfl⟩ := List.cons.inj hfound
      obtain ⟨front, d, q, rest, rfl, hdivides, hpiece, htoken, hrest⟩ := ih hscan
      refine ⟨c :: p.tail ++ front, d, q, rest, by simp, ?_, hpiece, ?_, ?_⟩
      · refine .piece ?_ hdivides
        rwa [List.append_assoc]
      · rw [Mark.after_append]
        exact htoken
      · rw [Mark.after_append]
        exact hrest

/-! ## What goes on with a token -/

/-- The characters that go on with no token but a string or a comment. -/
def endsPiece (c : Char) : Bool := c == '\n' || c == ';' || c == '\x7b' || c == '\x7d'

/-- The two texts begin with the same character, one that goes on with no token; the end of a text
counts as the end of a line. -/
structure Alike (u v : List Char) : Prop where
  head : u.headD '\n' = v.headD '\n'
  ends : endsPiece (u.headD '\n')

/-- What is so of the four characters. -/
theorem of_endsPiece {P : Char → Prop} {c : Char} (h : endsPiece c)
    (hP : P '\n' ∧ P ';' ∧ P '\x7b' ∧ P '\x7d') : P c := by
  simp only [endsPiece, Bool.or_eq_true, beq_iff_eq] at h
  obtain ⟨hnewline, hsemicolon, hleft, hright⟩ := hP
  rcases h with ((rfl | rfl) | rfl) | rfl <;> assumption

theorem not_isDigit_of_endsPiece {c : Char} (h : endsPiece c) : ¬c.isDigit :=
  of_endsPiece (P := fun c ↦ ¬c.isDigit) h (by decide)

section Ends

variable {u : List Char} (hu : ∀ c ∈ u.head?, endsPiece c)

include hu

/-- A run of characters ends in front of what passes no test of the run. -/
theorem takeWhile_append_of_ends {p : Char → Bool} (hp : ∀ c, endsPiece c → ¬p c) (cs : List Char) :
    (cs ++ u).takeWhile p = cs.takeWhile p := by
  have hstop : u.takeWhile p = [] := by
    cases u with
    | nil => rfl
    | cons c u => exact List.takeWhile_cons_of_neg (hp c (hu c rfl))
  rw [List.takeWhile_append, hstop, List.append_nil]
  split
  · rename_i hlen
    have hstart : cs.takeWhile p <+: cs := List.takeWhile_prefix p
    exact (hstart.eq_of_length hlen).symm
  · rfl

theorem dropWhile_append_of_ends {p : Char → Bool} (hp : ∀ c, endsPiece c → ¬p c) (cs : List Char) :
    (cs ++ u).dropWhile p = cs.dropWhile p ++ u := by
  have hstop : u.dropWhile p = u := by
    cases u with
    | nil => rfl
    | cons c u => exact List.dropWhile_cons_of_neg (hp c (hu c rfl))
  rw [List.dropWhile_append, hstop]
  split
  · rename_i hempty
    rw [List.isEmpty_iff.mp hempty, List.nil_append]
  · rfl

/-- An exponent ends in front of such a character. -/
theorem Exponent.read?_append (cs : List Char) : Exponent.read? (cs ++ u) = Exponent.read? cs := by
  cases cs with
  | nil =>
    cases u with
    | nil => rfl
    | cons c u =>
      refine if_neg ?_
      rintro (rfl | rfl) <;> exact absurd (hu _ rfl) (by decide)
  | cons letter cs =>
    have hsign : (cs ++ u).head?.filter isSign = cs.head?.filter isSign := by
      cases cs with
      | cons => rfl
      | nil =>
        cases u with
        | nil => rfl
        | cons c u =>
          exact Option.filter_eq_none_iff.mpr fun d hd ↦
            of_endsPiece (P := fun c ↦ ¬isSign c) (hu d hd) (by decide)
    have hlen : (cs.head?.filter isSign).toList.length ≤ cs.length := by
      cases cs with
      | nil => exact Nat.le_refl _
      | cons c cs => exact Nat.le_trans (Option.length_toList_le) (by simp)
    simp only [List.cons_append, Exponent.read?, hsign, List.drop_append_of_le_length hlen,
      takeWhile_append_of_ends hu fun _ ↦ not_isDigit_of_endsPiece]

namespace Numeral

theorem fraction?_append_of_ends (cs : List Char) : fraction? (cs ++ u) = fraction? cs := by
  cases cs with
  | nil =>
    cases u with
    | nil => rfl
    | cons c u =>
      have hc : c ≠ '.' := of_endsPiece (P := (· ≠ '.')) (hu c rfl) (by decide)
      simp [fraction?, hc]
  | cons c cs =>
    have htake := takeWhile_append_of_ends hu (fun _ ↦ not_isDigit_of_endsPiece) cs
    by_cases hc : c = '.'
    · subst hc
      exact congrArg some htake
    · simp [fraction?, hc]

theorem hexadecimal?_append (c : Char) (cs : List Char) :
    hexadecimal? c (cs ++ u) = hexadecimal? c cs := by
  cases cs with
  | nil =>
    cases u with
    | nil => rfl
    | cons d u =>
      refine if_neg ?_
      rintro ⟨-, rfl | rfl, -⟩ <;> exact absurd (hu _ rfl) (by decide)
  | cons letter cs =>
    simp only [List.cons_append, hexadecimal?,
      takeWhile_append_of_ends hu
        fun c hc ↦ of_endsPiece (P := fun c ↦ ¬isHexDigit c) hc (by decide)]

theorem octal?_append (c : Char) (cs : List Char) : octal? c (cs ++ u) = octal? c cs := by
  have hoctal (c : Char) (hc : endsPiece c) : ¬isOctalDigit c :=
    of_endsPiece (P := fun c ↦ ¬isOctalDigit c) hc (by decide)
  have hcontinues : (cs.dropWhile isOctalDigit ++ u).head?.any continuesDecimal =
      (cs.dropWhile isOctalDigit).head?.any continuesDecimal := by
    cases cs.dropWhile isOctalDigit with
    | cons => rfl
    | nil =>
      cases u with
      | nil => rfl
      | cons d u =>
        simpa using of_endsPiece (P := fun c ↦ ¬continuesDecimal c) (hu d rfl) (by decide)
  simp only [octal?, takeWhile_append_of_ends hu hoctal, dropWhile_append_of_ends hu hoctal,
    hcontinues]

theorem decimalFrom_append (c : Char) (cs : List Char) :
    decimalFrom c (cs ++ u) = decimalFrom c cs := by
  have hdigit (c : Char) : endsPiece c → ¬c.isDigit := not_isDigit_of_endsPiece
  have hlen : (fractionText (fraction? (cs.dropWhile Char.isDigit))).length ≤
      (cs.dropWhile Char.isDigit).length := by
    conv_rhs => rw [fraction?_text (cs.dropWhile Char.isDigit)]
    rw [List.length_append]
    exact Nat.le_add_right _ _
  simp only [decimalFrom, takeWhile_append_of_ends hu hdigit, dropWhile_append_of_ends hu hdigit,
    fraction?_append_of_ends hu, List.drop_append_of_le_length hlen, Exponent.read?_append hu]

/-- A numeral ends in front of such a character. -/
theorem read_append (c : Char) (cs : List Char) : read c (cs ++ u) = read c cs := by
  rw [read, read, hexadecimal?_append hu, octal?_append hu, decimalFrom_append hu]

end Numeral

theorem operatorPiece_append (c : Char) (cs : List Char) :
    operatorPiece c (cs ++ u) = operatorPiece c cs := by
  cases cs with
  | cons d cs =>
    by_cases hd : d = '='
    · subst hd
      cases hkind : operator? c with
      | none => simp [operatorPiece, hkind]
      | some kind => cases hlonger : withEqual? kind <;> simp [operatorPiece, hkind, hlonger]
    · simp [operatorPiece, hd]
  | nil =>
    cases u with
    | nil => rfl
    | cons d u =>
      have hd : d ≠ '=' := of_endsPiece (P := (· ≠ '=')) (hu d rfl) (by decide)
      simp [operatorPiece, hd]

end Ends

/-! ## Pieces -/

namespace Alike

variable {u v : List Char}

theorem symm (h : Alike u v) : Alike v u := ⟨h.head.symm, h.head ▸ h.ends⟩

theorem endsPiece (h : Alike u v) : ∀ c ∈ u.head?, endsPiece c := by
  intro c hc
  have hends := h.ends
  rwa [List.headD_eq_head?_getD, hc, Option.getD_some] at hends

end Alike

variable {u v : List Char} {c : Char} {cs : List Char} {p : Piece}

theorem wordPiece_append (hu : ∀ c ∈ u.head?, endsPiece c) :
    wordPiece c (cs ++ u) = wordPiece c cs := by
  rw [wordPiece, wordPiece, takeWhile_append_of_ends hu
    fun c hc ↦ of_endsPiece (P := fun c ↦ ¬isWordPart c) hc (by decide)]

theorem numberPiece_append (hu : ∀ c ∈ u.head?, endsPiece c) :
    numberPiece c (cs ++ u) = numberPiece c cs := by
  rw [numberPiece, numberPiece, Numeral.read_append hu]

/-- A string that is over is one whatever stands behind it. -/
theorem stringPiece_congr (hq : isQuote c) (h : stringPiece c (cs ++ u) = .ok p)
    (hlen : p.tail.length ≤ cs.length) : stringPiece c (cs ++ v) = .ok p := by
  obtain ⟨hnewline, hbackslash⟩ := isQuote_ne hq
  rw [stringPiece] at h
  cases htext : stringText? c (cs ++ u) with
  | none => rw [htext] at h; cases h
  | some text =>
    rw [htext] at h
    cases h
    obtain ⟨henc, rest, hrest⟩ := enclosed_of_stringText? hnewline htext
    rw [List.append_cons] at hrest
    obtain ⟨rest, rfl⟩ := List.prefix_of_prefix_length_le ⟨_, hrest.symm⟩ ⟨u, rfl⟩ hlen
    have hagain : stringText? c (text ++ [c] ++ rest ++ v) = some text := by
      rw [List.append_assoc, List.append_assoc]
      exact stringText?_of_enclosed hnewline hbackslash henc (rest ++ v)
    rw [stringPiece, hagain]

theorem blockText?_cons_cons {d : Char} (h : ¬(c = '*' ∧ d = '/')) :
    blockText? (c :: d :: cs) = (blockText? (d :: cs)).map (c :: ·) := by
  rw [blockText?]
  intro rest hc hd
  exact h ⟨hc, (List.cons.inj hd).1⟩

/-- A comment that is over is one whatever stands behind it. -/
theorem blockText?_within {text : List Char} (h : blockText? (cs ++ u) = some text)
    (hlen : text.length + 2 ≤ cs.length) : blockText? (cs ++ v) = some text := by
  induction cs generalizing text with
  | nil => simp at hlen
  | cons c cs ih =>
    cases cs with
    | nil => simp at hlen
    | cons d cs =>
      by_cases hclose : c = '*' ∧ d = '/'
      · obtain ⟨rfl, rfl⟩ := hclose
        exact h
      · simp only [List.cons_append, blockText?_cons_cons hclose, Option.map_eq_some_iff] at h ih ⊢
        obtain ⟨text, htext, rfl⟩ := h
        exact ⟨text, ih htext (Nat.le_of_succ_le_succ hlen), rfl⟩

/-- A line that is over in front of both texts, or just there, is the same line. -/
theorem takeWhile_line (huv : Alike u v)
    (hlen : ((cs ++ u).takeWhile (· ≠ '\n')).length ≤ cs.length) :
    (cs ++ v).takeWhile (· ≠ '\n') = (cs ++ u).takeWhile (· ≠ '\n') := by
  rw [List.takeWhile_append] at hlen ⊢
  rw [List.takeWhile_append]
  split
  · rename_i hall
    rw [if_pos hall, List.length_append] at hlen
    have hu : u.takeWhile (· ≠ '\n') = [] := List.length_eq_zero_iff.mp (by omega)
    have hline {w : List Char} (hw : w.headD '\n' = '\n') : w.takeWhile (· ≠ '\n') = [] := by
      cases w with
      | nil => rfl
      | cons c w => exact List.takeWhile_cons_of_neg (by simpa using hw)
    have hhead : u.headD '\n' = '\n' := by
      cases u with
      | nil => rfl
      | cons c u => simpa using hu
    rw [hu, hline (huv.head ▸ hhead)]
  · rfl

theorem slashPiece_of_head (h : ∀ c ∈ cs.head?, c ≠ '/' ∧ c ≠ '*') :
    slashPiece cs = .ok ⟨.slash, [], none⟩ := by
  unfold slashPiece
  split
  · exact absurd rfl (h '/' rfl).1
  · exact absurd rfl (h '*' rfl).2
  · rfl

/-- A comment that is over is one whatever stands behind it. -/
theorem slashPiece_congr (huv : Alike u v) (h : slashPiece (cs ++ u) = .ok p)
    (hlen : p.tail.length ≤ cs.length) : slashPiece (cs ++ v) = .ok p := by
  have hends {w : List Char} (hw : ∀ c ∈ w.head?, endsPiece c) :
      slashPiece w = .ok ⟨.slash, [], none⟩ :=
    slashPiece_of_head fun c hc ↦ of_endsPiece (P := fun c ↦ c ≠ '/' ∧ c ≠ '*') (hw c hc)
      (by decide)
  cases cs with
  | nil =>
    rw [List.nil_append, hends huv.endsPiece] at h
    rw [List.nil_append, hends huv.symm.endsPiece, h]
  | cons d cs =>
    by_cases hline : d = '/'
    · subst hline
      simp only [List.cons_append, slashPiece] at h ⊢
      cases h
      rw [takeWhile_line huv (by simpa using hlen)]
    · by_cases hblock : d = '*'
      · subst hblock
        simp only [List.cons_append, slashPiece] at h ⊢
        cases htext : blockText? (cs ++ u) with
        | none => rw [htext] at h; cases h
        | some text =>
          rw [htext] at h
          cases h
          rw [blockText?_within htext (by simpa using hlen)]
      · have hd (w : List Char) : ∀ c ∈ (d :: cs ++ w).head?, c ≠ '/' ∧ c ≠ '*' := by
          rintro _ ⟨⟩
          exact ⟨hline, hblock⟩
        rw [slashPiece_of_head (hd u)] at h
        rw [slashPiece_of_head (hd v), h]

/-- What stands at the head of a text does not depend on what stands behind the part that it is
in. -/
theorem pieceAt_congr (huv : Alike u v) (h : pieceAt c (cs ++ u) = .ok (some p))
    (hlen : p.tail.length ≤ cs.length) : pieceAt c (cs ++ v) = .ok (some p) := by
  have map_some {x : Except LexicalFault Piece} : some <$> x = .ok (some p) ↔ x = .ok p := by
    cases x with
    | error e => exact ⟨nofun, nofun⟩
    | ok q => simp
  have hu := huv.endsPiece
  have hv := huv.symm.endsPiece
  simp only [pieceAt] at h ⊢
  split_ifs at h ⊢ with hblank hslash hquote hdigit hword
  · exact h
  · rw [map_some] at h ⊢
    exact slashPiece_congr huv h hlen
  · rw [map_some] at h ⊢
    exact stringPiece_congr hquote h hlen
  · rw [numberPiece_append hu] at h
    rwa [numberPiece_append hv]
  · rw [wordPiece_append hu] at h
    rwa [wordPiece_append hv]
  · rw [operatorPiece_append hu] at h
    rwa [operatorPiece_append hv]

/-- **A part of a text is divided alike in other texts** if what follows it begins alike, and goes
on with none of its tokens. -/
theorem Divides.alike {ss : List Symbol} (h : Divides u cs ss) (huv : Alike u v) :
    Divides v cs ss := by
  induction h with
  | nil => exact .nil
  | blank hc _ ih => exact .blank hc ih
  | piece hp _ ih => exact .piece (pieceAt_congr huv hp (by simp)) ih

end ProtoSchema
