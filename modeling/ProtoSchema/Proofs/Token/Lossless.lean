import ProtoSchema.Proofs.Text.Bytes
import ProtoSchema.Proofs.Token.Genuine

/-!
# Scanning loses nothing

A scan divides a text into tokens and blanks.  `Tiled` is that division, spelled out along the
characters: it knows no numbers but the mark that is carried along.  What the tokens are in terms of
the bytes of the text follows from it: where they lie (`Token.CutFrom`), that they follow one
another, and that only blanks lie between them (`scan_lossless`).

## What is here

* `Tiled`, `tiled_of_scanFrom` — the division, and that scanning makes one.
* `Token.StandsIn`, `Tiled.standsIn` — each token stands somewhere in the text, with some characters
  ahead of it.
* `Tiled.pairwise`, `Tiled.covered` — the tokens follow one another, and any byte outside of them is
  the byte of a blank.
* `IsBoundary`, `IsSlice` — offsets between characters, and the bytes between two of them.  A
  boundary is what the core library calls a valid position, so this is not a notion of the scanner.
* `Symbol.margins` — how far the value of a literal or a comment lies inside of its lexeme.
* `Token.CutFrom` — all that is said of one token: its lexeme and its value are stretches of the
  text, its position is the count of the bytes in front of it, and in a numeral every offset is a
  boundary.
* `Lossless`, `scan_lossless` — all that is said of a scan, for every text that is scanned.
-/

set_option autoImplicit false

namespace ProtoSchema

/-- The text `cs` at the mark `m` is made up of the tokens, in this order, and blanks. -/
inductive Tiled : Mark → List Char → List Token → Prop
  | done {m : Mark} : Tiled m [] []
  | blank {m : Mark} {c : Char} {cs : List Char} {ts : List Token} (hc : isBlank c)
    (h : Tiled (m.next c) cs ts) : Tiled m (c :: cs) ts
  | token {m : Mark} {c : Char} {p : Piece} {rest : List Char} {ts : List Token}
    (hp : (p.symbol c).Genuine) (h : Tiled (m.after (c :: p.tail)) rest ts) :
    Tiled m (c :: (p.tail ++ rest)) (p.token c m :: ts)

/-- What belongs to no token is blank. -/
theorem isBlank_of_pieceAt {c : Char} {cs : List Char} (h : pieceAt c cs = .ok none) :
    isBlank c := by
  have map_some {x : Except LexicalFault Piece} (h : some <$> x = .ok none) : False := by
    cases x <;> cases h
  simp only [pieceAt] at h
  split_ifs at h with hblank
  · exact hblank
  all_goals first | exact (map_some h).elim | cases h

/-- What is found behind a token is found without it. -/
theorem map_cons_eq_ok {ε α : Type} {x : Except ε (List α)} {a : α} {l : List α}
    (h : x.map (a :: ·) = .ok l) : ∃ found, x = .ok found ∧ a :: found = l := by
  cases x with
  | error e => cases h
  | ok found => exact ⟨found, rfl, Except.ok.inj h⟩

/-- A scan ends with the end of the text, and what it finds before tiles the text. -/
theorem tiled_of_scanFrom {m : Mark} {cs : List Char} {tokens : List Token}
    (h : scanFrom m cs = .ok tokens) :
    ∃ ts, tokens = ts ++ [Token.endAt (m.after cs)] ∧ Tiled m cs ts := by
  fun_induction scanFrom m cs generalizing tokens with
  | case1 m => cases h; exact ⟨[], rfl, .done⟩
  | case2 m c cs fault hp => cases h
  | case3 m c cs hp ih =>
    obtain ⟨ts, rfl, htiled⟩ := ih h
    exact ⟨ts, rfl, .blank (isBlank_of_pieceAt hp) htiled⟩
  | case4 m c cs p hp ih =>
    obtain ⟨⟨rest, rfl⟩, hgenuine⟩ := heads_of_pieceAt hp
    rw [List.drop_left] at h ih
    obtain ⟨found, hscan, rfl⟩ := map_cons_eq_ok h
    obtain ⟨ts, rfl, htiled⟩ := ih hscan
    refine ⟨p.token c m :: ts, ?_, .token hgenuine htiled⟩
    rw [← Mark.after_append]
    rfl

/-! ## Where the tokens of a tiling lie -/

/-- The token stands in the text `cs` at the mark `m`, with `front` ahead of it. -/
structure Token.StandsIn (m : Mark) (cs : List Char) (t : Token) : Prop where
  genuine : t.toSymbol.Genuine
  split : ∃ front back, cs = front ++ t.lexeme.toList ++ back ∧
    t.span = ⟨m.after front, m.after (front ++ t.lexeme.toList)⟩
  nonempty : t.lexeme.toList ≠ []

/-- Going over some characters first does not move a token. -/
theorem Token.StandsIn.behind {m : Mark} (ahead : List Char) {cs : List Char} {t : Token}
    (h : t.StandsIn (m.after ahead) cs) : t.StandsIn m (ahead ++ cs) := by
  obtain ⟨hg, ⟨front, back, rfl, hspan⟩, hne⟩ := h
  refine ⟨hg, ⟨ahead ++ front, back, by simp, ?_⟩, hne⟩
  rw [hspan, List.append_assoc, Mark.after_append m ahead, Mark.after_append m ahead]

/-- Each token of a tiling stands in the text. -/
theorem Tiled.standsIn {m : Mark} {cs : List Char} {ts : List Token} (h : Tiled m cs ts) :
    ∀ t ∈ ts, t.StandsIn m cs := by
  induction h with
  | done => simp
  | @blank m c cs ts hc h ih => exact fun t ht ↦ (ih t ht).behind [c]
  | @token m c p rest ts hp h ih =>
    intro t ht
    rcases List.mem_cons.mp ht with rfl | ht
    · exact ⟨hp, ⟨[], rest, by simp [Piece.token], by simp [Piece.token]⟩, by simp [Piece.token]⟩
    · exact (ih t ht).behind (c :: p.tail)

theorem Tiled.kind_ne_eof {m : Mark} {cs : List Char} {ts : List Token} (h : Tiled m cs ts) :
    ∀ t ∈ ts, t.kind ≠ .eof :=
  fun t ht ↦ (h.standsIn t ht).genuine.kind_ne_eof

theorem Mark.offset_after (m : Mark) (cs : List Char) :
    (m.after cs).offset = m.offset + (bytesOf cs).length := by
  induction cs generalizing m with
  | nil => simp
  | cons c cs ih => simp [ih, Mark.next, Nat.add_assoc]

theorem Mark.offset_start_after (cs : List Char) :
    (Mark.start.after cs).offset = (bytesOf cs).length := by
  rw [offset_after]
  exact Nat.zero_add _

/-- No token of a tiling begins in front of it. -/
theorem Tiled.le_start {m : Mark} {cs : List Char} {ts : List Token} (h : Tiled m cs ts) {t : Token}
    (ht : t ∈ ts) : m.offset ≤ t.span.start.offset := by
  obtain ⟨-, ⟨front, back, -, hspan⟩, -⟩ := h.standsIn t ht
  rw [hspan, Mark.offset_after]
  exact Nat.le_add_right _ _

/-- The tokens follow one another. -/
theorem Tiled.pairwise {m : Mark} {cs : List Char} {ts : List Token} (h : Tiled m cs ts) :
    ts.Pairwise fun t u ↦ t.span.stop.offset ≤ u.span.start.offset := by
  induction h with
  | done => exact .nil
  | blank _ _ ih => exact ih
  | token hp h ih => exact .cons (fun u hu ↦ h.le_start hu) ih

/-! ## What lies between them -/

/-- The bytes of the characters that separate tokens. -/
def blankBytes : List UInt8 := [32, 9, 13, 10]

/-- A blank is one of four bytes. -/
theorem utf8EncodeChar_of_isBlank {c : Char} (hc : isBlank c) :
    ∃ b ∈ blankBytes, String.utf8EncodeChar c = [b] := by
  simp only [isBlank, Bool.or_eq_true, beq_iff_eq] at hc
  rcases hc with ((rfl | rfl) | rfl) | rfl
  · exact ⟨32, by decide, by decide⟩
  · exact ⟨9, by decide, by decide⟩
  · exact ⟨13, by decide, by decide⟩
  · exact ⟨10, by decide, by decide⟩

/-- A byte belongs to a token or is blank. -/
theorem Tiled.covered {m : Mark} {cs : List Char} {ts : List Token} (h : Tiled m cs ts) :
    ∀ i (hi : i < (bytesOf cs).length),
      (∃ t ∈ ts, t.span.start.offset ≤ m.offset + i ∧ m.offset + i < t.span.stop.offset) ∨
        (bytesOf cs)[i] ∈ blankBytes := by
  induction h with
  | done => simp
  | @blank m c cs ts hc h ih =>
    obtain ⟨b, hb, hbyte⟩ := utf8EncodeChar_of_isBlank hc
    have hnext : (m.next c).offset = m.offset + 1 := by
      rw [Mark.next, ← String.length_utf8EncodeChar, hbyte]
      rfl
    have hbytes : bytesOf (c :: cs) = b :: bytesOf cs := by rw [bytesOf_cons, hbyte]; rfl
    rintro (_ | i) hi
    · exact .inr (by simpa [hbytes] using hb)
    · have hi' : i < (bytesOf cs).length := by simpa [hbytes] using hi
      refine (ih i hi').imp ?_ (by simp [hbytes])
      rintro ⟨t, ht, hlo, hhi⟩
      exact ⟨t, ht, by omega, by omega⟩
  | @token m c p rest ts hp h ih =>
    have hbytes : bytesOf (c :: (p.tail ++ rest)) = bytesOf (c :: p.tail) ++ bytesOf rest := by
      rw [← bytesOf_append, List.cons_append]
    intro i hi
    by_cases hin : i < (bytesOf (c :: p.tail)).length
    · refine .inl ⟨p.token c m, List.mem_cons_self, Nat.le_add_right _ _, ?_⟩
      simp only [Piece.token, Mark.offset_after]
      omega
    · obtain ⟨j, rfl⟩ := Nat.exists_eq_add_of_le (Nat.not_lt.mp hin)
      have hj : j < (bytesOf rest).length := by
        rw [hbytes, List.length_append] at hi
        omega
      have hoff := Mark.offset_after m (c :: p.tail)
      refine (ih j hj).imp ?_ fun hb ↦ ?_
      · rintro ⟨t, ht, hlo, hhi⟩
        exact ⟨t, List.mem_cons_of_mem _ ht, by omega, by omega⟩
      · simp only [hbytes]
        rw [List.getElem_append_right (Nat.le_add_right _ _)]
        simpa using hb

/-! ## In the bytes of a text -/

/-- The offset lies between two characters of the text, or at one of its ends. -/
abbrev IsBoundary (text : String) (offset : Nat) : Prop := String.Pos.Raw.IsValid text ⟨offset⟩

/-- Where a text can be cut there is a boundary. -/
theorem isBoundary_of_append {text : String} {front : List Char} (back : List Char)
    (h : text.toList = front ++ back) : IsBoundary text (bytesOf front).length := by
  rw [IsBoundary, String.Pos.Raw.isValid_iff_exists_append]
  refine ⟨String.ofList front, String.ofList back, ?_, ?_⟩
  · rw [← String.ofList_append, ← h, String.ofList_toList]
  · rw [String.Pos.Raw.ext_iff, String.byteIdx_rawEndPos, ← length_bytesOf_toList,
      String.toList_ofList]

/-- The bytes of `part` are those of the text from one boundary to another. -/
structure IsSlice (text part : String) (start stop : Nat) : Prop where
  left : IsBoundary text start
  right : IsBoundary text stop
  bytes : bytesOf part.toList = (bytesOf text.toList).extract start stop

/-- A stretch of the characters of a text is a stretch of its bytes. -/
theorem isSlice_of_append {text part : String} {front back : List Char}
    (h : text.toList = front ++ part.toList ++ back) :
    IsSlice text part (bytesOf front).length (bytesOf (front ++ part.toList)).length where
  left := isBoundary_of_append (part.toList ++ back) (by rw [h, List.append_assoc])
  right := isBoundary_of_append back h
  bytes := by
    rw [h, bytesOf_append, bytesOf_append, List.append_assoc, List.length_append]
    simp

/-- How many characters, all of them one byte long, stand around the value of a token in its
lexeme: the quotes of a string, or the marks of a comment. -/
def Symbol.margins (s : Symbol) : Nat × Nat :=
  if s.kind = .string then (1, 1)
  else if s.lexeme.toList.take 2 = ['/', '*'] then (2, 2)
  else (2, 0)

/-- The text of a literal or a comment lies in its lexeme, between its margins. -/
theorem Symbol.Genuine.lexeme_eq_append {s : Symbol} (h : s.Genuine) {content : String}
    (hc : s.text? = some content) :
    ∃ before behind, s.lexeme.toList = before ++ content.toList ++ behind ∧
      (bytesOf before).length = s.margins.1 ∧ (bytesOf behind).length = s.margins.2 := by
  cases h with
  | operator | word | integer | float => simp [Symbol.text?] at hc
  | @string quote text hq henc =>
    obtain rfl : String.ofList text = content := by simpa [Symbol.text?] using hc
    have hsize : (bytesOf [quote]).length = 1 := by
      simp only [isQuote, Bool.or_eq_true, beq_iff_eq] at hq
      rcases hq with rfl | rfl <;> decide
    exact ⟨[quote], [quote], by simp, hsize, hsize⟩
  | @lineComment text hn =>
    obtain rfl : String.ofList text = content := by simpa [Symbol.text?] using hc
    exact ⟨['/', '/'], [], by simp, by simp [Symbol.margins]; decide, by simp [Symbol.margins]⟩
  | @blockComment text =>
    obtain rfl : String.ofList text = content := by simpa [Symbol.text?] using hc
    exact ⟨['/', '*'], ['*', '/'], by simp, by simp [Symbol.margins]; decide,
      by simp [Symbol.margins]; decide⟩

theorem utf8Size_of_isNumeralPart {c : Char} (h : isNumeralPart c) : c.utf8Size = 1 := by
  have hval : c.val ≤ 127 := by
    simp only [isNumeralPart, isHexDigit, isSign, Char.isDigit, Bool.or_eq_true, Bool.and_eq_true,
      decide_eq_true_eq, beq_iff_eq, Char.le_def] at h
    rcases h with ((((((hd | hl) | hu) | rfl) | rfl) | rfl) | (rfl | rfl))
    · exact UInt32.le_trans hd.2 (by decide)
    · exact UInt32.le_trans hl.2 (by decide)
    · exact UInt32.le_trans hu.2 (by decide)
    all_goals decide
  simp [Char.utf8Size, hval]

/-- The token is a stretch of the text, not empty, cut out between characters, and so is its
value.  In a number every offset lies between characters. -/
structure Token.CutFrom (text : String) (t : Token) : Prop where
  nonempty : t.span.start.offset < t.span.stop.offset
  lexeme : IsSlice text t.lexeme t.span.start.offset t.span.stop.offset
  value : ∀ content, t.text? = some content →
    IsSlice text content (t.span.start.offset + t.margins.1) (t.span.stop.offset - t.margins.2)
  inside : t.kind = .number →
    ∀ i, t.span.start.offset ≤ i → i ≤ t.span.stop.offset → IsBoundary text i
  start_position : t.span.start.position = .inBytes (bytesOf text.toList) t.span.start.offset
  stop_position : t.span.stop.position = .inBytes (bytesOf text.toList) t.span.stop.offset

theorem Symbol.Genuine.isNumeralPart {s : Symbol} (h : s.Genuine) (hk : s.kind = .number) :
    ∀ c ∈ s.lexeme.toList, ProtoSchema.isNumeralPart c := by
  cases h with
  | @operator kind text h => cases hk; cases h
  | @word text h => simp only [Kind.ofWord] at hk; split at hk <;> cases hk
  | string | lineComment | blockComment => cases hk
  | integer hl | float hl => exact hl

/-- Behind characters of one byte each every offset lies between characters. -/
theorem isBoundary_inside {text : String} {front back : List Char} :
    ∀ {cs : List Char}, (∀ c ∈ cs, c.utf8Size = 1) → text.toList = front ++ cs ++ back →
      ∀ i, (bytesOf front).length ≤ i → i ≤ (bytesOf (front ++ cs)).length → IsBoundary text i := by
  intro cs hcs htext i hlo hhi
  have length_bytesOf : ∀ {ds : List Char}, (∀ c ∈ ds, c.utf8Size = 1) →
      (bytesOf ds).length = ds.length := by
    intro ds hds
    induction ds with
    | nil => rfl
    | cons d ds ih =>
      simp [hds d List.mem_cons_self, ih fun c hc ↦ hds c (List.mem_cons_of_mem _ hc)]
      omega
  obtain ⟨k, rfl⟩ := Nat.exists_eq_add_of_le hlo
  rw [bytesOf_append, List.length_append, length_bytesOf hcs] at hhi
  have hk : (bytesOf (front ++ cs.take k)).length = (bytesOf front).length + k := by
    rw [bytesOf_append, List.length_append,
      length_bytesOf fun c hc ↦ hcs c (List.mem_of_mem_take hc), List.length_take]
    omega
  rw [← hk]
  apply isBoundary_of_append (cs.drop k ++ back)
  rw [htext, List.append_assoc, List.append_assoc, ← List.append_assoc (cs.take k),
    List.take_append_drop]

/-- A token that stands in a text is cut out of it. -/
theorem Token.StandsIn.cutFrom {text : String} {t : Token} (h : t.StandsIn .start text.toList) :
    t.CutFrom text := by
  obtain ⟨hg, ⟨front, back, htext, hspan⟩, hne⟩ := h
  have hstart : t.span.start = Mark.start.after front := by rw [hspan]
  have hstop : t.span.stop = Mark.start.after (front ++ t.lexeme.toList) := by rw [hspan]
  have start_offset : t.span.start.offset = (bytesOf front).length := by
    rw [hstart, Mark.offset_start_after]
  have stop_offset : t.span.stop.offset = (bytesOf (front ++ t.lexeme.toList)).length := by
    rw [hstop, Mark.offset_start_after]
  refine ⟨?_, ?_, fun content hc ↦ ?_, fun hk i hlo hhi ↦ ?_, ?_, ?_⟩
  · obtain ⟨c, cs, hcs⟩ := List.exists_cons_of_ne_nil hne
    have hc := c.utf8Size_pos
    simp [start_offset, stop_offset, hcs]
    omega
  · rw [start_offset, stop_offset]
    exact isSlice_of_append htext
  · obtain ⟨before, behind, hlex, hb, ha⟩ := hg.lexeme_eq_append hc
    have hcut : text.toList = (front ++ before) ++ content.toList ++ (behind ++ back) := by
      rw [htext, hlex]
      simp
    have hslice := isSlice_of_append hcut
    have hlo : (bytesOf (front ++ before)).length = t.span.start.offset + t.margins.1 := by
      rw [start_offset, bytesOf_append, List.length_append, hb]
    have hhi : (bytesOf (front ++ before ++ content.toList)).length =
        t.span.stop.offset - t.margins.2 := by
      rw [stop_offset, hlex, ← ha]
      simp only [bytesOf_append, List.length_append]
      omega
    rwa [hlo, hhi] at hslice
  · have hsize : ∀ c ∈ t.lexeme.toList, c.utf8Size = 1 :=
      fun c hc ↦ utf8Size_of_isNumeralPart (hg.isNumeralPart hk c hc)
    exact isBoundary_inside hsize htext i (by rwa [← start_offset]) (by rwa [← stop_offset])
  · rw [start_offset, htext, hstart, List.append_assoc, Mark.after_start front _]
  · rw [stop_offset, htext, hstop, Mark.after_start _ back]

/-- The tokens are the whole text but for blanks between them: each is cut out between two
characters, each behind the one before it, and every byte outside of them is blank. -/
structure Lossless (text : String) (ts : List Token) : Prop where
  cut : ∀ t ∈ ts, t.kind ≠ .eof ∧ t.CutFrom text
  ordered : ts.Pairwise fun t u ↦ t.span.stop.offset ≤ u.span.start.offset
  blank : ∀ i (hi : i < (bytesOf text.toList).length),
    (∀ t ∈ ts, ¬ (t.span.start.offset ≤ i ∧ i < t.span.stop.offset)) →
      (bytesOf text.toList)[i] ∈ blankBytes

/-- Of a tiling nothing is lost. -/
theorem Tiled.lossless {text : String} {ts : List Token} (h : Tiled .start text.toList ts) :
    Lossless text ts where
  cut := fun t ht ↦ ⟨(h.standsIn t ht).genuine.kind_ne_eof, (h.standsIn t ht).cutFrom⟩
  ordered := h.pairwise
  blank := by
    intro i hi hout
    refine (h.covered i hi).resolve_left ?_
    rintro ⟨t, ht, hlo, hhi⟩
    exact hout t ht ⟨by simpa [Mark.start] using hlo, by simpa [Mark.start] using hhi⟩

/-- **Scanning loses nothing.**  Behind the tokens of the text stands its end, which is none of
them. -/
theorem scan_lossless {text : String} {tokens : List Token} (h : scan text = .ok tokens) :
    ∃ ts : List Token, Lossless text ts ∧
      tokens = ts ++ [Token.endAt ⟨text.utf8ByteSize,
        .inBytes (bytesOf text.toList) text.utf8ByteSize⟩] := by
  obtain ⟨ts, rfl, htiled⟩ := tiled_of_scanFrom h
  refine ⟨ts, htiled.lossless, ?_⟩
  rw [Mark.after_start text.toList [], List.append_nil, length_bytesOf_toList]

theorem exists_ok_of_isOk {ε α : Type} {x : Except ε α} (h : x.isOk) : ∃ a, x = .ok a := by
  cases x with
  | error e => cases h
  | ok a => exact ⟨a, rfl⟩

theorem eq_error_of_map {ε α β : Type} {x : Except ε α} {f : α → β} {e : ε}
    (h : x.map f = .error e) : x = .error e := by
  cases x with
  | ok a => cases h
  | error e' => exact congrArg Except.error (Except.error.inj h)

/-- Characters of several bytes, an escaped backslash and a numeral in base sixteen. -/
theorem scan_lossless_mixed :
    ∃ text tokens ts, text = "x = 0x1F; // é\n'\\\\→'" ∧ scan text = .ok tokens ∧
      Lossless text ts ∧ tokens = ts ++ [Token.endAt ⟨text.utf8ByteSize,
        .inBytes (bytesOf text.toList) text.utf8ByteSize⟩] := by
  obtain ⟨tokens, h⟩ := exists_ok_of_isOk (x := scan "x = 0x1F; // é\n'\\\\→'") (by decide +kernel)
  obtain ⟨ts, hlossless, htokens⟩ := scan_lossless h
  exact ⟨_, tokens, ts, rfl, h, hlossless, htokens⟩

end ProtoSchema
