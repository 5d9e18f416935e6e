import ProtoSchema.Proofs.Token.Division
import ProtoSchema.Text.LineTable

/-!
# Texts behind one another

A newline ends every token that is over, and goes on with none, so two texts with a newline between
them are scanned as each of them is for itself: first come the tokens of the one, as they are, then
those of the other, further down.  How far down, `Shift` tells.  No column changes, because the
second text begins a line of its own.

There are two halves to it.  What stands in front of a newline is scanned as if the text ended there
(`scanFrom_append`); and a scan does not depend on where it begins, except that all the places are
counted from there (`scanFrom_shift`).

## What is here

* `Shift` and its action on positions, marks, spans, tokens and errors.  It is a number of bytes and
  a number of lines; `Shift.past text` is the one that a text and a newline make.
* `Mark.next_shift`, `Mark.after_shift` — a walk that begins further down is further down.
* `scanFrom_shift` — so is a scan, error included.
* `scanFrom_append` — in front of a newline.  The induction is on the scan of the first text, with
  `pieceAt_congr` at each step.
* `scan_append` and `scan_append_newline` — two texts with a newline between them, as one equation
  and as the two statements that follow for the tokens and for the error of the second text.
-/

set_option autoImplicit false

namespace ProtoSchema

/-! ## Shifts -/

/-- How far down a text is moved when others are put in front of it: by so many bytes and lines. -/
structure Shift where
  bytes : Nat
  lines : Nat
  deriving DecidableEq, Repr

/-- How far down a text begins that stands behind another and a newline. -/
def Shift.past (text : String) : Shift := ⟨text.utf8ByteSize + 1, (LineTable.ofText text).lineCount⟩

/-- The place so many lines further down, in the same column. -/
def Position.shift (d : Shift) (p : Position) : Position := ⟨p.line + d.lines, p.column⟩

/-- The mark so many bytes and lines further down. -/
def Mark.shift (d : Shift) (m : Mark) : Mark := ⟨m.offset + d.bytes, m.position.shift d⟩

/-- The stretch so many bytes and lines further down. -/
def Span.shift (d : Shift) (s : Span) : Span := ⟨s.start.shift d, s.stop.shift d⟩

/-- The same symbol further down. -/
def Token.shift (d : Shift) (t : Token) : Token := { t with span := t.span.shift d }

/-- The same fault further down. -/
def LexicalError.shift (d : Shift) (e : LexicalError) : LexicalError :=
  { e with position := e.position.shift d }

variable (d : Shift)

@[simp]
theorem Token.toSymbol_shift (t : Token) : (t.shift d).toSymbol = t.toSymbol := rfl

@[simp]
theorem Token.span_shift (t : Token) : (t.shift d).span = t.span.shift d := rfl

theorem Mark.next_shift (m : Mark) (c : Char) : (m.shift d).next c = (m.next c).shift d := by
  simp only [next, shift, Position.shift, Nat.add_right_comm m.offset]
  split
  · rw [Nat.add_right_comm m.position.line]
  · rfl

/-- A walk that begins further down ends further down. -/
theorem Mark.after_shift (m : Mark) (cs : List Char) :
    (m.shift d).after cs = (m.after cs).shift d := by
  induction cs generalizing m with
  | nil => rfl
  | cons c cs ih => rw [after_cons, after_cons, next_shift, ih]

theorem Token.endAt_shift (m : Mark) : Token.endAt (m.shift d) = (Token.endAt m).shift d := rfl

theorem Piece.token_shift (p : Piece) (c : Char) (m : Mark) :
    p.token c (m.shift d) = (p.token c m).shift d := by
  rw [Piece.token, Mark.after_shift]
  rfl

/-- **A scan that begins further down** finds the same, further down. -/
theorem scanFrom_shift (m : Mark) (cs : List Char) :
    scanFrom (m.shift d) cs =
      ((scanFrom m cs).map (List.map (Token.shift d))).mapError (LexicalError.shift d) := by
  fun_induction scanFrom m cs with
  | case1 m =>
    rw [scanFrom, Token.endAt_shift]
    rfl
  | case2 m c cs fault hp =>
    rw [scanFrom, hp]
    rfl
  | case3 m c cs hp ih =>
    rw [scanFrom, hp, Mark.next_shift]
    exact ih
  | case4 m c cs p hp ih =>
    rw [scanFrom, hp]
    dsimp only
    rw [Mark.after_shift, Piece.token_shift, ih]
    cases scanFrom (m.after (c :: p.tail)) (cs.drop p.tail.length) <;> rfl

/-! ## In front of a newline -/

variable {d}

/-- What is scanned up to the end of a text is scanned in the same way up to a newline. -/
theorem scanFrom_append {m : Mark} {cs : List Char} {ts : List Token}
    (h : scanFrom m cs = .ok (ts ++ [Token.endAt (m.after cs)])) {u : List Char} (hu : Alike [] u) :
    scanFrom m (cs ++ u) = (scanFrom (m.after cs) u).map (ts ++ ·) := by
  have map_nil {x : Except LexicalError (List Token)} : x = x.map ([] ++ ·) := by cases x <;> rfl
  fun_induction scanFrom m cs generalizing ts with
  | case1 m =>
    have hend : [] ++ [Token.endAt m] = ts ++ [Token.endAt m] := Except.ok.inj h
    obtain ⟨rfl, -⟩ := List.append_inj' hend rfl
    exact map_nil
  | case2 m c cs fault hp => cases h
  | case3 m c cs hp ih =>
    rw [List.cons_append, scanFrom, pieceAt_of_isBlank (isBlank_of_pieceAt hp)]
    exact ih h
  | case4 m c cs p hp ih =>
    obtain ⟨rest, rfl⟩ := (heads_of_pieceAt hp).stands
    have hagain : pieceAt c (p.tail ++ rest ++ u) = .ok (some p) :=
      pieceAt_congr hu (by rwa [List.append_nil]) (by simp)
    rw [List.drop_left] at h ih
    obtain ⟨found, hscan, hfound⟩ := map_cons_eq_ok h
    obtain ⟨us, rfl, -⟩ := tiled_of_scanFrom hscan
    rw [← List.cons_append] at hfound
    obtain ⟨rfl, -⟩ := List.append_inj' hfound rfl
    rw [List.cons_append, scanFrom, hagain]
    dsimp only
    rw [List.append_assoc, List.drop_left, ih hscan, ← List.cons_append, Mark.after_append]
    cases scanFrom ((m.after (c :: p.tail)).after rest) u <;> rfl

/-- A walk is on the next line for each line that begins on the way. -/
theorem Mark.line_after (m : Mark) (cs : List Char) (offset : Nat) :
    (m.after cs).position.line = m.position.line + (LineTable.startsFrom offset cs).length := by
  induction cs generalizing m offset with
  | nil => rfl
  | cons c cs ih =>
    rw [after_cons, ih _ (offset + c.utf8Size), LineTable.startsFrom, next]
    split
    · rw [List.length_cons, Nat.add_assoc, Nat.add_comm 1]
    · rfl

/-- Behind a text and a newline. -/
theorem Mark.start_after_newline (text : String) :
    (Mark.start.after text.toList).next '\n' = Mark.start.shift (.past text) := by
  have hline := Mark.line_after .start text.toList 0
  have hoffset := Mark.offset_after .start text.toList
  rw [length_bytesOf_toList] at hoffset
  rw [next, if_pos rfl, hline, hoffset]
  simp only [shift, Position.shift, Shift.past, LineTable.ofText, LineTable.lineCount,
    List.size_toArray, start, Nat.zero_add, Nat.add_assoc]
  rfl

/-- A text, a newline and another text: the tokens of the first, and whatever the second comes to.
-/
theorem scan_append {text : String} {ts : List Token} {stop : Token}
    (h : scan text = .ok (ts ++ [stop])) (more : String) :
    scan (text ++ "\n" ++ more) =
      ((scan more).map fun us ↦ ts ++ us.map (Token.shift (.past text))).mapError
        (LexicalError.shift (.past text)) := by
  obtain ⟨ts', hts, -⟩ := tiled_of_scanFrom h
  obtain ⟨rfl, hstop⟩ := List.append_inj' hts rfl
  rw [List.singleton_inj.mp hstop] at h
  have hlist : (text ++ "\n" ++ more).toList = text.toList ++ '\n' :: more.toList := by simp
  rw [scan, hlist, scanFrom_append (u := '\n' :: more.toList) h ⟨rfl, by decide⟩, scanFrom,
    pieceAt_of_isBlank rfl]
  dsimp only
  rw [Mark.start_after_newline, scanFrom_shift, scan]
  cases scanFrom .start more.toList <;> rfl

/-- **Texts with a newline between them are scanned one after the other.**  The tokens of the first
stay as they are and lose their end; the tokens of the second follow, or its error does, as many
bytes and lines further down as the first text and the newline take up. -/
theorem scan_append_newline {text : String} {tokens : List Token} (h : scan text = .ok tokens)
    (more : String) :
    ∃ ts stop, tokens = ts ++ [stop] ∧ stop.kind = .eof ∧ (∀ t ∈ ts, t.kind ≠ .eof) ∧
      (∀ us, scan more = .ok us →
        scan (text ++ "\n" ++ more) = .ok (ts ++ us.map (Token.shift (.past text)))) ∧
      ∀ e, scan more = .error e →
        scan (text ++ "\n" ++ more) = .error (e.shift (.past text)) := by
  obtain ⟨ts, rfl, htiled⟩ := tiled_of_scanFrom h
  have happend := scan_append h more
  refine ⟨ts, _, rfl, rfl, htiled.kind_ne_eof, ?_, ?_⟩
  · intro us hus
    rw [happend, hus]
    rfl
  · intro e he
    rw [happend, he]
    rfl

/-- Behind a numeral that is cut short and a comment that ends with its line. -/
theorem scan_append_newline_comment :
    ∃ text tokens ts stop, text = "0x 1e // é" ∧ scan text = .ok tokens ∧ tokens = ts ++ [stop] ∧
      stop.kind = .eof ∧ (∀ t ∈ ts, t.kind ≠ .eof) ∧
      (∀ us, scan "'é'" = .ok us →
        scan (text ++ "\n" ++ "'é'") = .ok (ts ++ us.map (Token.shift (.past text)))) ∧
      ∀ e, scan "'é'" = .error e →
        scan (text ++ "\n" ++ "'é'") = .error (e.shift (.past text)) := by
  obtain ⟨tokens, h⟩ := exists_ok_of_isOk (x := scan "0x 1e // é") (by decide +kernel)
  obtain ⟨ts, stop, happend⟩ := scan_append_newline h "'é'"
  exact ⟨_, tokens, ts, stop, rfl, h, happend⟩

end ProtoSchema
