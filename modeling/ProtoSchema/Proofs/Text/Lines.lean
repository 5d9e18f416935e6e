import ProtoSchema.Proofs.Text.Bytes
import ProtoSchema.Text.LineTable

/-!
# What the table of lines answers

`Mark.after_start` is about a walk, which only stops between characters.  The table of lines is
asked for any byte offset, in the middle of a character or past the end as well.

The proof never talks about the middle of a stretch being above or below anything.  At each offset
the entries have a *cut*: those in front of it are not above the offset, and those behind it are.
The search keeps the cut between its two ends, which is all that its correctness needs, and where
the cut is can be read off the bytes.

## What is here

* `LineTable.startsFrom_eq` reads the table off the bytes: an entry for each newline byte.
* `LineTable.startsIn_append` cuts the table at an offset.  In front of the cut are the entries that
  are not above the offset, as many as there are newlines; behind it are those that are
  (`LineTable.starts_ofText`).
* `LineTable.search_eq` needs no more of the entries than that there is such a cut.
* `LineTable.rank_ofText`, `LineTable.lineStart_rank` — the two answers that a position is made of.
* `LineTable.position_ofText` puts these together, with the order of the places.  It holds for every
  offset, and it says besides that the subtraction in the column never goes below zero.
* `LineTable.position_ofText_past` is the case of an offset past the end.
-/

set_option autoImplicit false

namespace ProtoSchema

namespace LineTable

/-! ## The entries -/

/-- The byte offsets just behind the newlines among `bytes`, when these begin at `offset`. -/
def startsIn (offset : Nat) : List UInt8 → List Nat
  | [] => []
  | b :: bytes =>
    if b = newlineByte then (offset + 1) :: startsIn (offset + 1) bytes
    else startsIn (offset + 1) bytes

/-- The entries of two stretches of bytes, those of the second counted from where it begins. -/
theorem startsIn_append (offset : Nat) (bytes more : List UInt8) :
    startsIn offset (bytes ++ more) =
      startsIn offset bytes ++ startsIn (offset + bytes.length) more := by
  induction bytes generalizing offset with
  | nil => rfl
  | cons b bytes ih =>
    have hlength : offset + (b :: bytes).length = offset + 1 + bytes.length := by
      rw [List.length_cons]
      omega
    rw [List.cons_append, startsIn, startsIn, ih, hlength]
    split <;> rfl

/-- There are as many entries as there are newlines. -/
theorem length_startsIn (offset : Nat) (bytes : List UInt8) :
    (startsIn offset bytes).length = bytes.count newlineByte := by
  induction bytes generalizing offset with
  | nil => rfl
  | cons b bytes ih =>
    rw [startsIn, List.count_cons]
    split <;> simp [*]

theorem startsIn_of_notMem {bytes : List UInt8} (h : newlineByte ∉ bytes) (offset : Nat) :
    startsIn offset bytes = [] := by
  rw [← List.length_eq_zero_iff, length_startsIn, List.count_eq_zero_of_not_mem h]

/-- An entry is above the offset that the bytes begin at, and not above the one they end at. -/
theorem bounds_of_mem_startsIn {offset start : Nat} {bytes : List UInt8}
    (h : start ∈ startsIn offset bytes) : offset < start ∧ start ≤ offset + bytes.length := by
  induction bytes generalizing offset with
  | nil => exact absurd h List.not_mem_nil
  | cons b bytes ih =>
    have hrest (hmem : start ∈ startsIn (offset + 1) bytes) :
        offset < start ∧ start ≤ offset + (b :: bytes).length := by
      have := ih hmem
      rw [List.length_cons]
      omega
    rw [startsIn] at h
    split at h
    · rcases List.mem_cons.mp h with rfl | hmem
      · rw [List.length_cons]
        omega
      · exact hrest hmem
    · exact hrest h

/-- The last of the lines begins behind the last newline. -/
theorem getLast_startsIn (bytes : List UInt8) :
    (startsIn 0 bytes).getLastD 0 = lineBegin bytes := by
  induction bytes using List.reverseRecOn with
  | nil => rfl
  | append_singleton bytes b ih =>
    rw [startsIn_append]
    by_cases hb : b = newlineByte
    · rw [hb, lineBegin_append_newline, startsIn, if_pos rfl, startsIn, List.getLastD_concat,
        Nat.zero_add]
    · have hnone : newlineByte ∉ [b] := by simpa using Ne.symm hb
      rw [startsIn_of_notMem hnone, List.append_nil, lineBegin_append hnone, ih]

/-- **The table has an entry for each newline byte.** -/
theorem startsFrom_eq (offset : Nat) (cs : List Char) :
    startsFrom offset cs = startsIn offset (bytesOf cs) := by
  induction cs generalizing offset with
  | nil => rfl
  | cons c cs ih =>
    rw [startsFrom, bytesOf_cons, startsIn_append, String.length_utf8EncodeChar, ih]
    by_cases hc : c = '\n'
    · subst hc
      rfl
    · rw [if_neg hc, startsIn_of_notMem (newlineByte_notMem hc), List.nil_append]

/-! ## The search -/

/-- The search ends at the cut that the entries have, wherever it starts from. -/
theorem search_eq {starts : Array Nat} {offset cut : Nat} {low high : Nat} (hlow : low ≤ cut)
    (hhigh : cut ≤ high)
    (hcut : ∀ i, low ≤ i → i < high → (starts.getD i 0 ≤ offset ↔ i < cut)) :
    search starts offset low high = cut := by
  -- each half that is left has the cut in it, or has it for its end
  fun_induction search starts offset low high with
  | case1 low high hlt middle hle ih =>
    have hmiddle : middle < cut := (hcut middle (by omega) (by omega)).mp hle
    exact ih (by omega) hhigh fun i hi ↦ hcut i (by omega)
  | case2 low high hlt middle hgt ih =>
    have hmiddle : ¬middle < cut := fun h ↦ hgt ((hcut middle (by omega) (by omega)).mpr h)
    exact ih hlow (by omega) fun i hi hi' ↦ hcut i hi (by omega)
  | case3 low high hge => omega

/-! ## The cut at an offset -/

section Cut

variable {t : LineTable} {front back : List Nat} {offset : Nat}

/-- The entries in front of the cut, the last of which is where the line of the offset begins. -/
theorem rank_of_append (h : t.starts.toList = front ++ back)
    (hfront : ∀ start ∈ front, start ≤ offset)
    (hback : ∀ start ∈ back, offset < start) : t.rank offset = front.length := by
  have hsize : t.starts.size = front.length + back.length := by
    rw [← Array.length_toList, h, List.length_append]
  refine search_eq (Nat.zero_le _) (by omega) fun i _ hi ↦ ?_
  have hlen : i < (front ++ back).length := by
    rw [List.length_append]
    omega
  have hget : t.starts.getD i 0 = (front ++ back)[i] := by simp [← h, hi]
  rw [hget]
  constructor
  · intro hle
    by_contra hge
    rw [List.getElem_append_right (by omega)] at hle
    exact Nat.not_lt_of_le hle (hback _ (List.getElem_mem _))
  · intro hlt
    rw [List.getElem_append_left hlt]
    exact hfront _ (List.getElem_mem hlt)

theorem lineStart_of_append (h : t.starts.toList = front ++ back) :
    t.lineStart front.length = front.getLastD 0 := by
  rcases front.eq_nil_or_concat with rfl | ⟨front, start, rfl⟩
  · rfl
  · rw [List.concat_eq_append, List.length_append, List.length_singleton, List.getLastD_concat,
      lineStart, Array.getD_eq_getD_getElem?, ← Array.getElem?_toList, h]
    simp

end Cut

/-- The table of a text, cut at an offset. -/
theorem starts_ofText (text : String) (offset : Nat) :
    (ofText text).starts.toList = startsIn 0 ((bytesOf text.toList).take offset) ++
      startsIn (min offset (bytesOf text.toList).length) ((bytesOf text.toList).drop offset) := by
  show startsFrom 0 text.toList = _
  rw [startsFrom_eq]
  conv_lhs => rw [← List.take_append_drop offset (bytesOf text.toList)]
  rw [startsIn_append, List.length_take, Nat.zero_add]

/-- The search counts the newlines in front of the offset. -/
theorem rank_ofText (text : String) (offset : Nat) :
    (ofText text).rank offset = (startsIn 0 ((bytesOf text.toList).take offset)).length := by
  refine rank_of_append (starts_ofText text offset) (fun start hstart ↦ ?_) fun start hstart ↦ ?_
  · have := (bounds_of_mem_startsIn hstart).2
    rw [List.length_take] at this
    omega
  · have hbounds := bounds_of_mem_startsIn hstart
    rw [List.length_drop] at hbounds
    omega

/-- The line that the search finds begins behind the last of these newlines. -/
theorem lineStart_rank (text : String) (offset : Nat) :
    (ofText text).lineStart ((ofText text).rank offset) =
      lineBegin ((bytesOf text.toList).take offset) := by
  rw [rank_ofText, lineStart_of_append (starts_ofText text offset), getLast_startsIn]

theorem rank_lt_lineCount (text : String) (offset : Nat) :
    (ofText text).rank offset < (ofText text).lineCount := by
  have hsize := congrArg List.length (starts_ofText text offset)
  rw [Array.length_toList, List.length_append, ← rank_ofText] at hsize
  rw [lineCount]
  omega

/-! ## The position of an offset -/

/-- Where each of the lines begins, the first one included. -/
def lineBegins (t : LineTable) : List Nat := 0 :: t.starts.toList

theorem getElem?_lineBegins {t : LineTable} {k : Nat} (h : k < t.lineCount) :
    t.lineBegins[k]? = some (t.lineStart k) := by
  cases k with
  | zero => rfl
  | succ k =>
    have hk : k < t.starts.size := Nat.lt_of_succ_lt_succ h
    simp [lineBegins, lineStart, hk]

/-- The position of an offset is the one that the bytes have. -/
theorem position_eq_inBytes (text : String) (offset : Nat) :
    (ofText text).position offset = .inBytes (bytesOf text.toList) offset := by
  rw [position, lineStart_rank, rank_ofText, length_startsIn, Nat.add_comm]
  rfl

/-- **The table answers with the count of the bytes**, for every offset: with the newlines in front
of it and the bytes since the last one.  The line is one that the table has, and it begins at or in
front of the offset; and of two offsets the lesser is the earlier place. -/
theorem position_ofText (text : String) (offset : Nat) :
    (ofText text).position offset = .inBytes (bytesOf text.toList) offset ∧
      1 ≤ ((ofText text).position offset).line ∧
      ((ofText text).position offset).line ≤ (ofText text).lineCount ∧
      (∃ start, (ofText text).lineBegins[((ofText text).position offset).line - 1]? = some start ∧
        start ≤ offset ∧ ((ofText text).position offset).column = offset - start) ∧
      ∀ later, offset < later →
        ((ofText text).position offset).Before ((ofText text).position later) := by
  have hrank := rank_lt_lineCount text offset
  refine ⟨position_eq_inBytes text offset, Nat.le_add_left _ _, hrank, ?_, fun later hlater ↦ ?_⟩
  · refine ⟨_, getElem?_lineBegins hrank, ?_, rfl⟩
    show (ofText text).lineStart ((ofText text).rank offset) ≤ offset
    rw [lineStart_rank]
    exact (lineBegin_le _).trans (List.length_take_le offset _)
  · rw [position_eq_inBytes, position_eq_inBytes]
    exact Position.inBytes_before _ hlater

/-- From the middle of a character to past the end of the text. -/
theorem position_ofText_past :
    (ofText "ä\n\nb").position 1 = ⟨1, 1⟩ ∧ (ofText "ä\n\nb").position 9 = ⟨3, 5⟩ ∧
      ((ofText "ä\n\nb").position 1).Before ((ofText "ä\n\nb").position 9) := by
  obtain ⟨hearlier, -, -, -, hbefore⟩ := position_ofText "ä\n\nb" 1
  have hlater := (position_ofText "ä\n\nb" 9).1
  exact ⟨hearlier.trans (by decide), hlater.trans (by decide), hbefore 9 (by decide)⟩

end LineTable

end ProtoSchema
