import ProtoSchema.Parse.Document
import Mathlib.Data.List.TakeWhile

/-!
# What the grammar reads of a buffer

The sentence of a buffer is the tokens in front of its first end, without the comments, each with
its number in the buffer.  The numbers increase along the sentence, so a place in the sentence and a
number in the buffer say the same thing about what comes first; and no end comes before any token of
a sentence.

## What is here

* `significant` — the symbols of tokens that are no comments.  `exists_token` finds the token of
  such a symbol, with those in front of it.
* `Sentence.visible` — the tokens other than comments with their numbers.  The sentence is the part
  of them in front of the first end (`Sentence.places_ofBuffer`).
* `Sentence.getElem?_of_mem`, `Sentence.kind_ne_comment`, `Sentence.kind_ne_eof`,
  `Sentence.places_pairwise` — what the places of a sentence are.
* `Sentence.place_eq` — the place of a symbol, from the number of symbols in front of it.
* `Sentence.stop_eq` — the end of the sentence.
* `Sentence.rest_cursor` and the lemmas behind it — the symbols that a cursor in front of the
  sentence has left.
-/

set_option autoImplicit false

namespace ProtoSchema

/-- The symbols in tokens that the grammar can see. -/
def significant (tokens : List Token) : List Symbol :=
  (tokens.filter fun t => !t.is .comment).map Token.toSymbol

/-- Symbols of tokens behind one another. -/
theorem significant_append (ts us : List Token) :
    significant (ts ++ us) = significant ts ++ significant us := by
  rw [significant, List.filter_append, List.map_append]
  rfl

/-- A token that is no comment is kept. -/
theorem significant_cons {t : Token} (h : t.kind ≠ .comment) (ts : List Token) :
    significant (t :: ts) = t.toSymbol :: significant ts := by
  rw [significant, List.filter_cons_of_pos (by simpa [Symbol.is] using h)]
  rfl

/-- Comments are dropped anyway. -/
theorem significant_filter (ts : List Token) :
    significant (ts.filter fun t => !t.is .comment) = significant ts := by
  rw [significant, List.filter_filter, significant]
  simp only [Bool.and_self]

/-- The token of a symbol that the grammar can see. -/
theorem exists_token {ts : List Token} {u w : List Symbol} {s : Symbol}
    (h : significant ts = u ++ s :: w) :
    ∃ ts₁ t ts₂, ts = ts₁ ++ t :: ts₂ ∧ significant ts₁ = u ∧ t.toSymbol = s ∧ t.kind ≠ .comment ∧
      significant ts₂ = w := by
  obtain ⟨as, bs, hts, rfl, hbs⟩ := List.map_eq_append_iff.mp h
  obtain ⟨t, cs, rfl, rfl, rfl⟩ := List.map_eq_cons_iff.mp hbs
  obtain ⟨us, vs, rfl, rfl, hvs⟩ := List.filter_eq_append_iff.mp hts
  obtain ⟨comments, rest, rfl, hcomments, hcomment, rfl⟩ := List.filter_eq_cons_iff.mp hvs
  refine ⟨us ++ comments, t, rest, by simp, ?_, rfl, by simpa [Symbol.is] using hcomment, rfl⟩
  rw [significant, List.filter_append, List.filter_eq_nil_iff.mpr hcomments, List.append_nil]

namespace Sentence

variable (tokens : List Token)

/-- All tokens of a buffer other than comments, each with its number. -/
def visible : List Place :=
  (tokens.zipIdx.map fun (token, index) => Place.mk token index).filter fun p =>
    !p.token.is .comment

theorem places_ofBuffer :
    (ofBuffer tokens).places.toList = (visible tokens).takeWhile fun p => !p.token.is .eof := rfl

/-- The visible tokens are those other than comments. -/
theorem visible_map_token :
    (visible tokens).map Place.token = tokens.filter fun t => !t.is .comment := by
  have hcomp : (fun p : Place ↦ !p.token.is .comment) =
      (fun t : Token ↦ !t.is .comment) ∘ Place.token :=
    rfl
  have htoken : Place.token ∘ (fun (token, index) => Place.mk token index) = Prod.fst := rfl
  rw [visible, hcomp, ← List.filter_map, List.map_map, htoken, List.zipIdx_map_fst]

variable {tokens}

/-- A visible token has the number that it has in the buffer. -/
theorem mem_visible {p : Place} : p ∈ visible tokens ↔
    tokens[p.index]? = some p.token ∧ p.token.kind ≠ .comment := by
  simp only [visible, List.mem_filter, List.mem_map, Prod.exists, Symbol.is, Bool.not_eq_true',
    beq_eq_false_iff_ne]
  refine and_congr_left fun _ ↦ ⟨?_, fun h ↦ ⟨p.token, p.index, ?_, rfl⟩⟩
  · rintro ⟨t, i, hmem, rfl⟩
    exact List.mk_mem_zipIdx_iff_getElem?.mp hmem
  · exact List.mk_mem_zipIdx_iff_getElem?.mpr h

/-- The numbers of the visible tokens go up. -/
theorem visible_pairwise : (visible tokens).Pairwise fun p q ↦ p.index < q.index := by
  refine List.Pairwise.filter _ (List.pairwise_map.mpr ?_)
  rw [← List.pairwise_map (f := Prod.snd) (R := (· < ·)), List.zipIdx_map_snd]
  exact List.pairwise_lt_range'

/-- In front of what a test lets through, in the order of the numbers, the test lets through
everything. -/
theorem passes_of_mem_takeWhile {test : Place → Bool} {ps : List Place}
    (hps : ps.Pairwise fun p q ↦ p.index < q.index) {p q : Place} (hp : p ∈ ps.takeWhile test)
    (hq : q ∈ ps) (hle : q.index ≤ p.index) : test q := by
  induction hps with
  | nil => simp at hq
  | @cons a ps ha _ ih =>
    by_cases htest : test a
    · rw [List.takeWhile_cons_of_pos htest] at hp
      rcases List.mem_cons.mp hq with rfl | hqs
      · exact htest
      · rcases List.mem_cons.mp hp with rfl | hps
        · exact absurd (ha q hqs) (Nat.not_lt.mpr hle)
        · exact ih hps hqs
    · simp [List.takeWhile_cons_of_neg htest] at hp

/-! ## The places of a sentence -/

variable {p q : Place}

/-- A place has the token with its number. -/
theorem getElem?_of_mem (hp : p ∈ (ofBuffer tokens).places.toList) :
    tokens[p.index]? = some p.token := by
  rw [places_ofBuffer] at hp
  exact (mem_visible.mp ((List.takeWhile_sublist _).subset hp)).1

/-- No token of a sentence is a comment. -/
theorem kind_ne_comment (hp : p ∈ (ofBuffer tokens).places.toList) : p.token.kind ≠ .comment := by
  rw [places_ofBuffer] at hp
  exact (mem_visible.mp ((List.takeWhile_sublist _).subset hp)).2

/-- No end comes before a token of the sentence. -/
theorem kind_ne_eof (hp : p ∈ (ofBuffer tokens).places.toList) {i : Nat} {t : Token}
    (hi : i ≤ p.index) (ht : tokens[i]? = some t) : t.kind ≠ .eof := by
  rw [places_ofBuffer] at hp
  by_cases hcomment : t.kind = .comment
  · rw [hcomment]
    nofun
  · have hmem : ⟨t, i⟩ ∈ visible tokens := mem_visible.mpr ⟨ht, hcomment⟩
    simpa [Symbol.is] using passes_of_mem_takeWhile visible_pairwise hp hmem hi

/-- The numbers of a sentence go up. -/
theorem places_pairwise :
    (ofBuffer tokens).places.toList.Pairwise fun p q ↦ p.index < q.index := by
  rw [places_ofBuffer]
  exact visible_pairwise.sublist (List.takeWhile_sublist _)

section Token

variable {ts₁ ts₂ : List Token} {t : Token} (hts : ∀ t ∈ ts₁, t.kind ≠ .eof)
  (hcomment : t.kind ≠ .comment)

include hts

theorem filter_not_eof : ∀ t ∈ ts₁.filter fun t => !t.is .comment, !t.is .eof := by
  intro t ht
  simpa [Symbol.is] using hts t (List.mem_filter.mp ht).1

theorem visible_not_eof : ∀ p ∈ visible ts₁, !p.token.is .eof := by
  intro p hp
  refine filter_not_eof hts p.token ?_
  rw [← visible_map_token]
  exact List.mem_map_of_mem hp

omit hts in
include hcomment in
/-- The tokens in front of a token are numbered alike whatever stands behind it. -/
theorem exists_visible :
    ∃ ps, visible (ts₁ ++ t :: ts₂) = visible ts₁ ++ ⟨t, ts₁.length⟩ :: ps := by
  have hsees : (!t.is .comment) = true := by simpa [Symbol.is] using hcomment
  rw [visible, List.zipIdx_append, List.zipIdx_cons, List.map_append, List.filter_append,
    List.map_cons, List.filter_cons_of_pos (by simpa using hsees), Nat.zero_add]
  exact ⟨_, rfl⟩

/-- Behind the sentence stands the first end of the buffer. -/
theorem stop_eq (ht : t.kind = .eof) : (ofBuffer (ts₁ ++ t :: ts₂)).stop = ⟨t, ts₁.length⟩ := by
  obtain ⟨ps, hps⟩ := @exists_visible ts₁ ts₂ t (by simp [ht])
  have hnone : (visible ts₁).find? (fun p => p.token.is .eof) = none := by
    rw [List.find?_eq_none]
    exact fun p hp ↦ by simpa using visible_not_eof hts p hp
  have hfind : (visible (ts₁ ++ t :: ts₂)).find? (fun p => p.token.is .eof) =
      some ⟨t, ts₁.length⟩ := by
    rw [hps, List.find?_append, hnone, Option.none_or, List.find?_cons_of_pos
      (by simp [Symbol.is, ht])]
  exact congrArg (Option.getD · _) hfind

include hcomment in
/-- The place that a symbol has, from the tokens in front of it. -/
theorem place_eq :
    (ofBuffer (ts₁ ++ t :: ts₂)).place (significant ts₁).length = ⟨t, ts₁.length⟩ := by
  obtain ⟨ps, hps⟩ := @exists_visible ts₁ ts₂ t hcomment
  have hlen : (significant ts₁).length = (visible ts₁).length := by
    rw [significant, List.length_map, ← visible_map_token, List.length_map]
  rw [place, Array.getD_eq_getD_getElem?, ← Array.getElem?_toList, places_ofBuffer, hps,
    List.takeWhile_append_of_pos (visible_not_eof hts), hlen,
    List.getElem?_append_right (Nat.le_refl _), Nat.sub_self]
  by_cases heof : t.kind = .eof
  · rw [List.takeWhile_cons_of_neg (by simp [Symbol.is, heof]), List.getElem?_nil, Option.getD_none,
      stop_eq hts heof]
  · rw [List.takeWhile_cons_of_pos (by simpa [Symbol.is] using heof), List.getElem?_cons_zero,
      Option.getD_some]

end Token

/-! ## The cursor of a sentence -/

/-- What is left to read is the symbols of the sentence. -/
theorem rest_cursor : (ofBuffer tokens).cursor.rest =
    (((tokens.filter fun t => !t.is .comment).takeWhile fun t => !t.is .eof).map
      Token.toSymbol) := by
  show (ofBuffer tokens).places.toList.map (fun p ↦ p.token.toSymbol) = _
  rw [places_ofBuffer, ← visible_map_token, List.takeWhile_map, List.map_map]
  rfl

/-- The end of a sentence is an end, whatever the buffer is. -/
theorem kind_stop : (ofBuffer tokens).stop.token.kind = .eof := by
  simp only [ofBuffer]
  cases h : List.find? _ _ with
  | none => rfl
  | some p => simpa [Symbol.is] using List.find?_some h

/-- No symbol in front of the end is an end. -/
theorem rest_cursor_ne_eof : ∀ s ∈ (ofBuffer tokens).cursor.rest, s.kind ≠ .eof := by
  rw [rest_cursor]
  intro s hs
  obtain ⟨t, ht, rfl⟩ := List.mem_map.mp hs
  simpa [Symbol.is] using List.mem_takeWhile_imp ht

/-- If an end stands only behind a buffer, all of its symbols are read. -/
theorem rest_cursor_append {ts : List Token} {stop : Token} (hts : ∀ t ∈ ts, t.kind ≠ .eof)
    (hstop : stop.kind = .eof) : (ofBuffer (ts ++ [stop])).cursor.rest = significant ts := by
  have hlast : [stop].filter (fun t => !t.is .comment) = [stop] := by
    simp [Symbol.is, hstop]
  rw [rest_cursor, List.filter_append, hlast, List.takeWhile_append_of_pos (filter_not_eof hts),
    significant]
  simp [Symbol.is, hstop]

end Sentence

/-- A buffer with an end behind it gets no other. -/
theorem endedBuffer_append {ts : List Token} {stop : Token} (hstop : stop.kind = .eof) :
    endedBuffer (ts ++ [stop]) = ts ++ [stop] := by
  simp [endedBuffer, Symbol.is, hstop]

end ProtoSchema
