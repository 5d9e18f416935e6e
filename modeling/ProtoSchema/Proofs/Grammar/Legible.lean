import ProtoSchema.Proofs.Grammar.Sentence
import ProtoSchema.Proofs.Schema.Notes
import ProtoSchema.Proofs.Token.Lossless

/-!
# What of a buffer reaches the tree

The grammar reads the symbols of the tokens that are no comments, up to the first end.  Where the
tokens stand does not matter, nor what stands between them or behind the end: two buffers that agree
on these symbols are read alike, and the trees differ in the places of their nodes only.

It is the symbols that are compared, and not the lexemes alone: a buffer made by hand can have a
token whose value is not that of its lexeme.

## What is here

* `withoutComments`, `throughEnd`, `legible` — the tokens that are read.  A buffer with no end
  behind it is given one first (`exists_endedBuffer`).
* `Sentence.exists_visible_append`, `Sentence.getElem?_visible`, `Sentence.getElem?_withoutComments`
  — the places of a sentence, and the end behind them, are the first of the tokens other than
  comments.
* `Sentence.legible_eq` — the legible tokens are those of the sentence and its end.
* `Sentence.cursor_eq_of_legible` — so the cursors of two such buffers are equal, and all that a
  rule can make of them is.
* `Document.ofTokens_legible` — both are read, and as schemas that agree but for the places, or both
  fail with the same fault.
* `Document.ofTokens_legible_message` — a message with comments between its tokens and without.
-/

set_option autoImplicit false

namespace ProtoSchema

/-- The tokens other than comments. -/
def withoutComments (tokens : List Token) : List Token := tokens.filter fun t => !t.is .comment

/-- The tokens up to the first end, which is included. -/
def throughEnd : List Token → List Token
  | [] => []
  | t :: ts => if t.is .eof then [t] else t :: throughEnd ts

/-- The tokens of a buffer that the grammar reads. -/
def legible (tokens : List Token) : List Token := throughEnd (withoutComments (endedBuffer tokens))

/-- Nothing behind the first end is kept. -/
theorem throughEnd_append {ts us : List Token} {stop : Token} (hts : ∀ t ∈ ts, t.kind ≠ .eof)
    (hstop : stop.kind = .eof) : throughEnd (ts ++ stop :: us) = ts ++ [stop] := by
  induction ts with
  | nil => simp [throughEnd, Symbol.is, hstop]
  | cons t ts ih =>
    obtain ⟨ht, hts⟩ := List.forall_mem_cons.mp hts
    simp [throughEnd, Symbol.is, ht, ih hts]

/-- Where the first end is does not depend on what stands behind it. -/
theorem throughEnd_take (k : Nat) (ts : List Token) :
    (throughEnd ts).take k = throughEnd (ts.take k) := by
  induction ts generalizing k with
  | nil => simp [throughEnd]
  | cons t ts ih =>
    cases k with
    | zero => simp [throughEnd]
    | succ k =>
      rw [List.take_succ_cons, throughEnd, throughEnd]
      split
      · rw [List.take_succ_cons, List.take_nil]
      · rw [List.take_succ_cons, ih]

/-- The last token of an ended buffer is an end. -/
theorem exists_endedBuffer (tokens : List Token) :
    ∃ ts stop, endedBuffer tokens = ts ++ [stop] ∧ stop.kind = .eof := by
  unfold endedBuffer
  split
  next h =>
    obtain ⟨stop, hlast, hstop⟩ := Option.any_eq_true .. |>.mp h
    obtain ⟨ts, rfl⟩ := List.getLast?_eq_some_iff.mp hlast
    exact ⟨ts, stop, rfl, by simpa [Symbol.is] using hstop⟩
  next => exact ⟨tokens, _, rfl, rfl⟩

namespace Sentence

/-- The sentence of an ended buffer is what can be seen of it up to an end. -/
theorem exists_visible_append (tokens : List Token) :
    ∃ later, visible (endedBuffer tokens) = (ofBuffer (endedBuffer tokens)).places.toList ++
      (ofBuffer (endedBuffer tokens)).stop :: later := by
  obtain ⟨ts, stop, hended, hstop⟩ := exists_endedBuffer tokens
  generalize endedBuffer tokens = buffer at hended
  have hmem : stop ∈ buffer.filter fun t => !t.is .comment := by
    simp [hended, Symbol.is, hstop]
  rw [← visible_map_token] at hmem
  obtain ⟨p, hp, hkind⟩ := List.mem_map.mp hmem
  obtain ⟨q, hq⟩ :=
    Option.isSome_iff_exists.mp (List.find?_isSome (p := fun p : Place ↦ p.token.is .eof).mpr
    ⟨p, hp, by simp [Symbol.is, hkind, hstop]⟩)
  obtain ⟨hend, before, later, hvisible, hbefore⟩ := List.find?_eq_some_iff_append.mp hq
  have hplaces : (ofBuffer buffer).places.toList = before := by
    rw [places_ofBuffer, hvisible, List.takeWhile_append_of_pos hbefore,
      List.takeWhile_cons_of_neg (by simp [hend]), List.append_nil]
  have hlast : (ofBuffer buffer).stop = q := congrArg (Option.getD · _) hq
  exact ⟨later, by rw [hplaces, hlast, hvisible]⟩

/-- A place of the sentence, or the end behind it, has the same number among the tokens other than
comments. -/
theorem getElem?_visible {tokens : List Token} {k : Nat}
    (hk : k ≤ (ofBuffer (endedBuffer tokens)).places.size) :
    (visible (endedBuffer tokens))[k]? = some ((ofBuffer (endedBuffer tokens)).place k) := by
  obtain ⟨later, hlater⟩ := exists_visible_append tokens
  rw [hlater, place, Array.getD_eq_getD_getElem?, ← Array.getElem?_toList]
  rcases Nat.lt_or_eq_of_le hk with hlt | rfl
  · rw [List.getElem?_append_left (by simpa using hlt), List.getElem?_eq_getElem
      (by simpa using hlt), Option.getD_some]
  · simp

/-- The token of such a place is the one with that number. -/
theorem getElem?_withoutComments {tokens : List Token} {k : Nat}
    (hk : k ≤ (ofBuffer (endedBuffer tokens)).places.size) :
    (withoutComments (endedBuffer tokens))[k]? =
      some ((ofBuffer (endedBuffer tokens)).place k).token := by
  rw [withoutComments, ← visible_map_token, List.getElem?_map, getElem?_visible hk]
  rfl

/-- The legible tokens are those of the sentence, and the end behind them. -/
theorem legible_eq (tokens : List Token) : legible tokens =
    (ofBuffer (endedBuffer tokens)).places.toList.map Place.token ++
      [(ofBuffer (endedBuffer tokens)).stop.token] := by
  obtain ⟨later, hlater⟩ := exists_visible_append tokens
  rw [legible, withoutComments, ← visible_map_token, hlater, List.map_append, List.map_cons]
  refine throughEnd_append ?_ kind_stop
  rw [List.forall_mem_map]
  exact fun p hp ↦ kind_ne_eof hp (Nat.le_refl _) (getElem?_of_mem hp)

/-- What the grammar sees of a buffer is its legible tokens. -/
theorem cursor_eq_of_legible {tokens tokens' : List Token}
    (h : (legible tokens).map Token.toSymbol = (legible tokens').map Token.toSymbol) :
    (ofBuffer (endedBuffer tokens)).cursor = (ofBuffer (endedBuffer tokens')).cursor := by
  rw [legible_eq, legible_eq, List.map_append, List.map_append, List.map_map, List.map_map] at h
  obtain ⟨hrest, hstop⟩ := List.append_inj' h rfl
  rw [cursor, cursor]
  exact congr (congrArg _ hrest) (List.singleton_inj.mp hstop)

end Sentence

/-- **Comments and layout do not reach the tree.**  Two buffers whose legible tokens have the same
kinds, lexemes and values are both read, as schemas that differ in their places only, or both fail
with the same fault. -/
theorem Document.ofTokens_legible {config : Config} {tokens tokens' : List Token}
    (h : (legible tokens).map Token.toSymbol = (legible tokens').map Token.toSymbol) :
    (∃ d d', ofTokens config tokens = .ok d ∧ ofTokens config tokens' = .ok d' ∧
      d.schema.erase = d'.schema.erase) ∨
    ∃ e e', ofTokens config tokens = .error e ∧ ofTokens config tokens' = .error e' ∧
      e.fault = e'.fault := by
  rw [ofTokens, ofTokens, Sentence.cursor_eq_of_legible h]
  cases Grammar.read config Grammar.schema (Sentence.ofBuffer (endedBuffer tokens')).cursor with
  | error f => exact .inr ⟨_, _, rfl, rfl, rfl⟩
  | ok x => exact .inl ⟨_, _, rfl, rfl, by rw [Schema.erase_map, Schema.erase_map]⟩

/-- A message on one line, and the same message with comments between its tokens. -/
theorem Document.ofTokens_legible_message :
    ∃ tokens tokens', scan "message M \x7b a.B c = 1; \x7d" = .ok tokens ∧
      scan "// a\nmessage/**/M\x7b a /* . */ .\n B c=1; // \x7d\n\x7d" = .ok tokens' ∧
      (legible tokens).map Token.toSymbol = (legible tokens').map Token.toSymbol ∧
      ((∃ d d', ofTokens {} tokens = .ok d ∧ ofTokens {} tokens' = .ok d' ∧
        d.schema.erase = d'.schema.erase) ∨
      ∃ e e', ofTokens {} tokens = .error e ∧ ofTokens {} tokens' = .error e' ∧
        e.fault = e'.fault) := by
  have hsame :
    (scan "message M \x7b a.B c = 1; \x7d").map (fun ts ↦ (legible ts).map Token.toSymbol) =
      (scan "// a\nmessage/**/M\x7b a /* . */ .\n B c=1; // \x7d\n\x7d").map
        (fun ts ↦ (legible ts).map Token.toSymbol) := by decide +kernel
  obtain ⟨tokens, h⟩ := exists_ok_of_isOk (x := scan "message M \x7b a.B c = 1; \x7d")
    (by decide +kernel)
  obtain ⟨tokens', h'⟩ := exists_ok_of_isOk
    (x := scan "// a\nmessage/**/M\x7b a /* . */ .\n B c=1; // \x7d\n\x7d") (by decide +kernel)
  rw [h, h'] at hsame
  have hlegible := Except.ok.inj hsame
  exact ⟨tokens, tokens', h, h', hlegible, Document.ofTokens_legible hlegible⟩

end ProtoSchema
