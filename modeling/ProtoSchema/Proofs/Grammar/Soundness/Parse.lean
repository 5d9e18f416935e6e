import ProtoSchema.Proofs.Grammar.Sentence
import ProtoSchema.Proofs.Grammar.Soundness.Schema
import ProtoSchema.Proofs.Schema.Notes
import ProtoSchema.Proofs.Token.Lossless

/-!
# What is read from a text is what the text says

The symbols of a text that is read as a schema derive that schema.  The derivation is over all the
symbols in front of the end of the text, comments left out.

Two things make the derivation one about the text itself.  The symbols of a text are spelled as
their lexemes are, so a name made of several symbols is their lexemes put together; and whatever has
a number for a value is a numeral.

## What is here

* `Document.derives_of_ofTokens` — a document that is read of any buffer, with any notes.
* `Document.exists_extents` — the same with extents for notes, of which the places of the document
  are made.
* `Symbol.Genuine.spelling_eq`, `genuine_of_mem_significant` — the symbols of a text.
* `parse_eq_ok_iff` — a text is read if it is scanned and its tokens are.
* `exists_tiled_of_parse`, `exists_extents_of_parse` — a document that is read of a text, with the
  tokens of the text laid out.
* `parse_sound` — the theorem about texts, and `parse_sound_enum`, a negative value and a comment.

The other direction is `ProtoSchema.Proofs.Grammar.Completeness.Parse`.
-/

set_option autoImplicit false

namespace ProtoSchema

open Grammar Phrase

/-- Whatever buffer a document is read from, the symbols of its sentence derive the schema. -/
theorem Document.derives_of_ofTokens {ν : Type} (note : Extent → ν) {config : Config}
    {tokens : List Token} {d : Document} (h : Document.ofTokens config tokens = .ok d) :
    ∃ x : Schema Extent, d.schema = x.map (Sentence.ofBuffer d.tokens).locate ∧
      d.tokens = endedBuffer tokens ∧ (x.map note).Derives Integer config note 0
        (Sentence.ofBuffer d.tokens).cursor.rest := by
  simp only [Document.ofTokens] at h
  split at h
  · cases h
  · rename_i x c' hread
    cases h
    refine ⟨x, rfl, rfl, ?_⟩
    have hrun : (Reader.ofConfig config Sentence.kind_stop).run Grammar.schema 0
        (Sentence.ofBuffer (endedBuffer tokens)).cursor.rest = .ok (x, c') := hread
    obtain ⟨s, rest, hrest, hs, heof⟩ := Reader.schema_ok note hrun
    cases rest with
    | nil => rwa [hrest, List.append_nil]
    | cons t rest =>
      have hmem : t ∈ (Sentence.ofBuffer (endedBuffer tokens)).cursor.rest := by simp [hrest]
      exact absurd heof (Sentence.rest_cursor_ne_eof t hmem)

/-- The schema of a document is one whose notes are extents, each put in its place. -/
theorem Document.exists_extents {config : Config} {tokens : List Token} {d : Document}
    (h : Document.ofTokens config tokens = .ok d) :
    ∃ x : Schema Extent, d.schema = x.map (Sentence.ofBuffer d.tokens).locate ∧
      d.tokens = endedBuffer tokens ∧
      x.Derives Integer config id 0 (Sentence.ofBuffer d.tokens).cursor.rest := by
  obtain ⟨x, hx, htokens, hderives⟩ := Document.derives_of_ofTokens id h
  rw [← Function.comp_id (Sentence.locate _), ← Schema.map_map] at hx
  exact ⟨x.map id, hx, htokens, hderives⟩

/-! ## The symbols of a text -/

/-- A genuine symbol is spelled as its lexeme. -/
theorem Symbol.Genuine.spelling_eq {s : Symbol} (h : s.Genuine) : s.spelling = s.lexeme := by
  cases h with
  | operator h => exact Symbol.spelling_of_kind rfl h
  | @word text h =>
    simp only [Symbol.spelling, Kind.ofWord]
    split <;> rfl
  | string | integer | float | lineComment | blockComment => rfl

/-- All symbols of a text are genuine. -/
theorem genuine_of_mem_significant {m : Mark} {cs : List Char} {ts : List Token}
    (h : Tiled m cs ts) {s : Symbol} (hs : s ∈ significant ts) : s.Genuine := by
  obtain ⟨t, ht, rfl⟩ := List.mem_map.mp hs
  exact (h.standsIn t (List.mem_filter.mp ht).1).genuine

/-- A text is read if it is scanned and its tokens are read. -/
theorem parse_eq_ok_iff {text : String} {config : Config} {d : Document} :
    parse text config = .ok d ↔
      ∃ tokens, scan text = .ok tokens ∧ Document.ofTokens config tokens = .ok d := by
  unfold parse
  cases scan text with
  | error e => simp
  | ok tokens => cases hread : Document.ofTokens config tokens <;> simp [hread]

/-- The symbols of a text that is read, and what they derive. -/
theorem exists_tiled_of_parse {ν : Type} (note : Extent → ν) {text : String} {config : Config}
    {d : Document} (h : parse text config = .ok d) :
    ∃ ts stop, scan text = .ok (ts ++ [stop]) ∧ stop.kind = .eof ∧ Tiled .start text.toList ts ∧
      ∃ x : Schema Extent, d.schema = x.map (Sentence.ofBuffer (ts ++ [stop])).locate ∧
        (x.map note).Derives Integer config note 0 (significant ts) := by
  obtain ⟨tokens, hscan, hread⟩ := parse_eq_ok_iff.mp h
  obtain ⟨ts, rfl, htiled⟩ := tiled_of_scanFrom hscan
  refine ⟨ts, _, hscan, rfl, htiled, ?_⟩
  obtain ⟨x, hx, htokens, hd⟩ := Document.derives_of_ofTokens note hread
  rw [htokens, endedBuffer_append rfl] at hx hd
  rw [Sentence.rest_cursor_append htiled.kind_ne_eof rfl] at hd
  exact ⟨x, hx, hd⟩

/-- The tokens of a text that is read, and the schema with extents for notes. -/
theorem exists_extents_of_parse {text : String} {config : Config} {d : Document}
    (h : parse text config = .ok d) :
    ∃ ts stop, scan text = .ok (ts ++ [stop]) ∧ stop.kind = .eof ∧ Tiled .start text.toList ts ∧
      d.tokens = ts ++ [stop] ∧
      ∃ x : Schema Extent, d.schema = x.map (Sentence.ofBuffer (ts ++ [stop])).locate ∧
        x.Derives Integer config id 0 (significant ts) := by
  obtain ⟨tokens, hscan, hread⟩ := parse_eq_ok_iff.mp h
  obtain ⟨ts, rfl, htiled⟩ := tiled_of_scanFrom hscan
  obtain ⟨x, hx, htokens, hderives⟩ := Document.exists_extents hread
  rw [endedBuffer_append rfl] at htokens
  rw [htokens] at hx hderives
  rw [Sentence.rest_cursor_append htiled.kind_ne_eof rfl] at hderives
  exact ⟨ts, _, hscan, rfl, htiled, htokens, x, hx, hderives⟩

/-- **What is read from a text is what the text says.**  The symbols of the text, all of them and in
order, derive the schema that is read, the place of each node being that of its own symbols. -/
theorem parse_sound {text : String} {config : Config} {d : Document}
    (h : parse text config = .ok d) :
    ∃ ts stop, scan text = .ok (ts ++ [stop]) ∧ stop.kind = .eof ∧ (∀ t ∈ ts, t.kind ≠ .eof) ∧
      d.schema.Derives Integer config (Sentence.ofBuffer (ts ++ [stop])).locate 0 (significant ts) ∧
      ∀ s ∈ significant ts, s.spelling = s.lexeme ∧ (s.number?.isSome → s.kind = .number) := by
  obtain ⟨ts, stop, hscan, hstop, htiled, -⟩ := exists_tiled_of_parse (fun _ ↦ ()) h
  obtain ⟨ts', stop', hscan', -, -, x, hx, hd⟩ :=
    exists_tiled_of_parse (Sentence.ofBuffer (ts ++ [stop])).locate h
  obtain ⟨rfl, hstops⟩ := List.append_inj' (Except.ok.inj (hscan.symm.trans hscan')) rfl
  obtain rfl := List.singleton_inj.mp hstops
  refine ⟨ts, stop, hscan, hstop, htiled.kind_ne_eof, ?_, ?_⟩
  · rwa [hx]
  · intro s hs
    have hg := genuine_of_mem_significant htiled hs
    exact ⟨hg.spelling_eq, hg.kind_of_number?⟩

/-- An enum with a negative number and a comment. -/
theorem parse_sound_enum :
    ∃ text d ts stop, text = "enum E \x7b A = -1; /* é */ \x7d" ∧ parse text {} = .ok d ∧
      scan text = .ok (ts ++ [stop]) ∧ stop.kind = .eof ∧ (∀ t ∈ ts, t.kind ≠ .eof) ∧
      d.schema.Derives Integer {} (Sentence.ofBuffer (ts ++ [stop])).locate 0 (significant ts) ∧
      ∀ s ∈ significant ts, s.spelling = s.lexeme ∧ (s.number?.isSome → s.kind = .number) := by
  obtain ⟨d, h⟩ := exists_ok_of_isOk (x := parse "enum E \x7b A = -1; /* é */ \x7d" {})
    (by decide +kernel)
  obtain ⟨ts, stop, hsound⟩ := parse_sound h
  exact ⟨_, d, ts, stop, rfl, h, hsound⟩

end ProtoSchema
