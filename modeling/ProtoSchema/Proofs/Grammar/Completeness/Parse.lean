import ProtoSchema.Proofs.Grammar.Completeness.Schema
import ProtoSchema.Proofs.Grammar.Elsewhere
import ProtoSchema.Proofs.Grammar.Soundness.Parse
import ProtoSchema.Proofs.Schema.Notes
import ProtoSchema.Proofs.Token.Division

/-!
# What a text says is read from it

If the symbols of a text derive a schema, the text is read, and as that schema.  With
`exists_tiled_of_parse`, which is the other direction, whether and as what a text is read is a
question about its symbols alone.

## What is here

* `Document.exists_ofTokens` — a buffer with one end, behind all else.
* `Document.ofTokens_of_located` — the same where the notes of the tree are the places in the
  buffer.  The document is then known in full.
* `exists_parse_of_derives` — a text whose tokens are known.
* `uncommented` — symbols without the comments, which is what the grammar sees of them.
* `exists_parse_of_divides` — a text that is divided into symbols.
-/

set_option autoImplicit false

namespace ProtoSchema

open Grammar Phrase

variable {ν : Type} {note : Extent → ν} {config : Config} {y : Schema ν}

theorem read_accepts {c : Cursor} (hstop : c.stop.kind = .eof)
    (h : y.Derives Integer config note c.index c.rest) :
    ∃ x : Schema Extent, x.map note = y ∧
      Grammar.read config Grammar.schema c = .ok (x, ⟨c.index + c.rest.length, [], c.stop⟩) := by
  have haccepts : ∃ x : Schema Extent, x.map note = y ∧
      (Reader.ofConfig config hstop).run Grammar.schema c.index c.rest =
        .ok (x, ⟨c.index + c.rest.length, [], c.stop⟩) :=
    Reader.schema_accepts note h
  exact haccepts

/-- A buffer with one end, behind all else, is read as whatever its symbols derive. -/
theorem Document.exists_ofTokens {ts : List Token} {stop : Token}
    (hts : ∀ t ∈ ts, t.kind ≠ .eof) (hstop : stop.kind = .eof)
    (h : y.Derives Integer config note 0 (significant ts)) :
    ∃ d, Document.ofTokens config (ts ++ [stop]) = .ok d ∧
      ∃ x : Schema Extent, x.map note = y ∧ d.schema.erase = x.erase := by
  rw [← Sentence.rest_cursor_append hts hstop] at h
  obtain ⟨x, rfl, hread⟩ :=
    read_accepts (c := (Sentence.ofBuffer (ts ++ [stop])).cursor) Sentence.kind_stop h
  refine ⟨⟨x.map (Sentence.ofBuffer (ts ++ [stop])).locate, ts ++ [stop],
    ⟨.start, bufferEnd (ts ++ [stop])⟩⟩, ?_, x, rfl, x.erase_map _⟩
  simp only [Document.ofTokens, endedBuffer_append hstop, hread]

/-- If the notes of a tree are the places of its symbols, the tree is the one that is read. -/
theorem Document.ofTokens_of_located {ts : List Token} {stop : Token} {y : Schema Location}
    (hts : ∀ t ∈ ts, t.kind ≠ .eof) (hstop : stop.kind = .eof)
    (h : y.Derives Integer config (Sentence.ofBuffer (ts ++ [stop])).locate 0 (significant ts)) :
    Document.ofTokens config (ts ++ [stop]) =
      .ok ⟨y, ts ++ [stop], ⟨.start, bufferEnd (ts ++ [stop])⟩⟩ := by
  rw [← Sentence.rest_cursor_append hts hstop] at h
  obtain ⟨x, rfl, hread⟩ :=
    read_accepts (c := (Sentence.ofBuffer (ts ++ [stop])).cursor) Sentence.kind_stop h
  simp only [Document.ofTokens, endedBuffer_append hstop, hread]

/-- A text is read as what the symbols of its tokens derive. -/
theorem exists_parse_of_derives {text : String} {ts : List Token} {stop : Token}
    (hscan : scan text = .ok (ts ++ [stop]))
    (h : y.Derives Integer config note 0 (significant ts)) :
    ∃ d, parse text config = .ok d ∧
      ∃ x : Schema Extent, x.map note = y ∧ d.schema.erase = x.erase := by
  obtain ⟨ts', heq, htiled⟩ := tiled_of_scanFrom hscan
  obtain ⟨rfl, hstops⟩ := List.append_inj' heq rfl
  have hstop : stop.kind = .eof := by
    rw [List.singleton_inj.mp hstops]
    rfl
  obtain ⟨d, hread, hd⟩ := Document.exists_ofTokens
    htiled.kind_ne_eof hstop h
  exact ⟨d, parse_eq_ok_iff.mpr ⟨_, hscan, hread⟩, hd⟩

/-- The symbols without the comments. -/
def uncommented (ss : List Symbol) : List Symbol := ss.filter fun s => !s.is .comment

theorem uncommented_append (ss ts : List Symbol) :
    uncommented (ss ++ ts) = uncommented ss ++ uncommented ts :=
  List.filter_append _ _

/-- A symbol that is no comment is kept. -/
theorem uncommented_cons {s : Symbol} (h : s.kind ≠ .comment) (ss : List Symbol) :
    uncommented (s :: ss) = s :: uncommented ss :=
  List.filter_cons_of_pos (by simpa [Symbol.is] using h)

theorem uncommented_eq_self {ss : List Symbol} (h : ∀ s ∈ ss, s.kind ≠ .comment) :
    uncommented ss = ss :=
  List.filter_eq_self.mpr fun s hs ↦ by simpa [Symbol.is] using h s hs

/-- The symbols that the grammar sees are those of the tokens, without the comments. -/
theorem significant_eq (ts : List Token) :
    significant ts = uncommented (ts.map Token.toSymbol) := by
  rw [uncommented, List.filter_map]
  rfl

/-- A text is read as what the symbols derive that it is divided into. -/
theorem exists_parse_of_divides {text : String} {ss : List Symbol} {y : Schema Unit}
    (htext : Divides [] text.toList ss) (h : y.Derives Integer config noNote 0 (uncommented ss)) :
    ∃ d, parse text config = .ok d ∧ d.schema.erase = y := by
  obtain ⟨ts, hscan, rfl⟩ := scanFrom_of_divides htext .start
  rw [← significant_eq] at h
  obtain ⟨d, hd, x, rfl, herase⟩ := exists_parse_of_derives hscan h
  exact ⟨d, hd, herase⟩

end ProtoSchema
