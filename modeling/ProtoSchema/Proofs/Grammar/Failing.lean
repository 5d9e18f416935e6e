import ProtoSchema.Proofs.Grammar.Breaking
import ProtoSchema.Proofs.Grammar.Lone

/-!
# A statement that is not read

If the rule for the statements of a body fails behind the first symbols of one, nothing that stands
behind them is looked at, and the file is not read either.  So why a text in a body is no statement
is a question about the rule for the body, as it is with what it is read as (`Lone.exists_parse`).

Where the failing symbol stands is a matter of the body, and what is reported of it is not.

The failures here are of any sort, where those of `Proofs/Grammar/Breaking.lean` are violations
only.  They are stated of symbols and of one body around them, which is enough to show that a given
text is not read.

## What is here

* `Reader.FailsBehind` — the rule for a statement fails behind the first symbol, with anything at
  all behind the given ones.
* `Reader.statements_fails`, `Reader.block_fails` — statements and blocks fail with it.
* `Reader.run_name_error` — the simplest failure, of something that is no name.
* `Host.Fails` — the rule for the statements of a body of some sort fails.
* `Host.nested_fails`, `Host.oneOf_fails`, `Host.fails_file` — a body in a file, by its heading.
* `Reader.schema_fails`, `exists_parse_error_of_divides`, `exists_parse_error_of_spells` — the file
  and its text.
* `Host.exists_parse_error` — a text in a body, put into a file and read.
-/

set_option autoImplicit false

namespace ProtoSchema

open Grammar Rule Phrase

namespace Reader

variable {α : Type} {r : Reader} {starts : Symbol → Bool} {statement : Entry → Rule α} {i : Nat}
  {e : Failure} {s : List Symbol}

/-- The first symbol passes the test, and behind it the rule fails, whatever stands behind all of
the symbols. -/
def FailsBehind (r : Reader) (starts : Symbol → Bool) (statement : Entry → Rule α) :
    Phrase Failure := fun i e s ↦
  ∃ first t, s = first :: t ∧ starts first ∧
    ∀ rest, r.run (statement ⟨i, first⟩) (i + 1) (t ++ rest) = .error e

/-- The phrase of nothing at all is read by every rule. -/
theorem accepts_nothing :
    r.AcceptsBehind Anything (fun s ↦ starts s) statement id (fun _ (_ : α) _ ↦ False) := nofun

/-- Statements fail when the rule for one of them does. -/
theorem statements_fails (hstarts : ∀ s, starts s → s.kind ≠ .semicolon)
    (h : r.FailsBehind starts statement i e s) (rest : List Symbol) :
    r.run (statements starts statement) i (s ++ rest) = .error e :=
  statements_breaks accepts_nothing (fun _ _ _ h ↦ h) hstarts (.mk (s := []) .nil h) rest

/-- A block fails when the rule for its first statement does. -/
theorem block_fails {left : Symbol} (expected : Expected) (hleft : left.kind = .leftBrace)
    (hstarts : ∀ s, starts s → s.kind ≠ .semicolon)
    (h : r.FailsBehind starts statement (i + 1) e s) (rest : List Symbol) :
    r.run (block starts expected statement) i (left :: (s ++ rest)) = .error e :=
  bind_error_of_ok (run_expect hleft) (bind_error (statements_fails hstarts h rest))

/-- Where no name stands, a name is expected. -/
theorem run_name_error {a : Symbol} {rest : List Symbol} (h : ¬a.isName) :
    r.run name i (a :: rest) =
      .error ⟨i, .unexpected (.kind .identifier) a.kind a.lexeme⟩ := by
  refine bind_error_of_ok (run_current _) ?_
  rw [current_cons, if_neg h]
  rfl

end Reader

open Reader

/-! ## Bodies -/

namespace Host

variable {config : Config} {i : Nat} {e : Failure} {s : List Symbol}

/-- The rule for the statements of the body fails behind the first of the symbols. -/
def Fails (r : Reader) : Host → Phrase Failure
  | file => r.FailsBehind startsDirective directiveFrom
  | message => r.FailsBehind startsType memberFrom
  | extension => r.FailsBehind startsType fieldOrGroupFrom
  | oneOf => r.FailsBehind startsType oneOfItem
  | enumType => r.FailsBehind Symbol.isName enumItem
  | service => r.FailsBehind (fun s ↦ s.isWord "option" || s.isWord "rpc") serviceItem

/-- The body of a block is not read if one of its statements is not. -/
theorem nested_fails {stop : Symbol} (hstop : stop.kind = .eof) (hdepth : config.maxDepth ≠ 0) :
    (∀ {i}, (∀ r : Reader, r.config = config → message.Fails r (i + 1) e s) → ∀ rest,
      (ofConfig config hstop).run (Rule.nested .message) i (.mark .leftBrace :: (s ++ rest)) =
        .error e) ∧
    ∀ {i}, (∀ r : Reader, r.config = config → extension.Fails r (i + 1) e s) → ∀ rest,
      (ofConfig config hstop).run (Rule.nested .extension) i (.mark .leftBrace :: (s ++ rest)) =
        .error e := by
  obtain ⟨depth, hdepth⟩ := Nat.exists_eq_succ_of_ne_zero hdepth
  let r : Reader := ⟨config, readBody config depth, stop, hstop⟩
  have hnested (b : Body) (c : Cursor) :
      (Rule.nested b).run config (readBody config config.maxDepth) c =
        (body b).run config (readBody config depth) c := by rw [hdepth]; rfl
  have hstarts (s : Symbol) (hs : startsType s) := (other_of_startsType s hs).1
  exact ⟨fun h rest ↦ (hnested .message _).trans
      (block_fails (r := r) .member rfl hstarts (h r rfl) rest),
    fun h rest ↦ (hnested .extension _).trans
      (block_fails (r := r) .extendItem rfl hstarts (h r rfl) rest)⟩

/-- Behind the heading of a oneof the statement fails as one of the message does. -/
theorem oneOf_fails {r : Reader} (h : oneOf.Fails r (i + 3) e s) :
    message.Fails r i e (.word "oneof" :: .word "o" :: .mark .leftBrace :: s) :=
  ⟨.word "oneof", _, rfl, rfl, fun rest ↦ (run_memberFrom (.oneOf rfl (by decide))).trans
    (bind_error (bind_error_of_ok (run_name rfl) (bind_error
      (block_fails .oneOfItem rfl (fun s hs ↦ (other_of_startsType s hs).1) h rest))))⟩

/-- With the opening of its body in front, the statement fails as a directive does. -/
theorem fails_file (h : Host) {stop : Symbol} (hstop : stop.kind = .eof)
    (hdepth : config.maxDepth ≠ 0)
    (hs : ∀ r : Reader, r.config = config → h.Fails r h.openingSymbols.length e s) :
    file.Fails (ofConfig config hstop) 0 e (h.openingSymbols ++ s) := by
  have message {t : List Symbol} (ht : ∀ r : Reader, r.config = config → message.Fails r 3 e t) :
      file.Fails (ofConfig config hstop) 0 e
        (.word "message" :: .word "M" :: .mark .leftBrace :: t) := by
    refine ⟨.word "message", _, rfl, rfl, fun rest ↦ ?_⟩
    rw [DirectiveRule.eq (.message rfl)]
    exact bind_error (bind_error_of_ok (run_name rfl)
      (bind_error ((nested_fails hstop hdepth).1 ht rest)))
  cases h with
  | file => exact hs _ rfl
  | message => exact message hs
  | oneOf => exact message fun r hr ↦ oneOf_fails (hs r hr)
  | extension =>
    refine ⟨.word "extend", _, rfl, rfl, fun rest ↦ ?_⟩
    have htype : TypeRef.Derives noNote 1 ⟨"E", ()⟩ [.word "E"] :=
      TypeRef.derives_rootless (by decide) []
    obtain ⟨x, -, ex⟩ := typeRef_accepts noNote htype (r := ofConfig config hstop)
      (.mark .leftBrace :: (s ++ rest)) nofun
    rw [DirectiveRule.eq (.extend rfl)]
    exact bind_error (bind_error_of_ok ex (bind_error ((nested_fails hstop hdepth).2 hs rest)))
  | enumType =>
    have hstarts (s : Symbol) (h : s.isName) : s.kind ≠ .semicolon :=
      Symbol.kind_ne_of_isName h nofun nofun
    exact ⟨.word "enum", _, rfl, rfl, fun rest ↦ bind_error (bind_error_of_ok (run_name rfl)
      (bind_error (block_fails .enumItem rfl hstarts (hs _ rfl) rest)))⟩
  | service =>
    have hstarts (s : Symbol) (h : s.isWord "option" || s.isWord "rpc") : s.kind ≠ .semicolon := by
      rcases Bool.or_eq_true_iff.mp h with h | h
      all_goals exact (other_of_isWord s h).1
    exact ⟨.word "service", _, rfl, rfl, fun rest ↦ bind_error (bind_error_of_ok (run_name rfl)
      (bind_error (block_fails .serviceItem rfl hstarts (hs _ rfl) rest)))⟩

end Host

/-! ## Files -/

variable {config : Config} {e : Failure} {text : String} {s ss : List Symbol}

/-- A file that begins with a statement that is not read. -/
theorem Reader.schema_fails {stop : Symbol} (hstop : stop.kind = .eof)
    (h : Host.file.Fails (ofConfig config hstop) 0 e s) (rest : List Symbol) :
    (ofConfig config hstop).run Grammar.schema 0 (s ++ rest) = .error e :=
  run_schema_error noNote (fun _ _ _ h ↦ h) .none (.mk (s := []) .nil h) rest

/-- A text is not read if the symbols are not that it is divided into. -/
theorem exists_parse_error_of_divides (htext : Divides [] text.toList ss)
    (h : ∀ {stop : Symbol} (hstop : stop.kind = .eof),
      (ofConfig config hstop).run Grammar.schema 0 (uncommented ss) = .error e) :
    ∃ position, parse text config = .error (.syntactic ⟨e.fault, position⟩) := by
  obtain ⟨ts, hscan, rfl⟩ := scanFrom_of_divides htext .start
  obtain ⟨ts', heq, htiled⟩ := tiled_of_scanFrom hscan
  obtain ⟨rfl, -⟩ := List.append_inj' heq rfl
  obtain ⟨stop, hstop, hscan⟩ : ∃ stop : Token, stop.kind = .eof ∧ scan text = .ok (ts ++ [stop]) :=
    ⟨_, rfl, hscan⟩
  have hrun := h (Sentence.kind_stop : (Sentence.ofBuffer (ts ++ [stop])).stop.token.kind = .eof)
  rw [← significant_eq, ← Sentence.rest_cursor_append htiled.kind_ne_eof hstop] at hrun
  have hread : Grammar.read config Grammar.schema (Sentence.ofBuffer (ts ++ [stop])).cursor =
      .error e := hrun
  refine ⟨((Sentence.ofBuffer (ts ++ [stop])).report e).position, ?_⟩
  simp only [parse, hscan, Document.ofTokens, endedBuffer_append hstop, hread]
  rfl

/-- The same of symbols without comments. -/
theorem exists_parse_error_of_spells {q : Char → Bool} (htext : Spells q text ss)
    (h : ∀ {stop : Symbol} (hstop : stop.kind = .eof),
      (ofConfig config hstop).run Grammar.schema 0 ss = .error e) :
    ∃ position, parse text config = .error (.syntactic ⟨e.fault, position⟩) := by
  obtain ⟨hdivides, hcomment⟩ := htext.scans.divides
  exact exists_parse_error_of_divides hdivides fun hstop ↦
    (uncommented_eq_self hcomment).symm ▸ h hstop

/-- **A text in a body is not read if the rule for the body fails.** -/
theorem Host.exists_parse_error (h : Host) {fault : Fault} (hdepth : config.maxDepth ≠ 0)
    (htext : Spells anything text s)
    (hs : ∀ i, ∃ k, ∀ r : Reader, r.config = config → h.Fails r i ⟨k, fault⟩ s) :
    ∃ position, parse (h.around text) config = .error (.syntactic ⟨fault, position⟩) := by
  obtain ⟨k, hs⟩ := hs h.openingSymbols.length
  exact exists_parse_error_of_spells (q := anything) (h.spells_around htext)
    fun hstop ↦ schema_fails hstop (h.fails_file hstop hdepth hs) h.closingSymbols

end ProtoSchema
