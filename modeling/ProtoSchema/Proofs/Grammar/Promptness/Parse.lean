import ProtoSchema.Proofs.Grammar.Completeness.Parse
import ProtoSchema.Proofs.Grammar.Promptness.Schema

/-!
# Where a text stops being the beginning of a schema

A text with an unexpected token is read up to the first token that cannot stand where it does, and
no further.  In front of that token nothing is wrong: what stands there is read if other tokens
follow, and those are tokens that a text can have.

The tokens that follow may have to open a block.  Where as many blocks are open as the configuration
allows, only a configuration that allows one more reads them.

## What is here

* `genuine_of_mem_supplies` — what finishes a beginning is made of symbols that a text can have.
* `Config.deeper` — a configuration that allows one more block to be open.
* `exists_viable_of_read` — the symbols in front of an unexpected one begin a file.
* `exists_token_headD` — the token of the unexpected symbol, with those in front of it.
* `Document.exists_viable_of_ofTokens` — the same of a buffer: the unexpected token, and supplies
  that are read behind the tokens in front of it.
* `parse_unexpected` — the same of a text.
* `parse_unexpected_nested` — the case of a name that is missing in front of a block that may not be
  nested.
-/

set_option autoImplicit false

namespace ProtoSchema

open Grammar Phrase

/-! ## Supplies are symbols of texts -/

/-- Letters and digits are a word. -/
theorem Symbol.Genuine.of_word {c : Char} {tail : List Char} (hc : isWordStart c)
    (htail : tail.all isWordPart) :
    Symbol.Genuine ⟨.ofWord (String.ofList (c :: tail)), String.ofList (c :: tail), none⟩ :=
  .word ⟨c, tail, rfl, hc, List.all_eq_true.mp htail⟩

theorem zero_genuine : zero.Genuine :=
  .integer (List.all_eq_true.mp (by decide)) (by decide)

theorem versionText_genuine : versionText.Genuine :=
  @Symbol.Genuine.string '"' "proto3".toList (by decide) ⟨by decide, by decide, by decide⟩

/-- Supplies are symbols that a text can have. -/
theorem genuine_of_mem_supplies : ∀ s ∈ supplies, s.Genuine := by
  have hname : Symbol.Genuine ⟨.identifier, "x", none⟩ :=
    @Symbol.Genuine.of_word 'x' [] (by decide) rfl
  have hreturns : Symbol.Genuine ⟨.identifier, "returns", none⟩ :=
    @Symbol.Genuine.of_word 'r' "eturns".toList (by decide) (by decide)
  have htype : Symbol.Genuine ⟨.primitiveType, "int32", none⟩ :=
    @Symbol.Genuine.of_word 'i' "nt32".toList (by decide) (by decide)
  simp only [supplies, List.forall_mem_cons]
  refine ⟨hname, hreturns, htype, zero_genuine, versionText_genuine, ?_⟩
  repeat' apply And.intro
  all_goals first | exact .operator rfl | nofun

theorem kind_ne_comment_of_mem_supplies : ∀ s ∈ supplies, s.kind ≠ .comment := by decide

/-! ## Buffers with an unexpected token -/

variable {config : Config} {expected : Expected} {found : Kind} {lexeme : String}

/-- The configuration that allows one more block to be open. -/
def Config.deeper (config : Config) : Config := { config with maxDepth := config.maxDepth + 1 }

/-- The symbols in front of an unexpected one begin a schema. -/
theorem exists_viable_of_read {c : Cursor} {f : Failure} (hstop : c.stop.kind = .eof)
    (hnumber : c.stop.number? = none) (h : Grammar.read config Grammar.schema c = .error f)
    (hf : f.fault = .unexpected expected found lexeme) :
    ∃ u w, c.rest = u ++ w ∧ f.index = c.index + u.length ∧ (w.headD c.stop).kind = found ∧
      (w.headD c.stop).lexeme = lexeme ∧
      Viable (Says (Schema.Derives Integer config.deeper noNote)) u := by
  have hnegative : config.allowNegative → config.deeper.allowNegative := id
  have hdepth : config.maxDepth + 1 = config.deeper.maxDepth := rfl
  have hschema : (Reader.ofConfig config hstop).Prompt Grammar.schema
      (Says (Schema.Derives Integer config.deeper noNote)) := Reader.schema_prompt hnegative hdepth
  have hprompt := hschema.promptAt c.index c.rest
  have hrun : (Reader.ofConfig config hstop).run Grammar.schema c.index c.rest = .error f := h
  rw [Reader.PromptAt, hrun] at hprompt
  cases hprompt hnumber with
  | @unexpected _ u w hrest hu =>
    obtain ⟨rfl, rfl, rfl⟩ := Fault.unexpected.inj hf
    exact ⟨u, w, hrest, rfl, rfl, rfl, hu⟩
  | violation => cases hf

/-- The token behind the first symbols of a buffer, which may be its end. -/
theorem exists_token_headD {ts : List Token} {stop : Token} {u w : List Symbol}
    (hstop : stop.kind = .eof) (h : significant ts = u ++ w) :
    ∃ before t after, ts ++ [stop] = before ++ t :: after ∧ (∀ s ∈ before, s ∈ ts) ∧
      significant before = u ∧ t.toSymbol = w.headD stop.toSymbol ∧ t.kind ≠ .comment := by
  cases w with
  | nil =>
    rw [List.append_nil] at h
    exact ⟨ts, stop, [], rfl, fun _ hs ↦ hs, h, rfl, hstop ▸ nofun⟩
  | cons a w =>
    obtain ⟨before, t, after, rfl, hu, ht, hcomment, -⟩ := exists_token h
    exact ⟨before, t, after ++ [stop], by simp, fun s ↦ List.mem_append_left _, hu, ht, hcomment⟩

/-- The token of an unexpected symbol is one of the buffer. -/
theorem Document.exists_viable_of_ofTokens {ts : List Token} {stop : Token} {position : Position}
    (hts : ∀ t ∈ ts, t.kind ≠ .eof) (hstop : stop.kind = .eof) (hnumber : stop.number? = none)
    (h : Document.ofTokens config (ts ++ [stop]) =
      .error ⟨.unexpected expected found lexeme, position⟩) :
    ∃ before t after, ts ++ [stop] = before ++ t :: after ∧ (∀ s ∈ before, s.kind ≠ .eof) ∧
      t.kind ≠ .comment ∧ t.kind = found ∧ t.lexeme = lexeme ∧ t.span.start.position = position ∧
      Viable (Says (Schema.Derives Integer config.deeper noNote)) (significant before) := by
  have hlast : (Sentence.ofBuffer (ts ++ [stop])).cursor.stop = stop.toSymbol :=
    congrArg (fun p ↦ p.token.toSymbol) (Sentence.stop_eq hts hstop)
  simp only [Document.ofTokens, endedBuffer_append hstop] at h
  split at h
  · rename_i f hread
    obtain ⟨hfault, rfl⟩ := SyntaxError.mk.inj (Except.error.inj h)
    obtain ⟨u, w, hrest, hindex, rfl, rfl, hu⟩ :=
      exists_viable_of_read (hlast ▸ hstop) (hlast ▸ hnumber) hread hfault
    rw [Sentence.rest_cursor_append hts hstop] at hrest
    obtain ⟨before, t, after, htokens, hmem, rfl, ht, hcomment⟩ := exists_token_headD hstop hrest
    have hbefore : ∀ s ∈ before, s.kind ≠ .eof := fun s hs ↦ hts s (hmem s hs)
    refine ⟨before, t, after, htokens, hbefore, hcomment, ?_, ?_, ?_, hu⟩
    · rw [hlast, ← ht]
    · rw [hlast, ← ht]
    · have hstart : f.index = (significant before).length := by
        rw [hindex]
        exact Nat.zero_add _
      rw [htokens, hstart, Sentence.place_eq hbefore hcomment]
  · cases h

/-! ## Texts with an unexpected token -/

/-- As tokens, supplies are the symbols that they are. -/
theorem significant_supplied {v : List Symbol} (hv : Supplied v) (span : Span) :
    significant (v.map fun s ↦ ⟨s, span⟩) = v := by
  have hpass : ∀ t ∈ v.map (Token.mk · span), !t.is .comment := by
    rw [List.forall_mem_map]
    intro s hs
    simpa [Symbol.is] using kind_ne_comment_of_mem_supplies s (hv s hs)
  rw [significant, List.filter_eq_self.mpr hpass, List.map_map]
  exact List.map_id v

/-- **What stands in front of an unexpected token can be gone on with.**  The token is one of the
text, and with suitable tokens in its place those in front of it are read. -/
theorem parse_unexpected {text : String} {position : Position}
    (h : parse text config = .error (.syntactic ⟨.unexpected expected found lexeme, position⟩)) :
    ∃ before t after, scan text = .ok (before ++ t :: after) ∧ t.kind ≠ .comment ∧ t.kind = found ∧
      t.lexeme = lexeme ∧ t.span.start.position = position ∧
      ∃ more : List Token, (∀ s ∈ more, s.toSymbol.Genuine ∧ s.kind ≠ .comment) ∧
        ∀ stop : Token, stop.kind = .eof → ∃ d, Document.ofTokens config.deeper
          (before.filter (fun s => !s.is .comment) ++ more ++ [stop]) = .ok d := by
  unfold parse at h
  split at h
  · cases h
  rename_i tokens hscan
  split at h
  · rename_i e hread
    obtain rfl := ParseError.syntactic.inj (Except.error.inj h)
    obtain ⟨ts, rfl, htiled⟩ := tiled_of_scanFrom hscan
    have hts : ∀ t ∈ ts, t.kind ≠ .eof := htiled.kind_ne_eof
    generalize hend : Token.endAt _ = stop at hscan hread
    have hstop : stop.kind = .eof := by
      rw [← hend]
      rfl
    have hnumber : stop.number? = none := by
      rw [← hend]
      rfl
    obtain ⟨before, t, after, htokens, hbefore, hcomment, hfound, hlexeme, hposition,
      v, hv, hsays⟩ :=
      Document.exists_viable_of_ofTokens hts hstop hnumber hread
    have hends : ∀ s ∈ before.filter (fun s => !s.is .comment) ++ v.map fun s => ⟨s, t.span⟩,
        s.kind ≠ .eof := by
      rw [List.forall_mem_append, List.forall_mem_map]
      exact ⟨fun s hs ↦ hbefore s (List.mem_filter.mp hs).1,
        fun s hs ↦ kind_ne_eof_of_mem_supplies s (hv s hs)⟩
    refine ⟨before, t, after, htokens ▸ hscan, hcomment, hfound, hlexeme, hposition,
      v.map fun s ↦ ⟨s, t.span⟩, ?_, fun last hlast ↦ ?_⟩
    · rw [List.forall_mem_map]
      exact fun s hs ↦
        ⟨genuine_of_mem_supplies s (hv s hs), kind_ne_comment_of_mem_supplies s (hv s hs)⟩
    · obtain ⟨y, hy⟩ := hsays 0
      rw [← significant_filter before, ← significant_supplied hv t.span, ← significant_append] at hy
      obtain ⟨d, hd, -⟩ := Document.exists_ofTokens hends hlast hy
      exact ⟨d, hd⟩
  · cases h

/-- Behind `message` there must be a name, and then a block in a block. -/
theorem parse_unexpected_nested :
    let text := "message M \x7b // N\n message 1 "
    ∃ position, parse text ⟨true, 1⟩ =
        .error (.syntactic ⟨.unexpected (.kind .identifier) .number "1", position⟩) ∧
      ∃ before t after more, scan text = .ok (before ++ t :: after) ∧ t.kind = .number ∧
        t.span.start.position = position ∧ ∃ d, Document.ofTokens ⟨true, 2⟩
          (before.filter (fun s => !s.is .comment) ++ more ++ [.endAt t.span.stop]) = .ok d := by
  intro text
  have h : (parse text ⟨true, 1⟩).map (fun _ ↦ ()) =
      .error (.syntactic ⟨.unexpected (.kind .identifier) .number "1", ⟨2, 9⟩⟩) := by decide +kernel
  have herror := eq_error_of_map h
  obtain ⟨before, t, after, hscan, -, hkind, -, hposition, more, -, hmore⟩ :=
    parse_unexpected herror
  exact ⟨_, herror, before, t, after, more, hscan, hkind, hposition, hmore _ rfl⟩

end ProtoSchema
