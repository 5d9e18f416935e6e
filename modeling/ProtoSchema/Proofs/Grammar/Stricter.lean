import ProtoSchema.Proofs.Grammar.Completeness.Parse
import ProtoSchema.Proofs.Grammar.Coverage
import ProtoSchema.Proofs.Grammar.Filtering
import ProtoSchema.Proofs.Grammar.Unmet

/-!
# Reading again with another configuration

What one configuration reads, another one reads as the same document if it meets the requirements of
the schema, and otherwise it fails at the first of them that it does not meet.  So of two
configurations that differ in one thing only, the stricter one does no more than to filter.

Symbols have been replaced by tokens here, as in `ProtoSchema.Proofs.Grammar.Coverage`: the symbol
that marks a requirement is a token of the buffer, and between two symbols there may be comments.

## What is here

* `SignAt`, `OpeningAt` — the token that marks a negative number, and the one that marks a body.
  They speak of the tokens of the statement only, and say of each token between what it can be.
* `Requirement.MarkedAt` — the token that marks a requirement.
* `Sentence.signAt_of_symbols`, `Sentence.openingAt_of_symbols`, `Sentence.markedAt_of_marked` — a
  mark among the symbols is one among the tokens.
* `Document.ofTokens_of_derives`, `Document.ofTokens_of_breaks` — what symbols derive is read, and
  what they lead to is failed with.
* `Requirement.FirstUnmet.exists_mark` — the first requirement that is not met, among the tokens.
* `Document.ofTokens_again` — a document read again with any other configuration.
* `Document.ofTokens_limit`, `Document.ofTokens_nonnegative` — the two parts of a configuration,
  each by itself.  That a failure of the laxer one is a failure of the stricter one is the other
  half of each, and comes from `ProtoSchema.Proofs.Grammar.Filtering`.
-/

set_option autoImplicit false

namespace ProtoSchema

open Grammar Phrase

/-! ## Marks among tokens -/

/-- The token number `k` is the sign of the number `n` of the statement at the place: it is the
first minus sign of the statement, and the next token that is no comment is the number without the
sign. -/
structure SignAt (tokens : List Token) (n : Int) (l : Location) (k : Nat) : Prop where
  ge : l.firstToken ≤ k
  minus : ∃ t, tokens[k]? = some t ∧ t.kind = .minus
  first : ∀ k' t, l.firstToken ≤ k' → k' < k → tokens[k']? = some t → t.kind ≠ .minus
  number : ∃ k' t m, k < k' ∧ k' ≤ l.lastToken ∧ tokens[k']? = some t ∧
    t.number? = some (.integer m) ∧ n = -m ∧
      ∀ i t, k < i → i < k' → tokens[i]? = some t → t.kind = .comment

/-- The token number `k` is the opening brace of the body of the block at the place: only comments
and empty statements stand between it and the first member, or the end of the block if there is no
member. -/
structure OpeningAt (tokens : List Token) (body : List (Member Location)) (l : Location) (k : Nat) :
    Prop where
  inside : l.firstToken < k ∧ k < body.head?.elim l.lastToken fun m ↦ m.loc.firstToken
  brace : ∃ t, tokens[k]? = some t ∧ t.kind = .leftBrace
  next : ∀ k' t, k < k' → (k' < body.head?.elim l.lastToken fun m ↦ m.loc.firstToken) →
    tokens[k']? = some t → t.kind = .comment ∨ t.kind = .semicolon

/-- The token number `k` marks the requirement. -/
def Requirement.MarkedAt (tokens : List Token) (k : Nat) : Requirement Location → Prop
  | number n l => SignAt tokens n l k
  | nesting _ body l => OpeningAt tokens body l k

namespace Sentence

variable {tokens : List Token} {u v w : List Symbol} {j : Nat}

/-- Between the tokens of two symbols that stand next to each other there are only comments. -/
theorem kind_eq_comment_of_between (hj : j + 1 < count tokens) {k : Nat} {t : Token}
    (hlt : ((ofBuffer tokens).place j).index < k)
    (hgt : k < ((ofBuffer tokens).place (j + 1)).index) (ht : tokens[k]? = some t) :
    t.kind = .comment := by
  by_contra hcomment
  obtain ⟨i, hi, hplace⟩ := exists_place ht hcomment fun i t hle ht ↦
    kind_ne_eof (place_mem hj) (Nat.le_of_lt (Nat.lt_of_le_of_lt hle hgt)) ht
  have hindex : k = ((ofBuffer tokens).place i).index := by rw [hplace]
  rw [hindex] at hlt hgt
  have hi' := (place_lt_iff (by omega) hi).mp hlt
  have hi'' := (place_lt_iff hi hj).mp hgt
  omega

/-- Where the members of a body begin, among the symbols and among the tokens. -/
theorem head?_locate (s : Sentence) (body : List (Member Extent)) (e : Extent) :
    ((body.map (Member.map s.locate)).head?.elim (s.locate e).lastToken fun m ↦ m.loc.firstToken) =
      (s.place (body.head?.elim (e.stop - 1) fun m ↦ m.loc.start)).index := by
  cases body with
  | nil => rfl
  | cons m body =>
    rw [List.map_cons, List.head?_cons, Option.elim_some, Member.loc_map]
    rfl

/-- Some symbols, a sign and its number are tokens in the same order. -/
theorem signAt_of_symbols {a b : List Symbol} {minus s : Symbol} {n : Nat} {e : Extent}
    (hrest : (ofBuffer tokens).cursor.rest = u ++ (a ++ minus :: s :: b) ++ w)
    (he : e = ⟨u.length, u.length + (a ++ minus :: s :: b).length⟩) (ha : ∀ x ∈ a, x.kind ≠ .minus)
    (hminus : minus.kind = .minus) (hs : s.number? = some (.integer n)) :
    SignAt tokens (-n) ((ofBuffer tokens).locate e)
      ((ofBuffer tokens).place (u.length + a.length)).index := by
  obtain ⟨hsign, tsign, htsign, rfl⟩ := exists_place_token (u := u ++ a) (s := minus)
    (w := s :: b ++ w) (by simpa using hrest)
  obtain ⟨hnumber, tnumber, htnumber, rfl⟩ := exists_place_token (u := u ++ a ++ [tsign.toSymbol])
    (s := s) (w := b ++ w) (by simpa using hrest)
  have hlast : u.length + (a ++ tsign.toSymbol :: tnumber.toSymbol :: b).length ≤ count tokens := by
    rw [← length_rest, hrest]
    simp only [List.length_append, List.length_cons]
    omega
  simp only [List.length_append, List.length_cons, List.length_nil]
    at hsign htsign hnumber htnumber hlast
  subst he
  have hstretch := stretch_of_places ((ofBuffer tokens).place u.length).index (v := a)
    (w := tsign.toSymbol :: tnumber.toSymbol :: b ++ w) (by simpa using hrest) hsign
    fun j hj hle ↦ (place_le_iff (by omega) hj).mp hle
  refine ⟨place_le_place (by simp) hsign, ⟨tsign, htsign, hminus⟩, ?_, ?_⟩
  · intro k t hge hlt ht
    by_cases hcomment : t.kind = .comment
    · rw [hcomment]
      nofun
    · obtain ⟨i, -, -, -, hsymbol⟩ := hstretch.exists_symbol hge hlt ht hcomment
      exact ha _ (List.mem_of_getElem? hsymbol)
  · refine ⟨_, tnumber, n, place_lt_place (Nat.lt_succ_self _) hnumber, ?_, htnumber, hs, rfl, ?_⟩
    · refine place_le_place ?_ ?_ <;> simp <;> omega
    · exact fun k t hlt hgt ht ↦ kind_eq_comment_of_between hnumber hlt hgt ht

/-- Some symbols, a brace, semicolons and something behind them are tokens in the same order. -/
theorem openingAt_of_symbols {a b semis : List Symbol} {l : Symbol} {body : List (Member Extent)}
    {e : Extent} (hrest : (ofBuffer tokens).cursor.rest = u ++ (a ++ l :: (semis ++ b)) ++ w)
    (he : e = ⟨u.length, u.length + (a ++ l :: (semis ++ b)).length⟩) (ha : a ≠ []) (hb : b ≠ [])
    (hl : l.kind = .leftBrace) (hsemis : ∀ x ∈ semis, x.kind = .semicolon)
    (hbody : u.length + a.length + 1 + semis.length =
      body.head?.elim (e.stop - 1) fun m ↦ m.loc.start) :
    OpeningAt tokens (body.map (Member.map (ofBuffer tokens).locate)) ((ofBuffer tokens).locate e)
      ((ofBuffer tokens).place (u.length + a.length)).index := by
  obtain ⟨hopen, t, ht, rfl⟩ := exists_place_token (u := u ++ a) (s := l) (w := semis ++ b ++ w)
    (by simpa using hrest)
  have hstart : u.length + a.length + 1 + semis.length < count tokens := by
    rw [← length_rest, hrest]
    have := List.length_pos_iff.mpr hb
    simp
    omega
  have hpos := List.length_pos_iff.mpr ha
  have hlen : (u ++ a ++ [t.toSymbol]).length = u.length + a.length + 1 := by simp [Nat.add_assoc]
  rw [List.length_append] at hopen ht
  have hstretch := stretch_of_places (((ofBuffer tokens).place (u.length + a.length)).index + 1)
    (u := u ++ a ++ [t.toSymbol]) (v := semis) (w := b ++ w) (by simpa using hrest) (hlen ▸ hstart)
    fun i hi hle ↦ hlen ▸ (place_lt_iff hopen hi).mp hle
  rw [hlen] at hstretch
  refine ⟨?_, ⟨t, ht, hl⟩, ?_⟩
  · rw [head?_locate, ← hbody, he]
    exact ⟨place_lt_place (Nat.lt_add_of_pos_right hpos) hopen, place_lt_place (by omega) hstart⟩
  · rw [head?_locate, ← hbody]
    intro k t hlt hgt ht
    by_cases hcomment : t.kind = .comment
    · exact .inl hcomment
    · obtain ⟨i, -, -, -, hsymbol⟩ := hstretch.exists_symbol hlt hgt ht hcomment
      exact .inr (hsemis _ (List.mem_of_getElem? hsymbol))

/-- The symbol that marks a requirement is a token that marks it. -/
theorem markedAt_of_marked {r : Requirement Extent}
    (hrest : (ofBuffer tokens).cursor.rest = u ++ v ++ w) (h : r.Marked j u.length v) :
    (r.map (ofBuffer tokens).locate).MarkedAt tokens ((ofBuffer tokens).place j).index := by
  cases h with
  | number hloc ha hminus hs hj =>
    rw [hj]
    exact signAt_of_symbols hrest hloc ha hminus hs
  | nesting hloc ha hb hl hsemis hj hbody =>
    rw [hj] at hbody ⊢
    exact openingAt_of_symbols hrest hloc ha hb hl hsemis hbody

end Sentence

/-! ## Documents -/

variable {config lax : Config} {tokens : List Token} {d : Document}

/-- A document is its schema and its tokens. -/
theorem Document.eq_of_ofTokens (h : ofTokens config tokens = .ok d) :
    d = ⟨d.schema, endedBuffer tokens, ⟨.start, bufferEnd (endedBuffer tokens)⟩⟩ := by
  simp only [ofTokens] at h
  split at h <;> cases h
  rfl

/-- The symbols of the sentence of a buffer. -/
abbrev symbolsOf (tokens : List Token) : List Symbol :=
  (Sentence.ofBuffer (endedBuffer tokens)).cursor.rest

/-- A buffer whose symbols derive a schema is read as it. -/
theorem Document.ofTokens_of_derives {x : Schema Extent}
    (h : x.Derives Integer config id 0 (symbolsOf tokens)) :
    ofTokens config tokens = .ok ⟨x.map (Sentence.ofBuffer (endedBuffer tokens)).locate,
      endedBuffer tokens, ⟨.start, bufferEnd (endedBuffer tokens)⟩⟩ := by
  obtain ⟨y, rfl, hread⟩ :=
    read_accepts (c := (Sentence.ofBuffer (endedBuffer tokens)).cursor) Sentence.kind_stop h
  rw [Schema.map_map]
  simp only [ofTokens, hread]
  rfl

/-- A buffer whose first symbols lead to a failure is failed with it. -/
theorem Document.ofTokens_of_breaks {e : Failure} {s u : List Symbol}
    (hrest : symbolsOf tokens = s ++ u) (h : Schema.Breaks config id 0 e s) :
    ofTokens config tokens =
      .error ((Sentence.ofBuffer (endedBuffer tokens)).report e) := by
  have hread : Grammar.read config Grammar.schema (Sentence.ofBuffer (endedBuffer tokens)).cursor =
      .error e := by
    have hstop : (Sentence.ofBuffer (endedBuffer tokens)).stop.token.kind = .eof :=
      Sentence.kind_stop
    have hbreaks : (Reader.ofConfig config hstop).Breaks Grammar.schema (Schema.Breaks config id) :=
      Reader.schema_breaks id
    have hrun := hbreaks h u
    rw [← hrest] at hrun
    exact hrun
  simp only [ofTokens, hread]

/-- What is required of a statement is required where the statement is. -/
theorem Schema.Derives.start_lt_of_requirement {x : Schema Extent} {i : Nat} {s : List Symbol}
    (h : x.Derives Integer config id i s) {r : Requirement Extent} (hr : r ∈ x.requirements) :
    r.loc.start < i + s.length := by
  obtain ⟨n, hn, hloc⟩ := Schema.exists_node_of_requirement hr
  obtain ⟨⟨hpos, -⟩, -, hstop⟩ := h.row.laid n hn
  rw [← hloc]
  exact Nat.lt_of_lt_of_le hpos hstop

/-- The first requirement that is not met has its mark among the tokens, and the failure is reported
there. -/
theorem Requirement.FirstUnmet.exists_mark {rs : List (Requirement Extent)} {e : Failure}
    {s u : List Symbol} (h : FirstUnmet config 0 s u e rs) (hrest : symbolsOf tokens = s ++ u)
    (hin : ∀ r ∈ rs, r.loc.start < Sentence.count (endedBuffer tokens)) :
    ∃ r ∈ rs.map (Requirement.map (Sentence.ofBuffer (endedBuffer tokens)).locate), ∃ v k t,
      r.Breaks config v ∧ r.MarkedAt (endedBuffer tokens) k ∧ (endedBuffer tokens)[k]? = some t ∧
      (∀ r' ∈ rs.map (Requirement.map (Sentence.ofBuffer (endedBuffer tokens)).locate),
        r'.isNumber = r.isNumber → ¬r'.Met config → r' = r ∨ k < r'.loc.firstToken) ∧
      (Sentence.ofBuffer (endedBuffer tokens)).report e =
        ⟨.violation v, t.span.start.position⟩ := by
  obtain @⟨met, others, r, j, v, hmet, hr, hmark, hj, hothers⟩ := h
  have hcount : (s ++ u).length = Sentence.count (endedBuffer tokens) := by
    rw [← hrest, Sentence.length_rest]
  have hlt : j < Sentence.count (endedBuffer tokens) := by
    rw [← hcount, List.length_append]
    omega
  obtain ⟨front, part, back, hparts, hmark⟩ := hmark
  rw [Nat.zero_add] at hmark
  have hmem : r.map (Sentence.ofBuffer (endedBuffer tokens)).locate ∈
      (met ++ r :: others).map (Requirement.map (Sentence.ofBuffer (endedBuffer tokens)).locate) :=
    List.mem_map_of_mem (List.mem_append_right _ List.mem_cons_self)
  refine ⟨_, hmem, v, _, _, hr.map _, Sentence.markedAt_of_marked (hrest.trans hparts) hmark,
    Sentence.getElem?_of_mem (Sentence.place_mem hlt), ?_, rfl⟩
  rw [List.forall_mem_map]
  intro r' hr' hsort hnot
  rw [Requirement.isNumber_map, Requirement.isNumber_map] at hsort
  rw [Requirement.met_map] at hnot
  have hplace := hin r' hr'
  rcases List.mem_append.mp hr' with hr' | hr'
  · exact absurd (hmet r' hr') hnot
  rcases List.mem_cons.mp hr' with rfl | hr'
  · exact .inl rfl
  · right
    rw [Requirement.loc_map]
    have hstart := hothers r' hr' hsort
    exact Sentence.place_lt_place (by omega) hplace

/-- **What one configuration reads, read with another one.**  If that configuration meets the
requirements of the schema, it comes to the same document.  If not, it fails at the mark of one that
is not met.  Any other number that is not met is then one of a statement further behind, if the one
failed at is a number, and the same goes for bodies. -/
theorem Document.ofTokens_again (h : ofTokens lax tokens = .ok d) (config : Config) :
    (∀ r ∈ d.schema.requirements, r.Met config) ∧ ofTokens config tokens = .ok d ∨
    ∃ r ∈ d.schema.requirements, ∃ v k t, r.Breaks config v ∧ r.MarkedAt d.tokens k ∧
      d.tokens[k]? = some t ∧
      (∀ r' ∈ d.schema.requirements, r'.isNumber = r.isNumber → ¬r'.Met config →
        r' = r ∨ k < r'.loc.firstToken) ∧
      ofTokens config tokens = .error ⟨.violation v, t.span.start.position⟩ := by
  obtain ⟨x, hx, htokens, hderives⟩ := Document.derives_of_ofTokens id h
  rw [← Function.comp_id (Sentence.locate _), ← Schema.map_map] at hx
  generalize x.map id = x at hx hderives
  have hd := eq_of_ofTokens h
  rw [htokens] at hx hderives ⊢
  rw [hx, Schema.requirements_map]
  cases hderives.verdict config with
  | met hderives hmet =>
    left
    refine ⟨?_, ?_⟩
    · simpa using hmet
    · rw [ofTokens_of_derives hderives, ← hx, ← hd]
  | unmet hrest he hunmet =>
    right
    have hin : ∀ r ∈ x.requirements, r.loc.start < Sentence.count (endedBuffer tokens) := by
      intro r hr
      have hlt := hderives.start_lt_of_requirement hr
      rwa [Sentence.length_rest, Nat.zero_add] at hlt
    obtain ⟨r, hr, v, k, t, hbreaks, hmark, ht, hfirst, hreport⟩ := hunmet.exists_mark hrest hin
    exact ⟨r, hr, v, k, t, hbreaks, hmark, ht, hfirst,
      (ofTokens_of_breaks hrest he).trans (congrArg Except.error hreport)⟩

/-- A configuration meets the requirements of what it reads. -/
theorem Document.requirements_met (h : ofTokens config tokens = .ok d) :
    ∀ r ∈ d.schema.requirements, r.Met config := by
  rcases ofTokens_again h config with ⟨hmet, -⟩ | ⟨_, _, _, _, _, _, _, _, _, herror⟩
  · exact hmet
  · rw [h] at herror
    cases herror

/-! ## How deep blocks may be nested -/

/-- **The limit of nesting only filters.**  Of what is read with one limit, a lower one reads the
documents that are not deeper, and fails for any other at the brace that opens the first body which
is one deeper than the limit: every other such body is that of a block that begins behind the brace.
And the lower limit makes no other failures than these. -/
theorem Document.ofTokens_limit {limit : Nat} (hle : limit ≤ config.maxDepth)
    (tokens : List Token) : (∀ d, ofTokens config tokens = .ok d →
      (d.schema.depth ≤ limit → ofTokens { config with maxDepth := limit } tokens = .ok d) ∧
      (limit < d.schema.depth → ∃ body l k t,
        .nesting (limit + 1) body l ∈ d.schema.requirements ∧ OpeningAt d.tokens body l k ∧
        d.tokens[k]? = some t ∧
        (∀ body' l', .nesting (limit + 1) body' l' ∈ d.schema.requirements →
          body' = body ∧ l' = l ∨ k < l'.firstToken) ∧
        ofTokens { config with maxDepth := limit } tokens =
          .error ⟨.violation (.nestingTooDeep limit), t.span.start.position⟩)) ∧
    ∀ e, ofTokens { config with maxDepth := limit } tokens = .error e →
      (∀ n, e.fault ≠ .violation (.nestingTooDeep n)) → ofTokens config tokens = .error e := by
  constructor
  · intro d h
    have hmet := requirements_met h
    rcases ofTokens_again h { config with maxDepth := limit } with
      ⟨hstrict, hok⟩ | ⟨r, hr, v, k, t, hbreaks, hmark, ht, hfirst, herror⟩
    · refine ⟨fun _ ↦ hok, fun hlt ↦ ?_⟩
      refine absurd ((Schema.depth_le_iff _).mpr fun r hr ↦ ?_) (Nat.not_le.mpr hlt)
      cases r with
      | number => trivial
      | nesting => exact hstrict _ hr
    · cases hbreaks with
      | number hneg ha =>
        rcases hmet _ hr with hnonneg | hallow
        · omega
        · exact nomatch ha.symm.trans hallow
      | @nesting body l =>
        refine ⟨fun hdepth ↦ ?_, fun _ ↦ ⟨body, l, k, t, hr, hmark, ht, ?_, herror⟩⟩
        · exact absurd ((Schema.depth_le_iff _).mp hdepth _ hr) (Nat.not_succ_le_self limit)
        · intro body' l' hr'
          refine (hfirst _ hr' rfl (Nat.not_succ_le_self limit)).imp_left fun heq ↦ ?_
          injection heq with _ hbody hl
          exact ⟨hbody, hl⟩
  · intro e herror hother
    have hfilters : ofTokens { config with maxDepth := limit } tokens = ofTokens config tokens ∨
        ∃ f : Failure, f.fault = .violation (.nestingTooDeep limit) ∧
          ofTokens { config with maxDepth := limit } tokens =
            .error ((Sentence.ofBuffer (endedBuffer tokens)).report f) := by
      refine ofTokens_filters ?_ ?_ tokens
      · exact .inl rfl
      · exact .inr ⟨hle, fun _ ↦ rfl⟩
    rcases hfilters with h | ⟨f, hf, h⟩
    · rw [← h, herror]
    · rw [herror] at h
      cases h
      exact absurd hf (hother limit)

/-- A group in a message is too deep if one body is allowed, and so is the message in the group; the
brace of the group comes first. -/
theorem Document.ofTokens_limit_group :
    ∃ text tokens d body l k t,
      text = "message M \x7b optional group G = 1 /* a */ \x7b ; message N \x7b\x7d \x7d \x7d" ∧
      scan text = .ok tokens ∧ 1 ≤ ({} : Config).maxDepth ∧ ofTokens {} tokens = .ok d ∧
      1 < d.schema.depth ∧ .nesting 2 body l ∈ d.schema.requirements ∧
      OpeningAt d.tokens body l k ∧ d.tokens[k]? = some t ∧
      (∀ body' l', .nesting 2 body' l' ∈ d.schema.requirements →
        body' = body ∧ l' = l ∨ k < l'.firstToken) ∧
      ofTokens { maxDepth := 1 } tokens =
        .error ⟨.violation (.nestingTooDeep 1), t.span.start.position⟩ := by
  obtain ⟨d, h⟩ := exists_ok_of_isOk (x := parse
    "message M \x7b optional group G = 1 /* a */ \x7b ; message N \x7b\x7d \x7d \x7d" {})
    (by decide +kernel)
  have hdepth : (parse
      "message M \x7b optional group G = 1 /* a */ \x7b ; message N \x7b\x7d \x7d \x7d"
      {}).toOption.map (fun d ↦ d.schema.depth) = some 3 := by
    decide +kernel
  rw [h] at hdepth
  have hlt : 1 < d.schema.depth := by
    have heq : d.schema.depth = 3 := Option.some.inj hdepth
    omega
  obtain ⟨tokens, hscan, hread⟩ := parse_eq_ok_iff.mp h
  have hle : 1 ≤ ({} : Config).maxDepth := by decide
  obtain ⟨body, l, k, t, hfirst⟩ := ((ofTokens_limit hle tokens).1 d hread).2 hlt
  exact ⟨_, tokens, d, body, l, k, t, rfl, hscan, hle, hread, hlt, hfirst⟩

/-! ## Negative numbers -/

/-- **That numbers must not be negative only filters.**  Of what is read if they may, that reads the
documents without negative numbers, and fails for any other at the sign of the first of them: every
other one is of a statement that begins behind the sign.  And what fails otherwise fails in the same
way, or because of a negative number. -/
theorem Document.ofTokens_nonnegative (config : Config) (tokens : List Token) :
    (∀ d, ofTokens { config with allowNegative := true } tokens = .ok d →
      ((∀ n l, .number n l ∈ d.schema.requirements → 0 ≤ n) →
        ofTokens { config with allowNegative := false } tokens = .ok d) ∧
      ((∃ n l, .number n l ∈ d.schema.requirements ∧ n < 0) → ∃ n l k t,
        .number n l ∈ d.schema.requirements ∧ n < 0 ∧ SignAt d.tokens n l k ∧
        d.tokens[k]? = some t ∧
        (∀ n' l', .number n' l' ∈ d.schema.requirements → n' < 0 →
          n' = n ∧ l' = l ∨ k < l'.firstToken) ∧
        ofTokens { config with allowNegative := false } tokens =
          .error ⟨.violation (.negativeFieldNumber n), t.span.start.position⟩)) ∧
    ∀ e, ofTokens { config with allowNegative := true } tokens = .error e →
      ofTokens { config with allowNegative := false } tokens = .error e ∨
        ∃ n position, ofTokens { config with allowNegative := false } tokens =
          .error ⟨.violation (.negativeFieldNumber n), position⟩ := by
  constructor
  · intro d h
    have hmet := requirements_met h
    rcases ofTokens_again h { config with allowNegative := false } with
      ⟨hstrict, hok⟩ | ⟨r, hr, v, k, t, hbreaks, hmark, ht, hfirst, herror⟩
    · refine ⟨fun _ ↦ hok, ?_⟩
      rintro ⟨n, l, hr, hneg⟩
      rcases hstrict _ hr with hnonneg | hallow
      · omega
      · cases hallow
    · cases hbreaks with
      | nesting => exact absurd (hmet _ hr) (Nat.not_succ_le_self _)
      | @number n l hneg ha =>
        refine ⟨fun hnonneg ↦ ?_, fun _ ↦ ⟨n, l, k, t, hr, hneg, hmark, ht, ?_, herror⟩⟩
        · have := hnonneg n l hr
          omega
        · intro n' l' hr' hneg'
          have hnot : ¬(Requirement.number n' l').Met { config with allowNegative := false } := by
            simp [Requirement.Met, hneg']
          refine (hfirst _ hr' rfl hnot).imp_left fun heq ↦ ?_
          injection heq with hn hl
          exact ⟨hn, hl⟩
  · intro e herror
    have hfilters : ofTokens { config with allowNegative := false } tokens =
          ofTokens { config with allowNegative := true } tokens ∨
        ∃ f : Failure, (∃ n, f.fault = .violation (.negativeFieldNumber n)) ∧
          ofTokens { config with allowNegative := false } tokens =
            .error ((Sentence.ofBuffer (endedBuffer tokens)).report f) := by
      refine ofTokens_filters ?_ ?_ tokens
      · exact .inr ⟨rfl, fun _ n ↦ ⟨n, rfl⟩⟩
      · exact .inl rfl
    rcases hfilters with h | ⟨f, ⟨n, hf⟩, h⟩
    · exact .inl (h.trans herror)
    · right
      rw [Sentence.report, hf] at h
      exact ⟨n, _, h⟩

/-- Two negative numbers of a group and of a field in it.  That of the enum value is no number of a
field, nor is that of the range. -/
theorem Document.ofTokens_nonnegative_group :
    ∃ text tokens d n l k t,
      text = "message M \x7b extensions -1; enum E \x7b A = -2; \x7d " ++
        "repeated group G = - /* a */ 3 \x7b oneof o \x7b int32 x = -4; \x7d \x7d \x7d" ∧
      scan text = .ok tokens ∧ ofTokens { allowNegative := true } tokens = .ok d ∧
      .number n l ∈ d.schema.requirements ∧ n < 0 ∧ SignAt d.tokens n l k ∧
      d.tokens[k]? = some t ∧
      (∀ n' l', .number n' l' ∈ d.schema.requirements → n' < 0 →
        n' = n ∧ l' = l ∨ k < l'.firstToken) ∧
      ofTokens { allowNegative := false } tokens =
        .error ⟨.violation (.negativeFieldNumber n), t.span.start.position⟩ := by
  generalize htext : "message M \x7b extensions -1; enum E \x7b A = -2; \x7d " ++
    "repeated group G = - /* a */ 3 \x7b oneof o \x7b int32 x = -4; \x7d \x7d \x7d" = text
  obtain ⟨d, h⟩ := exists_ok_of_isOk (x := parse text {}) (by rw [← htext]; decide +kernel)
  have hfails : (parse text { allowNegative := false }).isOk = false := by
    rw [← htext]
    decide +kernel
  obtain ⟨tokens, hscan, hread⟩ := parse_eq_ok_iff.mp h
  obtain ⟨hall, hsome⟩ := (ofTokens_nonnegative {} tokens).1 d hread
  have hnegative : ∃ n l, .number n l ∈ d.schema.requirements ∧ n < 0 := by
    by_contra hnone
    have hok := hall fun n l hr ↦ Int.not_lt.mp fun hn ↦ hnone ⟨n, l, hr, hn⟩
    rw [parse_eq_ok_iff.mpr ⟨tokens, hscan, hok⟩] at hfails
    cases hfails
  obtain ⟨n, l, k, t, hfirst⟩ := hsome hnegative
  exact ⟨_, tokens, d, n, l, k, t, rfl, hscan, hread, hfirst⟩

end ProtoSchema
