import ProtoSchema.Proofs.Grammar.Bodies
import ProtoSchema.Proofs.Grammar.Placement

/-!
# No token is dropped

Of the tokens of a document other than comments, each belongs to exactly one of the statements of
the file, or is a semicolon that stands between them; and within a body each belongs to exactly one
of the statements of the body, or is such a semicolon.

That is so of the symbols by the way they are derived (`Statements.covered`), and the sentence of a
buffer is in the order of its tokens, so a token belongs to a node just if its symbol does.

## What is here

* `Location.covers`, `Covered` — a token belongs to a node, and each token of a stretch belongs to
  one node of a list and no more, or is a semicolon or a comment.
* `Node.BodyAt` — where the body of a node opens and where it ends, and its statements in between.
* `Node.Bodiless` — a node without a body ends with a semicolon and no brace opens in it.
* `Sentence.exists_place`, `Sentence.place_lt_iff`, `Sentence.covers_locate`,
  `Sentence.countP_locate` — symbols and tokens count alike: the places of a sentence increase, so
  inequalities between the numbers of symbols are inequalities between the numbers of tokens.
* `Sentence.Stretch`, `Sentence.Stretch.covered` — a stretch of tokens and the symbols that are left
  of it without comments.
* `Sentence.bodyAt_of_braced`, `Sentence.bodiless_of_unbraced` — a node with a head and a body among
  the symbols has them among the tokens.
* `Document.tokens_covered` — the file and every body of every node in it.
-/

set_option autoImplicit false

namespace ProtoSchema

open Grammar Phrase

/-- Whether the token of the given number is one of the place. -/
def Location.covers (l : Location) (k : Nat) : Bool := l.firstToken ≤ k && k ≤ l.lastToken

/-- A token belongs to a place if its number lies between the first and the last. -/
theorem Location.covers_iff {l : Location} {k : Nat} :
    l.covers k ↔ l.firstToken ≤ k ∧ k ≤ l.lastToken := by
  simp [covers]

/-- Each token with a number from `start` up to `stop`, `stop` not included, is a comment, or
belongs to exactly one of the nodes, or is a semicolon and belongs to none. -/
def Covered (tokens : List Token) (start stop : Nat) (ns : List (Node Location)) : Prop :=
  ∀ k t, start ≤ k → k < stop → tokens[k]? = some t → t.kind ≠ .comment →
    ns.countP (·.loc.covers k) = 1 ∨ t.kind = .semicolon ∧ ns.countP (·.loc.covers k) = 0

/-- The token number `opening` is the first opening brace of the node, the last token of the node is
a closing brace, and the tokens between them are those of the statements. -/
structure Node.BodyAt (tokens : List Token) (n : Node Location) (opening : Nat)
    (statements : List (Node Location)) : Prop where
  inside : n.loc.firstToken < opening ∧ opening < n.loc.lastToken
  opens : ∃ t, tokens[opening]? = some t ∧ t.kind = .leftBrace
  first : ∀ k t, n.loc.firstToken ≤ k → k < opening → tokens[k]? = some t → t.kind ≠ .leftBrace
  closes : ∃ t, tokens[n.loc.lastToken]? = some t ∧ t.kind = .rightBrace
  covered : Covered tokens (opening + 1) n.loc.lastToken statements

/-- The node has no body: it ends with a semicolon, and no brace opens in it. -/
structure Node.Bodiless (tokens : List Token) (n : Node Location) : Prop where
  ends : ∃ t, tokens[n.loc.lastToken]? = some t ∧ t.kind = .semicolon
  unbraced : ∀ k t, n.loc.firstToken ≤ k → k ≤ n.loc.lastToken → tokens[k]? = some t →
    t.kind ≠ .leftBrace

/-! ## Tokens and symbols -/

namespace Sentence

variable {tokens : List Token}

/-- What passes a test along with all that is in front of it is in the part that passes. -/
theorem mem_takeWhile_of_passes {test : Place → Bool} {ps : List Place}
    (hps : ps.Pairwise fun p q ↦ p.index < q.index) {p : Place} (hp : p ∈ ps)
    (h : ∀ q ∈ ps, q.index ≤ p.index → test q) : p ∈ ps.takeWhile test := by
  induction hps with
  | nil => exact hp
  | @cons a ps ha _ ih =>
    have hle : a.index ≤ p.index := by
      rcases List.mem_cons.mp hp with rfl | hp
      · exact Nat.le_refl _
      · exact Nat.le_of_lt (ha p hp)
    rw [List.takeWhile_cons_of_pos (h a List.mem_cons_self hle)]
    rcases List.mem_cons.mp hp with rfl | hp
    · exact List.mem_cons_self
    · exact List.mem_cons_of_mem _ (ih hp fun q hq ↦ h q (List.mem_cons_of_mem _ hq))

/-- A token other than a comment, in front of all ends, has a place in the sentence. -/
theorem exists_place {k : Nat} {t : Token} (ht : tokens[k]? = some t) (hk : t.kind ≠ .comment)
    (hend : ∀ i t, i ≤ k → tokens[i]? = some t → t.kind ≠ .eof) :
    ∃ j, j < count tokens ∧ (ofBuffer tokens).place j = ⟨t, k⟩ := by
  have hvisible : ⟨t, k⟩ ∈ visible tokens := mem_visible.mpr ⟨ht, hk⟩
  have hmem : ⟨t, k⟩ ∈ (ofBuffer tokens).places.toList := by
    rw [places_ofBuffer]
    refine mem_takeWhile_of_passes visible_pairwise hvisible fun q hq hle ↦ ?_
    simpa [Symbol.is] using hend q.index q.token hle (mem_visible.mp hq).1
  obtain ⟨j, hj, hplace⟩ := List.getElem_of_mem hmem
  have hlt : j < count tokens := by simpa using hj
  exact ⟨j, hlt, by rw [place_of_lt hlt, ← hplace, Array.getElem_toList]⟩

theorem getElem?_rest {j : Nat} (hj : j < count tokens) :
    (ofBuffer tokens).cursor.rest[j]? = some ((ofBuffer tokens).place j).token.toSymbol := by
  have hlt : j < (ofBuffer tokens).places.toList.length := by simpa using hj
  rw [cursor, List.getElem?_map, List.getElem?_eq_getElem hlt, place_of_lt hj]
  rfl

/-- Places come in the order of the symbols. -/
theorem place_le_iff {i j : Nat} (hi : i < count tokens) (hj : j < count tokens) :
    ((ofBuffer tokens).place i).index ≤ ((ofBuffer tokens).place j).index ↔ i ≤ j := by
  refine ⟨fun h ↦ ?_, fun h ↦ place_le_place h hj⟩
  exact Nat.le_of_not_lt fun hlt ↦ absurd (place_lt_place hlt hi) (Nat.not_lt.mpr h)

theorem place_lt_iff {i j : Nat} (hi : i < count tokens) (hj : j < count tokens) :
    ((ofBuffer tokens).place i).index < ((ofBuffer tokens).place j).index ↔ i < j := by
  rw [← Nat.not_le, place_le_iff hj hi, Nat.not_le]

/-- A token belongs to the place of an extent if its symbol belongs to the extent. -/
theorem covers_locate {e : Extent} (he : Holds tokens e) {j : Nat} (hj : j < count tokens) :
    ((ofBuffer tokens).locate e).covers ((ofBuffer tokens).place j).index = e.covers j := by
  obtain ⟨hlt, hle⟩ := he
  have hstart : e.start < count tokens := by omega
  have hstop : e.stop - 1 < count tokens := by omega
  rw [Bool.eq_iff_iff, Location.covers_iff, Extent.covers_iff]
  refine and_congr (place_le_iff hstart hj) ((place_le_iff hj hstop).trans ?_)
  omega

/-- A token belongs to as many of the nodes as its symbol. -/
theorem countP_locate {ns : List (Node Extent)} (hns : ∀ n ∈ ns, Holds tokens n.loc) {j : Nat}
    (hj : j < count tokens) :
    (ns.map (Node.map (ofBuffer tokens).locate)).countP
        (·.loc.covers ((ofBuffer tokens).place j).index) = ns.countP (·.loc.covers j) := by
  rw [List.countP_map]
  refine List.countP_congr fun n hn ↦ ?_
  rw [Function.comp_apply, Node.loc_map, covers_locate (hns n hn) hj]

end Sentence

theorem Phrase.Statements.loc_inside {i : Nat} {s : List Symbol} {ns : List (Node Extent)}
    (h : Statements Node.Spans i ns s) : ∀ n ∈ ns, n.loc.start < n.loc.stop ∧
      n.loc.Inside ⟨i, i + s.length⟩ := by
  induction h with
  | nil => simp
  | empty _ _ ih =>
    refine fun n hn ↦ ⟨(ih n hn).1, Nat.le_of_succ_le (ih n hn).2.1, ?_⟩
    have hstop := (ih n hn).2.2
    simp only [List.length_cons] at hstop ⊢
    omega
  | cons hx _ ih =>
    refine List.forall_mem_cons.mpr ⟨?_, fun n hn ↦ ⟨(ih n hn).1, ?_⟩⟩
    · obtain ⟨hloc, hpos⟩ := hx
      rw [hloc]
      exact ⟨Nat.lt_add_of_pos_right hpos, Nat.le_refl _, by simp⟩
    · obtain ⟨hstart, hstop⟩ := (ih n hn).2
      refine ⟨Nat.le_of_add_right_le hstart, ?_⟩
      simpa [Nat.add_assoc] using hstop

/-! ## Bodies in a buffer -/

namespace Sentence

variable {tokens : List Token} {u v w : List Symbol}

theorem length_rest : (ofBuffer tokens).cursor.rest.length = count tokens := by simp [cursor]

/-- The symbol behind `u` and its token. -/
theorem exists_place_token {s : Symbol} (hrest : (ofBuffer tokens).cursor.rest = u ++ s :: w) :
    u.length < count tokens ∧ ∃ t, tokens[((ofBuffer tokens).place u.length).index]? = some t ∧
      t.toSymbol = s := by
  have hcount : u.length < count tokens := by
    rw [← length_rest, hrest, List.length_append, List.length_cons]
    omega
  refine ⟨hcount, _, getElem?_of_mem (place_mem hcount), ?_⟩
  have hsymbol := getElem?_rest hcount
  rw [hrest, List.getElem?_append_right (Nat.le_refl _), Nat.sub_self, List.getElem?_cons_zero]
    at hsymbol
  exact (Option.some.inj hsymbol).symm

/-- The tokens with numbers from `start` up to `stop`, comments left out, are those of the symbols
`v` behind `u`. -/
structure Stretch (tokens : List Token) (u v : List Symbol) (start stop : Nat) : Prop where
  rest : ∃ w, (ofBuffer tokens).cursor.rest = u ++ v ++ w
  ge : ∀ j, j < count tokens → start ≤ ((ofBuffer tokens).place j).index → u.length ≤ j
  lt : ∀ j, j < count tokens → ((ofBuffer tokens).place j).index < stop → j < u.length + v.length
  no_end : ∀ k t, k < stop → tokens[k]? = some t → t.kind ≠ .eof

namespace Stretch

variable {start stop : Nat}

/-- A token of a stretch that is no comment has a symbol. -/
theorem exists_symbol (h : Stretch tokens u v start stop) {k : Nat} {t : Token} (hstart : start ≤ k)
    (hstop : k < stop) (ht : tokens[k]? = some t) (hcomment : t.kind ≠ .comment) :
    ∃ j, j < count tokens ∧ u.length ≤ j ∧ ((ofBuffer tokens).place j).index = k ∧
      v[j - u.length]? = some t.toSymbol := by
  obtain ⟨j, hj, hplace⟩ := exists_place ht hcomment
    fun i t hle ↦ h.no_end i t (Nat.lt_of_le_of_lt hle hstop)
  have hindex : ((ofBuffer tokens).place j).index = k := by rw [hplace]
  have hge := h.ge j hj (hindex ▸ hstart)
  have hlt := h.lt j hj (hindex ▸ hstop)
  obtain ⟨w, hrest⟩ := h.rest
  have hsymbol := getElem?_rest hj
  rw [hplace, hrest, List.getElem?_append_left (by simpa using hlt),
    List.getElem?_append_right hge] at hsymbol
  exact ⟨j, hj, hge, hindex, hsymbol⟩

/-- Statements cover the tokens of their symbols. -/
theorem covered (h : Stretch tokens u v start stop) {ns : List (Node Extent)}
    (hns : Statements Node.Spans u.length ns v) :
    Covered tokens start stop (ns.map (Node.map (ofBuffer tokens).locate)) := by
  intro k t hstart hstop ht hcomment
  obtain ⟨j, hj, hge, rfl, hsymbol⟩ := h.exists_symbol hstart hstop ht hcomment
  have hholds : ∀ n ∈ ns, Holds tokens n.loc := by
    intro n hn
    obtain ⟨w, hrest⟩ := h.rest
    obtain ⟨hpos, -, hle⟩ := hns.loc_inside n hn
    refine ⟨hpos, Nat.le_trans hle ?_⟩
    rw [← length_rest, hrest, List.length_append, List.length_append]
    exact Nat.le_add_right _ _
  rw [countP_locate hholds hj]
  exact hns.covered hge hsymbol

theorem unbraced (h : Stretch tokens u v start stop) (hv : Unbraced v)
    (hg : ∀ s ∈ v, s.Genuine) {k : Nat} {t : Token} (hstart : start ≤ k) (hstop : k < stop)
    (ht : tokens[k]? = some t) : t.kind ≠ .leftBrace := by
  by_cases hcomment : t.kind = .comment
  · rw [hcomment]
    nofun
  · obtain ⟨j, -, -, -, hsymbol⟩ := h.exists_symbol hstart hstop ht hcomment
    have hmem := List.mem_of_getElem? hsymbol
    exact hv _ hmem (hg _ hmem)

end Stretch

/-- The stretch in front of the token that is behind the symbols `v`. -/
theorem stretch_of_places (start : Nat) (hrest : (ofBuffer tokens).cursor.rest = u ++ v ++ w)
    (hstop : u.length + v.length < count tokens)
    (hstart : ∀ j, j < count tokens → start ≤ ((ofBuffer tokens).place j).index → u.length ≤ j) :
    Stretch tokens u v start ((ofBuffer tokens).place (u.length + v.length)).index where
  rest := ⟨w, hrest⟩
  ge := hstart
  lt _ hj h := (place_lt_iff hj hstop).mp h
  no_end _ _ hk ht := kind_ne_eof (place_mem hstop) (Nat.le_of_lt hk) ht

theorem firstToken_map (tokens : List Token) {n : Node Extent} {i j : Nat} (h : n.loc = ⟨i, j⟩) :
    (n.map (ofBuffer tokens).locate).loc.firstToken = ((ofBuffer tokens).place i).index := by
  rw [Node.loc_map, h, locate]

theorem lastToken_map (tokens : List Token) {n : Node Extent} {i j : Nat}
    (h : n.loc = ⟨i, j + 1⟩) :
    (n.map (ofBuffer tokens).locate).loc.lastToken = ((ofBuffer tokens).place j).index := by
  rw [Node.loc_map, h, locate, Nat.add_sub_cancel]

/-- A node with a body among the symbols has its body among the tokens. -/
theorem bodyAt_of_braced {n : Node Extent} (hrest : (ofBuffer tokens).cursor.rest = u ++ v ++ w)
    (hg : ∀ s ∈ v, s.Genuine) (h : n.Braced u.length v) :
    ∃ statements, n.body? = some statements ∧ ∃ opening,
      (n.map (ofBuffer tokens).locate).BodyAt tokens opening
        (statements.map (Node.map (ofBuffer tokens).locate)) := by
  obtain @⟨_, _, statements, items, head, _, hloc, hne, hhead, hbody,
    @⟨_, l, r, _, body, hl, hitems, hr⟩, hperm⟩ := h
  have hpos : 0 < head.length := List.length_pos_iff.mpr hne
  obtain ⟨hopen, topen, htopen, rfl⟩ := exists_place_token (u := u ++ head) (s := l)
    (w := body ++ [r] ++ w) (by simpa using hrest)
  obtain ⟨hclose, tclose, htclose, rfl⟩ :=
    exists_place_token (u := u ++ head ++ topen.toSymbol :: body)
    (s := r) (w := w) (by simpa using hrest)
  simp only [List.length_append, List.length_cons] at hopen htopen hclose htclose
  have hlength : u.length + (head ++ topen.toSymbol :: (body ++ [tclose.toSymbol])).length =
      u.length + head.length + (body.length + 1) + 1 := by
    simp only [List.length_append, List.length_cons, List.length_nil]
    omega
  have hfirst := firstToken_map tokens hloc
  have hlast := lastToken_map tokens (hlength ▸ hloc)
  refine ⟨statements, hbody, ((ofBuffer tokens).place (u.length + head.length)).index, ?_⟩
  constructor
  · rw [hfirst, hlast]
    exact ⟨place_lt_place (by omega) hopen, place_lt_place (by omega) hclose⟩
  · exact ⟨topen, htopen, hl⟩
  · have hstretch := stretch_of_places ((ofBuffer tokens).place u.length).index
      (w := topen.toSymbol :: (body ++ [tclose.toSymbol]) ++ w) (by simpa using hrest) hopen
      fun j hj hle ↦ (place_le_iff (by omega) hj).mp hle
    rw [hfirst]
    intro k t hstart hstop ht
    exact hstretch.unbraced hhead (fun s hs ↦ hg s (List.mem_append_left _ hs)) hstart hstop ht
  · exact ⟨tclose, hlast ▸ htclose, hr⟩
  · have hlen : (u ++ head ++ [topen.toSymbol]).length = u.length + head.length + 1 := by
      rw [List.length_append, List.length_append, List.length_singleton]
    have hstretch := stretch_of_places
      (((ofBuffer tokens).place (u.length + head.length)).index + 1)
      (u := u ++ head ++ [topen.toSymbol]) (v := body) (w := tclose.toSymbol :: w)
      (by simpa using hrest) (by rw [hlen]; omega) fun j hj hle ↦ hlen ▸ (place_lt_iff hopen hj).mp
        hle
    rw [hlen, Nat.add_right_comm, Nat.add_assoc] at hstretch
    rw [hlast]
    rw [← hlen] at hitems
    have hcovered := hstretch.covered hitems
    intro k t hstart hstop ht hcomment
    rw [← (hperm.map _).countP_eq]
    exact hcovered k t hstart hstop ht hcomment

/-- A node without a body among the symbols has none among the tokens. -/
theorem bodiless_of_unbraced {n : Node Extent} {semi : Symbol}
    (hrest : (ofBuffer tokens).cursor.rest = u ++ (v ++ [semi]) ++ w)
    (hg : ∀ s ∈ v ++ [semi], s.Genuine) (hloc : n.loc = ⟨u.length, u.length + (v ++ [semi]).length⟩)
    (hv : Unbraced (v ++ [semi])) (hsemi : semi.kind = .semicolon) :
    (n.map (ofBuffer tokens).locate).Bodiless tokens := by
  obtain ⟨hclose, t, ht, rfl⟩ := exists_place_token (u := u ++ v) (s := semi) (w := w)
    (by simpa using hrest)
  rw [List.length_append] at hclose ht
  have hlength : u.length + (v ++ [t.toSymbol]).length = u.length + v.length + 1 := by
    rw [List.length_append, List.length_singleton, Nat.add_assoc]
  have hfirst := firstToken_map tokens hloc
  have hlast := lastToken_map tokens (hlength ▸ hloc)
  have hstretch := stretch_of_places ((ofBuffer tokens).place u.length).index
    (v := v) (w := [t.toSymbol] ++ w) (by simpa using hrest) hclose
    fun j hj hle ↦ (place_le_iff (by omega) hj).mp hle
  refine ⟨⟨t, hlast ▸ ht, hsemi⟩, ?_⟩
  rw [hfirst, hlast]
  intro k t' hstart hstop ht'
  rcases Nat.lt_or_eq_of_le hstop with hlt | rfl
  · exact hstretch.unbraced (fun s hs ↦ hv s (List.mem_append_left _ hs))
      (fun s hs ↦ hg s (List.mem_append_left _ hs)) hstart hlt ht'
  · rw [ht, Option.some.injEq] at ht'
    rw [← ht', hsemi]
    nofun

end Sentence

/-! ## Documents -/

/-- **No token is dropped.**  The tokens of a document but for the last, which is its end, are those
of its statements and of semicolons between them.  So are the tokens of every body, and whatever can
have a body has one, apart from calls that end with a semicolon. -/
theorem Document.tokens_covered {text : String} {config : Config} {d : Document}
    (h : parse text config = .ok d) :
    (∃ ts stop, d.tokens = ts ++ [stop] ∧ stop.kind = .eof ∧ (∀ t ∈ ts, t.kind ≠ .eof) ∧
      Covered d.tokens 0 ts.length d.schema.roots) ∧
    ∀ n ∈ d.schema.nodes, ∀ statements, n.body? = some statements →
      (∃ opening, n.BodyAt d.tokens opening statements) ∨
        (∃ r, n = .rpc r) ∧ n.Bodiless d.tokens := by
  obtain ⟨ts, stop, hscan, hstop, htiled, x, hx, hderives⟩ := exists_tiled_of_parse id h
  obtain ⟨tokens, hscan', hread⟩ := parse_eq_ok_iff.mp h
  obtain rfl := Except.ok.inj (hscan.symm.trans hscan')
  have htokens := (Document.nodes_placed hread).1
  rw [endedBuffer_append hstop] at htokens
  have hts : ∀ t ∈ ts, t.kind ≠ .eof := htiled.kind_ne_eof
  have hrest : (Sentence.ofBuffer (ts ++ [stop])).cursor.rest = significant ts :=
    Sentence.rest_cursor_append hts hstop
  have hgenuine : ∀ s ∈ significant ts, s.Genuine := fun s hs ↦ genuine_of_mem_significant htiled hs
  rw [← Function.comp_id (Sentence.locate _), ← Schema.map_map] at hx
  generalize x.map id = x at hx hderives
  rw [hx, htokens, Schema.roots_map, Schema.nodes_map]
  refine ⟨⟨ts, stop, rfl, hstop, hts, ?_⟩, ?_⟩
  · have hstretch : Sentence.Stretch (ts ++ [stop]) [] (significant ts) 0 ts.length := by
      refine ⟨⟨[], by simpa using hrest⟩, fun _ _ _ ↦ Nat.zero_le _, fun j hj _ ↦ ?_, ?_⟩
      · rw [← Sentence.length_rest, hrest] at hj
        simpa using hj
      · intro k t hk ht
        rw [List.getElem?_append_left hk] at ht
        exact hts t (List.mem_of_getElem? ht)
    exact hstretch.covered hderives.statements
  · rw [List.forall_mem_map]
    intro n hn statements hbody
    rw [Node.body?_map, Option.map_eq_some_iff] at hbody
    obtain ⟨ns, hns, rfl⟩ := hbody
    obtain ⟨u, v, w, huvw, hv⟩ := hderives.nodesOccur n hn
    rw [Nat.zero_add] at hv
    rw [huvw] at hrest hgenuine
    have hg : ∀ s ∈ v, s.Genuine :=
      fun s hs ↦ hgenuine s (List.mem_append_left _ (List.mem_append_right _ hs))
    rcases hv.braced (by simp [hns]) with hbraced | ⟨⟨r, rfl⟩, hloc, hunbraced, t, semi, rfl, hsemi⟩
    · obtain ⟨ns', hns', opening, hat⟩ := Sentence.bodyAt_of_braced hrest hg hbraced
      obtain rfl := Option.some.inj (hns.symm.trans hns')
      exact .inl ⟨opening, hat⟩
    · exact .inr ⟨⟨_, rfl⟩, Sentence.bodiless_of_unbraced hrest hg hloc hunbraced hsemi⟩

/-- Semicolons between statements, an enum whose statements are of three sorts, and calls with and
without a body. -/
theorem Document.tokens_covered_sorted :
    ∃ text d, text = "; enum E { A = 0; reserved 1; ; option o = /* c */ x; B = 2; } " ++
        "service S { rpc F(stream A) returns (B); rpc G(A) returns (B) {;} };" ∧
      parse text {} = .ok d ∧
      (∃ ts stop, d.tokens = ts ++ [stop] ∧ stop.kind = .eof ∧ (∀ t ∈ ts, t.kind ≠ .eof) ∧
        Covered d.tokens 0 ts.length d.schema.roots) ∧
      ∀ n ∈ d.schema.nodes, ∀ statements, n.body? = some statements →
        (∃ opening, n.BodyAt d.tokens opening statements) ∨
          (∃ r, n = .rpc r) ∧ n.Bodiless d.tokens := by
  obtain ⟨d, h⟩ := exists_ok_of_isOk (x := parse
    ("; enum E { A = 0; reserved 1; ; option o = /* c */ x; B = 2; } " ++
      "service S { rpc F(stream A) returns (B); rpc G(A) returns (B) {;} };") {})
    (by decide +kernel)
  exact ⟨_, d, rfl, h, Document.tokens_covered h⟩

end ProtoSchema
