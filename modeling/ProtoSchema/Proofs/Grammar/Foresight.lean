import ProtoSchema.Proofs.Grammar.Coverage
import ProtoSchema.Proofs.Grammar.Legible
import ProtoSchema.Proofs.Grammar.Progress

/-!
# No reading sees ahead

Two sequences begin with the same `k` symbols and go on in any way.  A rule reads both alike as long
as it is in front of symbol `k`; once it is there or behind, nothing can be said but that it stays
there.  So an unexpected symbol in front of symbol `k` is the same for both.

A rule looks at no symbol that is not the current one, which is why nothing has to be said about the
symbols that decide how to go on: they are looked at where they stand, and a decision between rules
that is made at symbol `k` is one that is made too late to matter.

## What is here

* `Outcome.Late` — a reading that has come as far as symbol `k`, whatever it comes to.
* `Agrees` — how two sequences are read: both come to the same, in front of symbol `k`, or both come
  to symbol `k`.  It is closed under binding and mapping.
* `Rule.agrees_late`, `Rule.many_agrees`, `Rule.run_agrees` — the induction on the rule.  Loops are
  the only case with work in it, since the number of turns that are allowed differs between
  sequences.
* `Grammar.readBody_agrees`, `Grammar.read_agrees` — the grammar, by induction on the depth.
* `Grammar.read_of_take_eq` — an unexpected symbol is settled by what is in front of it and itself.
* `eq_or_le_of_take_eq`, `Sentence.cursor_eq_or_take_eq` — buffers that begin alike, comments left
  out, have sentences that begin alike.
* `Document.ofTokens_settled` — the theorem about buffers, with the place of the error.
-/

set_option autoImplicit false

namespace ProtoSchema

open Grammar

/-- An outcome of a reading that has come as far as symbol `k`. -/
inductive Outcome.Late {α : Type} (k : Nat) : Outcome α → Prop
  | read {a : α} {c : Cursor} (h : k ≤ c.index) : Late k (.ok (a, c))
  | unexpected {i : Nat} {expected : Expected} {found : Kind} {lexeme : String} (h : k ≤ i) :
    Late k (.error ⟨i, .unexpected expected found lexeme⟩)
  | violation {i : Nat} {v : Violation} : Late k (.error ⟨i, .violation v⟩)

/-- A reading that goes on from symbol `k` has come as far. -/
theorem Outcome.Onward.late {α : Type} {c : Cursor} {x : Outcome α} {k : Nat} (h : x.Onward c)
    (hk : k ≤ c.index) : x.Late k := by
  cases h with
  | read h => exact .read (Nat.le_trans hk h.index_le)
  | unexpected hle => exact .unexpected (Nat.le_trans hk hle)
  | violation => exact .violation

/-- How one sequence is read and how another is that begins with the same `k` symbols.  Behind
symbol `k` stand the symbols `u` of the one and `u'` of the other. -/
inductive Agrees (k : Nat) (u u' : List Symbol) (stop stop' : Symbol) {α : Type} :
    Outcome α → Outcome α → Prop
  | read {a : α} {i : Nat} {p : List Symbol} (h : i + p.length = k) :
    Agrees k u u' stop stop' (.ok (a, ⟨i, p ++ u, stop⟩)) (.ok (a, ⟨i, p ++ u', stop'⟩))
  | fails {e : Failure} : Agrees k u u' stop stop' (.error e) (.error e)
  | late {x x' : Outcome α} (h : x.Late k) (h' : x'.Late k) : Agrees k u u' stop stop' x x'

namespace Agrees

variable {k : Nat} {u u' : List Symbol} {stop stop' : Symbol} {α β : Type} {x x' : Outcome α}

/-- Agreement is kept when reading goes on. -/
theorem bind {next next' : α × Cursor → Outcome β} (h : Agrees k u u' stop stop' x x')
    (hnext : ∀ a i p, i + p.length = k → x = .ok (a, ⟨i, p ++ u, stop⟩) →
      Agrees k u u' stop stop' (next (a, ⟨i, p ++ u, stop⟩)) (next' (a, ⟨i, p ++ u', stop'⟩)))
    (honward : ∀ a c, (next (a, c)).Onward c) (honward' : ∀ a c, (next' (a, c)).Onward c) :
    Agrees k u u' stop stop' (Except.bind x next) (Except.bind x' next') := by
  have hlate : ∀ {next : α × Cursor → Outcome β} {x : Outcome α},
      (∀ a c, (next (a, c)).Onward c) → x.Late k → Outcome.Late k (Except.bind x next) := by
    intro next x honward hx
    cases hx with
    | read hk => exact (honward _ _).late hk
    | unexpected hk => exact .unexpected hk
    | violation => exact .violation
  cases h with
  | read h => exact hnext _ _ _ h rfl
  | fails => exact .fails
  | late h h' => exact .late (hlate honward h) (hlate honward' h')

theorem map (f : α → β) (h : Agrees k u u' stop stop' x x') :
    Agrees k u u' stop stop' (Except.map (fun y : α × Cursor ↦ (f y.1, y.2)) x)
      (Except.map (fun y : α × Cursor ↦ (f y.1, y.2)) x') := by
  have hlate : ∀ {x : Outcome α}, x.Late k →
      Outcome.Late k (Except.map (fun y : α × Cursor ↦ (f y.1, y.2)) x) := by
    intro x hx
    cases hx with
    | read hk => exact .read hk
    | unexpected hk => exact .unexpected hk
    | violation => exact .violation
  cases h with
  | read h => exact .read h
  | fails => exact .fails
  | late h h' => exact .late (hlate h) (hlate h')

/-- A symbol that is unexpected in front of symbol `k` is unexpected for both. -/
theorem eq_error {e : Failure} {expected : Expected} {found : Kind} {lexeme : String}
    (h : Agrees k u u' stop stop' (.error e) x')
    (hfault : e.fault = .unexpected expected found lexeme)
    (hk : e.index < k) : x' = .error e := by
  obtain ⟨i, fault⟩ := e
  obtain rfl : fault = _ := hfault
  cases h with
  | fails => rfl
  | late h =>
    cases h with
    | unexpected hle => exact absurd hk (Nat.not_lt.mpr hle)

end Agrees

/-! ## Rules -/

section

variable {config : Config} {nested : Body → Cursor → Outcome (List (Member Extent))} {k : Nat}
  {u u' : List Symbol} {stop stop' : Symbol} {α : Type}
  (honward : ∀ b c, (nested b c).Onward c)

include honward

/-- At symbol `k` it is too late for a rule to say anything about what stands in front of it. -/
theorem Rule.agrees_late (rule : Rule α) {i : Nat} (hi : i = k) :
    Agrees k u u' stop stop' (rule.run config nested ⟨i, u, stop⟩)
      (rule.run config nested ⟨i, u', stop'⟩) :=
  .late ((run_onward config honward rule _).late hi.ge)
    ((run_onward config honward rule _).late hi.ge)

/-- **Loops read alike** in front of symbol `k` if their items do. -/
theorem Rule.many_agrees {test : Symbol → Bool} {item : Entry → Rule α}
    (hitem : ∀ e i p, i + p.length = k →
      Agrees k u u' stop stop' ((item e).run config nested ⟨i, p ++ u, stop⟩)
        ((item e).run config nested ⟨i, p ++ u', stop'⟩))
    {i : Nat} {p : List Symbol} (hp : i + p.length = k) :
    Agrees k u u' stop stop' ((many test item).run config nested ⟨i, p ++ u, stop⟩)
      ((many test item).run config nested ⟨i, p ++ u', stop'⟩) := by
  induction hlen : p.length using Nat.strong_induction_on generalizing i p with
  | _ n ih =>
    subst hlen
    cases p with
    | nil => exact agrees_late honward _ hp
    | cons s p =>
      rw [run_many config honward, run_many config honward]
      by_cases htest : test s
      · rw [if_pos (by simpa [Cursor.current] using htest),
          if_pos (by simpa [Cursor.current] using htest)]
        have hnext : i + 1 + p.length = k := by
          rw [← hp, List.length_cons]
          omega
        have honward' : ∀ a c, Outcome.Onward c
            (((many test item).run config nested c).map fun y ↦ (a :: y.1, y.2)) :=
          fun a c ↦ (run_onward config honward (many test item) c).map
        refine (hitem _ (i + 1) p hnext).bind (fun a j q hq hread ↦ ?_) honward' honward'
        have hle : i + 1 ≤ j := by
          have hitem := run_onward config honward (item ⟨i, s⟩) ⟨i + 1, p ++ u, stop⟩
          exact (hread ▸ hitem).cursor.index_le
        have hlt : q.length < (s :: p).length := by
          rw [List.length_cons]
          omega
        exact (ih _ hlt hq rfl).map (List.cons a)
      · rw [if_neg (by simpa [Cursor.current] using htest),
          if_neg (by simpa [Cursor.current] using htest)]
        exact .read hp

/-- **A rule reads alike** in front of symbol `k` if the bodies of blocks do. -/
theorem Rule.run_agrees
    (hnested : ∀ b i p, i + p.length = k →
      Agrees k u u' stop stop' (nested b ⟨i, p ++ u, stop⟩) (nested b ⟨i, p ++ u', stop'⟩))
    (rule : Rule α) {i : Nat} {p : List Symbol} (hp : i + p.length = k) :
    Agrees k u u' stop stop' (rule.run config nested ⟨i, p ++ u, stop⟩)
      (rule.run config nested ⟨i, p ++ u', stop'⟩) := by
  induction rule generalizing i p with
  | result => exact .read hp
  | andThen first next ihfirst ihnext =>
    exact (ihfirst hp).bind (fun a i p hp _ ↦ ihnext a hp)
      (fun a ↦ run_onward config honward (next a)) fun a ↦ run_onward config honward (next a)
  | current =>
    cases p with
    | nil => exact agrees_late honward _ hp
    | cons s p => exact .read hp
  | take =>
    cases p with
    | nil => exact agrees_late honward _ hp
    | cons s p =>
      have hnext : i + 1 + p.length = k := by
        rw [← hp, List.length_cons]
        omega
      exact .read hnext
  | reject =>
    cases p with
    | nil => exact agrees_late honward _ hp
    | cons s p => exact .fails
  | violate => exact .fails
  | demand =>
    rw [run, run]
    split
    · exact .read hp
    · exact .fails
  | many test item ih => exact many_agrees honward (fun e i p hp ↦ ih e hp) hp
  | nested b => exact hnested b i p hp

end

namespace Grammar

variable (config : Config) {k : Nat} {u u' : List Symbol} {stop stop' : Symbol} {i : Nat}
  {p : List Symbol}

/-- The bodies of blocks are read alike, by induction on how deep they are. -/
theorem readBody_agrees (depth : Nat) (b : Body) (hp : i + p.length = k) :
    Agrees k u u' stop stop' (readBody config depth b ⟨i, p ++ u, stop⟩)
      (readBody config depth b ⟨i, p ++ u', stop'⟩) := by
  induction depth generalizing b i p with
  | zero => exact .fails
  | succ depth ih =>
    exact Rule.run_agrees (readBody_onward config depth) (fun b i p hp ↦ ih b hp) (body b) hp

theorem read_agrees {α : Type} (rule : Rule α) (hp : i + p.length = k) :
    Agrees k u u' stop stop' (read config rule ⟨i, p ++ u, stop⟩)
      (read config rule ⟨i, p ++ u', stop'⟩) :=
  Rule.run_agrees (readBody_onward config config.maxDepth)
    (fun b _ _ hp ↦ readBody_agrees config config.maxDepth b hp) rule hp

/-- A symbol that is unexpected in one sequence is unexpected in all that are the same so far. -/
theorem read_of_take_eq {config : Config} {α : Type} {rule : Rule α} {rest rest' : List Symbol}
    {expected : Expected} {found : Kind} {lexeme : String}
    (h : read config rule ⟨0, rest, stop⟩ = .error ⟨k, .unexpected expected found lexeme⟩)
    (hk : k < rest.length) (htake : rest'.take (k + 1) = rest.take (k + 1)) :
    read config rule ⟨0, rest', stop'⟩ = .error ⟨k, .unexpected expected found lexeme⟩ := by
  have hp : 0 + (rest.take (k + 1)).length = k + 1 := by
    rw [List.length_take, Nat.min_eq_left hk, Nat.zero_add]
  have hagrees : Agrees (k + 1) (rest.drop (k + 1)) (rest'.drop (k + 1)) stop stop'
      (read config rule ⟨0, rest.take (k + 1) ++ rest.drop (k + 1), stop⟩)
      (read config rule ⟨0, rest.take (k + 1) ++ rest'.drop (k + 1), stop'⟩) :=
    read_agrees config rule hp
  rw [List.take_append_drop, ← htake, List.take_append_drop, h] at hagrees
  exact hagrees.eq_error rfl (Nat.lt_succ_self k)

end Grammar

/-! ## Buffers that begin alike -/

/-- Two lists of tokens with an end behind each of them begin alike: then they are the same, or it
is only in front of the ends that they do. -/
theorem eq_or_le_of_take_eq {ts ts' : List Token} {stop stop' : Token} {k : Nat}
    (hts : ∀ t ∈ ts, t.kind ≠ .eof) (hts' : ∀ t ∈ ts', t.kind ≠ .eof) (hstop : stop.kind = .eof)
    (hstop' : stop'.kind = .eof) (h : (ts' ++ [stop']).take k = (ts ++ [stop]).take k)
    (hk : k ≤ ts.length + 1) : ts' ++ [stop'] = ts ++ [stop] ∨ k ≤ ts.length ∧ k ≤ ts'.length := by
  by_cases hlt : k ≤ ts.length
  · rw [List.take_append_of_le_length hlt] at h
    refine .inr ⟨hlt, Nat.le_of_not_lt fun hlt' ↦ ?_⟩
    rw [List.take_of_length_le (i := k) (l := ts' ++ [stop']) (by simp; omega)] at h
    have hmem : stop' ∈ ts.take k := by simp [← h]
    exact hts stop' (List.mem_of_mem_take hmem) hstop'
  · rw [List.take_of_length_le (i := k) (l := ts ++ [stop]) (by simp; omega)] at h
    rcases List.prefix_concat_iff.mp (h ▸ List.take_prefix k (ts' ++ [stop'])) with heq | hle'
    · exact .inl heq.symm
    · exact absurd hstop (hts' stop (hle'.subset (by simp)))

/-- Buffers that begin with the same tokens are the same to the grammar, or their sentences begin
with the same symbols. -/
theorem Sentence.cursor_eq_or_take_eq {tokens tokens' : List Token} {k : Nat}
    (hk : k ≤ count (endedBuffer tokens) + 1)
    (h : (withoutComments (endedBuffer tokens')).take k =
      (withoutComments (endedBuffer tokens)).take k) :
    (ofBuffer (endedBuffer tokens')).cursor = (ofBuffer (endedBuffer tokens)).cursor ∨
      k ≤ count (endedBuffer tokens) ∧ k ≤ count (endedBuffer tokens') ∧
        (ofBuffer (endedBuffer tokens')).cursor.rest.take k =
          (ofBuffer (endedBuffer tokens)).cursor.rest.take k := by
  have hlegible : (legible tokens').take k = (legible tokens).take k := by
    rw [legible, legible, throughEnd_take, throughEnd_take, h]
  have hends : ∀ tokens, ∀ t ∈ (ofBuffer tokens).places.toList.map Place.token, t.kind ≠ .eof := by
    intro tokens
    rw [List.forall_mem_map]
    exact fun p hp ↦ kind_ne_eof hp (Nat.le_refl _) (getElem?_of_mem hp)
  rw [legible_eq, legible_eq] at hlegible
  rcases eq_or_le_of_take_eq (hends _) (hends _) kind_stop kind_stop hlegible
    (by simpa using hk) with
    heq | ⟨hle, hle'⟩
  · exact .inl (cursor_eq_of_legible (by rw [legible_eq, legible_eq, heq]))
  · have htake : ((ofBuffer (endedBuffer tokens')).places.toList.map Place.token).take k =
        ((ofBuffer (endedBuffer tokens)).places.toList.map Place.token).take k := by
      rwa [List.take_append_of_le_length hle', List.take_append_of_le_length hle] at hlegible
    refine .inr ⟨by simpa using hle, by simpa using hle', ?_⟩
    have hsymbols := congrArg (List.map Token.toSymbol) htake
    rw [List.map_take, List.map_map, List.map_take, List.map_map] at hsymbols
    exact hsymbols

/-- A buffer is not read if its sentence is not. -/
theorem Document.ofTokens_eq_error_iff {config : Config} {tokens : List Token} {e : SyntaxError} :
    ofTokens config tokens = .error e ↔
      ∃ f, Grammar.read config Grammar.schema (Sentence.ofBuffer (endedBuffer tokens)).cursor =
        .error f ∧ (Sentence.ofBuffer (endedBuffer tokens)).report f = e := by
  simp only [ofTokens]
  split <;> simp [*]

/-- **An error is settled by the tokens up to it.**  A token that is unexpected in a buffer, and
those in front of it, make every buffer fail that begins with them, and in the same way. -/
theorem Document.ofTokens_settled {config : Config} {tokens : List Token} {expected : Expected}
    {found : Kind} {lexeme : String} {position : Position}
    (h : ofTokens config tokens = .error ⟨.unexpected expected found lexeme, position⟩) :
    ∃ k t, Grammar.read config Grammar.schema (Sentence.ofBuffer (endedBuffer tokens)).cursor =
        .error ⟨k, .unexpected expected found lexeme⟩ ∧
      (withoutComments (endedBuffer tokens))[k]? = some t ∧ t.kind = found ∧ t.lexeme = lexeme ∧
      t.span.start.position = position ∧
      ∀ tokens', (withoutComments (endedBuffer tokens')).take (k + 1) =
          (withoutComments (endedBuffer tokens)).take (k + 1) →
        ofTokens config tokens' = .error ⟨.unexpected expected found lexeme, position⟩ := by
  obtain ⟨⟨k, fault⟩, hread, hreport⟩ := ofTokens_eq_error_iff.mp h
  obtain ⟨rfl, rfl⟩ := SyntaxError.mk.inj hreport
  obtain ⟨hk, hkind, hlexeme⟩ := Grammar.unexpected_of_read hread
  rw [Sentence.symbolAt_cursor] at hkind hlexeme
  have hcount : k ≤ Sentence.count (endedBuffer tokens) := by
    simpa [Sentence.cursor] using hk
  have htoken := Sentence.getElem?_withoutComments hcount
  refine ⟨k, _, hread, htoken, hkind, hlexeme, rfl, fun tokens' htake ↦ ?_⟩
  have hagain : k ≤ Sentence.count (endedBuffer tokens') ∧
      Grammar.read config Grammar.schema (Sentence.ofBuffer (endedBuffer tokens')).cursor =
        .error ⟨k, .unexpected expected found lexeme⟩ := by
    rcases Sentence.cursor_eq_or_take_eq (Nat.succ_le_succ hcount) htake with heq |
      ⟨hlt, hlt', hrest⟩
    · rw [← Sentence.length_rest, heq, Sentence.length_rest]
      exact ⟨hcount, hread⟩
    · exact ⟨Nat.le_of_succ_le hlt',
        Grammar.read_of_take_eq hread (Sentence.length_rest ▸ hlt) hrest⟩
  have htoken' : some ((Sentence.ofBuffer (endedBuffer tokens')).place k).token =
      some ((Sentence.ofBuffer (endedBuffer tokens)).place k).token := by
    rw [← Sentence.getElem?_withoutComments hagain.1, ← htoken,
      ← List.getElem?_take_of_lt (Nat.lt_succ_self k), htake,
      List.getElem?_take_of_lt (Nat.lt_succ_self k)]
  refine ofTokens_eq_error_iff.mpr ⟨_, hagain.2, ?_⟩
  rw [Sentence.report, Option.some.inj htoken']

/-- Behind `message M` a number fails, whatever follows it. -/
theorem Document.ofTokens_settled_message :
    ∃ tokens, scan "message M /* 0 */ 1 \x7b \x7d" = .ok tokens ∧
      ofTokens {} tokens = .error ⟨.unexpected (.kind .leftBrace) .number "1", ⟨1, 18⟩⟩ ∧
      ∃ k t, Grammar.read {} Grammar.schema (Sentence.ofBuffer (endedBuffer tokens)).cursor =
          .error ⟨k, .unexpected (.kind .leftBrace) .number "1"⟩ ∧
        (withoutComments (endedBuffer tokens))[k]? = some t ∧ t.kind = .number ∧ t.lexeme = "1" ∧
        t.span.start.position = ⟨1, 18⟩ ∧
        ∀ tokens', (withoutComments (endedBuffer tokens')).take (k + 1) =
            (withoutComments (endedBuffer tokens)).take (k + 1) →
          ofTokens {} tokens' = .error ⟨.unexpected (.kind .leftBrace) .number "1", ⟨1, 18⟩⟩ := by
  have hfails : ((scan "message M /* 0 */ 1 \x7b \x7d").toOption.map fun tokens ↦
      (ofTokens {} tokens).map fun _ ↦ ()) =
        some (.error ⟨.unexpected (.kind .leftBrace) .number "1", ⟨1, 18⟩⟩) := by decide +kernel
  obtain ⟨tokens, hscan⟩ := exists_ok_of_isOk (x := scan "message M /* 0 */ 1 \x7b \x7d")
    (by decide +kernel)
  rw [hscan] at hfails
  have herror := eq_error_of_map (Option.some.inj hfails)
  exact ⟨tokens, hscan, herror, Document.ofTokens_settled herror⟩

end ProtoSchema
