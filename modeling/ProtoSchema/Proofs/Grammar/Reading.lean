import ProtoSchema.Proofs.Grammar.Phrase

/-!
# What rules read

A rule that succeeds has taken some symbols from the front of the sequence, and what it has made of
them tells which.  `Reader.ReadsWhole` states this: the symbols are a phrase of what was made.

At the end of the sequence stands one more symbol.  It cannot be taken, and yet the rules for
numbers look at it as at any other and would use its value if it had one; then nothing that could
close the statement is left to come.  So for a rule that can stop inside a statement there is
`Reader.Reads`, which speaks of a phrase only if the sequence goes on behind it.

## What is here

* `Reader` — a configuration, what the bodies of blocks come to, and the end.  Lemmas about the
  rules of a body are stated for any reader, and used for that of a whole file by induction on the
  depth.
* `Reader.Reads`, `Reader.ReadsWhole`, `Reader.ReadsBehind` — what a rule makes is a phrase.  The
  last is about the rules that go on behind a first symbol, as all those for statements do.
* `Reader.bind_eq_ok_iff` and the lemmas around it — a rule that has succeeded, taken apart step by
  step.
* `Reader.take_ok` to `Reader.takeWord_ok` — single symbols.
* `Reader.many_ok`, `Reader.many_behind`, `Reader.separated_reads` — repetition.
* `Phrase.Item`, `Reader.statements_reads`, `Reader.block_reads` — statements and blocks.

The rules of the grammar are in the directory `Soundness`.
-/

set_option autoImplicit false

namespace ProtoSchema

open Rule Phrase

/-- What the meaning of rules depends on: the configuration, the meaning of the bodies of blocks,
and the symbol behind all others, which is an end. -/
structure Reader where
  config : Config
  nested : Body → Cursor → Outcome (List (Member Extent))
  stop : Symbol
  stop_kind : stop.kind = .eof

namespace Reader

variable {α β : Type} (r : Reader)

/-- Runs a rule on the symbols `rest`, the first of which has the number `i`. -/
abbrev run (rule : Rule α) (i : Nat) (rest : List Symbol) : Outcome α :=
  rule.run r.config r.nested ⟨i, rest, r.stop⟩

/-- What the rule makes is a phrase, if anything comes behind it. -/
def Reads (rule : Rule α) (p : Phrase α) : Prop :=
  ∀ ⦃i rest x c'⦄, r.run rule i rest = .ok (x, c') →
    ∃ s rest', rest = s ++ rest' ∧ c' = ⟨i + s.length, rest', r.stop⟩ ∧ (rest' ≠ [] → p i x s)

/-- What the rule makes is a phrase. -/
def ReadsWhole (rule : Rule α) (p : Phrase α) : Prop :=
  ∀ ⦃i rest x c'⦄, r.run rule i rest = .ok (x, c') →
    ∃ s rest', rest = s ++ rest' ∧ c' = ⟨i + s.length, rest', r.stop⟩ ∧ p i x s

/-- What the rule makes behind a first symbol is a phrase together with that symbol. -/
def ReadsBehind (test : Symbol → Prop) (rule : Entry → Rule α) (p : Phrase α) : Prop :=
  ∀ ⦃i first rest x c'⦄, test first → r.run (rule ⟨i, first⟩) (i + 1) rest = .ok (x, c') →
    ∃ s rest', rest = s ++ rest' ∧ c' = ⟨i + 1 + s.length, rest', r.stop⟩ ∧ p i x (first :: s)

variable {r}

/-- What reads a phrase anyway reads one if something comes behind it. -/
theorem ReadsWhole.reads {rule : Rule α} {p : Phrase α} (h : r.ReadsWhole rule p) :
    r.Reads rule p := by
  intro i rest x c' hrun
  obtain ⟨s, rest', rfl, rfl, hp⟩ := h hrun
  exact ⟨s, rest', rfl, rfl, fun _ ↦ hp⟩

/-! ## One step after another -/

/-- Two steps succeed if one does after the other. -/
theorem bind_eq_ok_iff {first : Rule α} {next : α → Rule β} {c c'' : Cursor} {y : β} :
    (first >>= next).run r.config r.nested c = .ok (y, c'') ↔
      ∃ x c', first.run r.config r.nested c = .ok (x, c') ∧
        (next x).run r.config r.nested c' = .ok (y, c'') := by
  simp [Outcome.bind_eq_ok_iff]

theorem pure_eq_ok_iff {a x : α} {c c' : Cursor} :
    (pure a : Rule α).run r.config r.nested c = .ok (x, c') ↔ a = x ∧ c = c' := by
  simp

theorem current_eq_ok_iff {x : Entry} {c c' : Cursor} :
    current.run r.config r.nested c = .ok (x, c') ↔ c.current = x ∧ c = c' := by
  simp

theorem extentFrom_eq_ok_iff {first : Entry} {x : Extent} {c c' : Cursor} :
    (extentFrom first).run r.config r.nested c = .ok (x, c') ↔
      ⟨first.index, c.index⟩ = x ∧ c = c' := by
  simp [extentFrom, Cursor.current]

/-- A rule whose result is made part of a larger tree. -/
theorem ReadsBehind.returning {test : Symbol → Prop} {rule : Entry → Rule α} {p : Phrase α}
    {q : Phrase β} {f : α → β} (h : r.ReadsBehind test rule p)
    (hpq : ∀ ⦃i x s⦄, p i x s → q i (f x) s) :
    r.ReadsBehind test (fun e ↦ do let x ← rule e; return f x) q := by
  intro i first rest y c' htest hrun
  obtain ⟨x, c₁, hx, hpure⟩ := bind_eq_ok_iff.mp hrun
  obtain ⟨rfl, rfl⟩ := pure_eq_ok_iff.mp hpure
  obtain ⟨s, rest, rfl, rfl, hs⟩ := h htest hx
  exact ⟨s, rest, rfl, rfl, hpq hs⟩

/-- The same where the second symbol is to be seen, which is the current one behind the first. -/
theorem ReadsBehind.returning_ok {test : Symbol → Prop} {rule : Entry → Rule α} {p : Phrase α}
    {f : α → β} (h : r.ReadsBehind test rule p)
    (hp : ∀ ⦃i x s⦄, p i x s → ∃ first next t, s = first :: next :: t) {i : Nat} {first : Symbol}
    {rest : List Symbol} {y : β} {c' : Cursor} (htest : test first)
    (hrun : r.run (do let x ← rule ⟨i, first⟩; return f x) (i + 1) rest = .ok (y, c')) :
    ∃ x next s rest', y = f x ∧ rest = next :: s ++ rest' ∧
      c' = ⟨i + 1 + (next :: s).length, rest', r.stop⟩ ∧ p i x (first :: next :: s) := by
  obtain ⟨x, c₁, hx, hpure⟩ := bind_eq_ok_iff.mp hrun
  obtain ⟨rfl, rfl⟩ := pure_eq_ok_iff.mp hpure
  obtain ⟨s, rest, rfl, rfl, hs⟩ := h htest hx
  obtain ⟨_, next, t, hst⟩ := hp hs
  obtain ⟨rfl, rfl⟩ := List.cons.inj hst
  exact ⟨x, next, t, rest, rfl, rfl, rfl, hs⟩

/-- A current symbol that is no end is the first of those left. -/
theorem exists_cons_of_headD {rest : List Symbol}
    (h : (rest.headD r.stop).kind ≠ .eof) : ∃ s rest', rest = s :: rest' := by
  cases rest with
  | nil => exact absurd r.stop_kind h
  | cons s rest => exact ⟨s, rest, rfl⟩

theorem headD_append_of_mem_head? {first : Symbol} {s : List Symbol} (h : first ∈ s.head?)
    (rest : List Symbol) (stop : Symbol) : (s ++ rest).headD stop = first := by
  cases s with
  | nil => cases h
  | cons _ _ => exact Option.some.inj h

/-! ## Single symbols -/

variable {i : Nat} {rest : List Symbol} {c' : Cursor}

/-- If a rule takes the current symbol, it is the first of those left or the end. -/
theorem take_ok {e : Entry} (h : r.run take i rest = .ok (e, c'))
    (hk : (rest.headD r.stop).kind ≠ .eof) :
    ∃ s rest', rest = s :: rest' ∧ e = ⟨i, s⟩ ∧ c' = ⟨i + 1, rest', r.stop⟩ := by
  obtain ⟨s, rest', rfl⟩ := exists_cons_of_headD hk
  cases h
  exact ⟨s, rest', rfl, rfl, rfl⟩

/-- Whatever the current symbol is, if it is taken and something comes behind it, it is the first of
those left. -/
theorem take_reads : r.Reads take fun i e s ↦ e.index = i ∧ s = [e.symbol] := by
  intro i rest e c' h
  cases rest with
  | nil =>
    cases h
    exact ⟨[], [], rfl, rfl, fun hl ↦ absurd rfl hl⟩
  | cons s rest =>
    cases h
    exact ⟨[s], rest, rfl, rfl, fun _ ↦ ⟨rfl, rfl⟩⟩

/-- A symbol of the expected kind is the first of those left. -/
theorem expect_ok {kind : Kind} {e : Entry} (h : r.run (expect kind) i rest = .ok (e, c'))
    (hk : kind ≠ .eof) :
    ∃ s rest', rest = s :: rest' ∧ e = ⟨i, s⟩ ∧ c' = ⟨i + 1, rest', r.stop⟩ ∧ s.kind = kind := by
  simp only [run, expect, bind_eq_ok_iff, current_eq_ok_iff] at h
  obtain ⟨_, _, ⟨rfl, rfl⟩, h⟩ := h
  split at h
  · rename_i his
    have hkind : (rest.headD r.stop).kind = kind := Symbol.is_iff.mp his
    obtain ⟨s, rest', rfl, rfl, rfl⟩ := take_ok h (hkind ▸ hk)
    exact ⟨s, rest', rfl, rfl, rfl, hkind⟩
  · cases h

/-- So is an expected word. -/
theorem expectWord_ok {word : String} {e : Entry}
    (h : r.run (expectWord word) i rest = .ok (e, c')) :
    ∃ s rest', rest = s :: rest' ∧ e = ⟨i, s⟩ ∧ c' = ⟨i + 1, rest', r.stop⟩ ∧ s.isWord word := by
  simp only [run, expectWord, bind_eq_ok_iff, current_eq_ok_iff] at h
  obtain ⟨_, _, ⟨rfl, rfl⟩, h⟩ := h
  split at h
  · rename_i his
    have hkind : (rest.headD r.stop).kind = .identifier := Symbol.kind_of_isWord his
    obtain ⟨s, rest', rfl, rfl, rfl⟩ := take_ok h (hkind ▸ nofun)
    exact ⟨s, rest', rfl, rfl, rfl, his⟩
  · cases h

/-- A symbol that is taken if it passes a test, which no end does. -/
theorem takeIf_ok {test : Symbol → Bool} {x : Option Entry} (htest : ∀ s, test s → s.kind ≠ .eof)
    (h : r.run (takeIf test) i rest = .ok (x, c')) :
    (x = none ∧ c' = ⟨i, rest, r.stop⟩ ∧ ¬test (rest.headD r.stop)) ∨
      ∃ s rest', rest = s :: rest' ∧ x = some ⟨i, s⟩ ∧ c' = ⟨i + 1, rest', r.stop⟩ ∧ test s := by
  simp only [run, takeIf, bind_eq_ok_iff, current_eq_ok_iff] at h
  obtain ⟨_, _, ⟨rfl, rfl⟩, h⟩ := h
  split at h
  · rename_i hpass
    obtain ⟨e, c₁, htake, h⟩ := bind_eq_ok_iff.mp h
    obtain ⟨s, rest', rfl, rfl, rfl⟩ := take_ok htake (htest _ hpass)
    obtain ⟨rfl, rfl⟩ := pure_eq_ok_iff.mp h
    exact .inr ⟨s, rest', rfl, rfl, rfl, hpass⟩
  · rename_i hpass
    obtain ⟨rfl, rfl⟩ := pure_eq_ok_iff.mp h
    exact .inl ⟨rfl, rfl, hpass⟩

/-- A symbol of a kind, if there is one. -/
theorem takeKind_ok {kind : Kind} {x : Option Entry}
    (h : r.run (takeIf (·.is kind)) i rest = .ok (x, c')) (hk : kind ≠ .eof) :
    (x = none ∧ c' = ⟨i, rest, r.stop⟩ ∧ (rest.headD r.stop).kind ≠ kind) ∨
      ∃ s rest', rest = s :: rest' ∧ x = some ⟨i, s⟩ ∧ c' = ⟨i + 1, rest', r.stop⟩ ∧
        s.kind = kind := by
  rcases takeIf_ok (fun s hs ↦ (Symbol.is_iff.mp hs).symm ▸ hk) h with
    ⟨hx, hc, hne⟩ | ⟨s, rest', hrest, hx, hc, hs⟩
  · exact .inl ⟨hx, hc, fun hk ↦ hne (Symbol.is_iff.mpr hk)⟩
  · exact .inr ⟨s, rest', hrest, hx, hc, Symbol.is_iff.mp hs⟩

/-- A word, if it is there. -/
theorem takeWord_ok {word : String} {x : Option Entry}
    (h : r.run (takeIf (·.isWord word)) i rest = .ok (x, c')) :
    (x = none ∧ c' = ⟨i, rest, r.stop⟩ ∧ ¬(rest.headD r.stop).isWord word) ∨
      ∃ s rest', rest = s :: rest' ∧ x = some ⟨i, s⟩ ∧ c' = ⟨i + 1, rest', r.stop⟩ ∧
        s.isWord word :=
  takeIf_ok (fun _ hs ↦ Symbol.kind_of_isWord hs ▸ nofun) h

/-! ## Repetition -/

/-- Repetition makes a row of what the items make.  `Live` is what the symbols behind an item must
be like for the item to be a phrase; they stay like that with more symbols in front. -/
theorem many_ok {test : Symbol → Bool} {item : Entry → Rule α} {p : Phrase α}
    {Live : List Symbol → Prop} (hlive : ∀ s t, Live t → Live (s ++ t))
    (hitem : ∀ ⦃i first rest x c'⦄, test first →
      r.run (item ⟨i, first⟩) (i + 1) rest = .ok (x, c') →
        ∃ s rest', rest = s ++ rest' ∧ c' = ⟨i + 1 + s.length, rest', r.stop⟩ ∧
          (Live rest' → p i x (first :: s)))
    {xs : List α} (h : r.run (many test item) i rest = .ok (xs, c')) :
    ∃ s rest', rest = s ++ rest' ∧ c' = ⟨i + s.length, rest', r.stop⟩ ∧
      (Live rest' → Many p i xs s) := by
  simp only [run, Rule.run] at h
  generalize rest.length = fuel at h
  induction fuel generalizing i rest xs with
  | zero =>
    cases h
    exact ⟨[], rest, rfl, rfl, fun _ ↦ .nil⟩
  | succ fuel ih =>
    rw [Cursor.repeatWhile] at h
    split at h
    · rename_i hgo
      cases rest with
      | nil => simp at hgo
      | cons first rest =>
        have htest : test first := by simpa [Cursor.current] using hgo
        obtain ⟨⟨x, c₁⟩, hx, h⟩ := Outcome.bind_eq_ok_iff.mp h
        obtain ⟨s, rest, rfl, rfl, hp⟩ := hitem htest hx
        cases hxs : Cursor.repeatWhile test
            (fun e c ↦ (item e).run r.config r.nested c) fuel ⟨i + 1 + s.length, rest, r.stop⟩ with
        | error e => simp only [hxs] at h; cases h
        | ok y =>
          obtain ⟨ys, c₂⟩ := y
          simp only [hxs] at h
          cases h
          obtain ⟨t, rest, rfl, rfl, hps⟩ := ih hxs
          refine ⟨first :: s ++ t, rest, by simp, by simp; omega, fun hl ↦ ?_⟩
          refine .cons (hp (hlive t rest hl)) ?_
          have hlen : i + 1 + s.length = i + (first :: s).length := by simp; omega
          exact hlen ▸ hps hl
    · cases h
      exact ⟨[], rest, rfl, rfl, fun _ ↦ .nil⟩

/-- A row of items with a mark in front of each. -/
theorem many_behind {kind : Kind} {item : Rule α} {p : Phrase α} (hitem : r.Reads item p)
    {xs : List α} (h : r.run (many (·.is kind) fun _ => item) i rest = .ok (xs, c')) :
    ∃ s rest', rest = s ++ rest' ∧ c' = ⟨i + s.length, rest', r.stop⟩ ∧
      (rest' ≠ [] → Many (Behind kind p) i xs s) := by
  refine many_ok (fun s t ht ↦ by simp [ht]) ?_ h
  intro i first rest x c' hfirst hx
  obtain ⟨s, rest', rfl, rfl, hp⟩ := hitem hx
  exact ⟨s, rest', rfl, rfl, fun hl ↦ .mk (Symbol.is_iff.mp hfirst) (hp hl)⟩

/-- Phrases with commas between them. -/
theorem separated_reads {item : Rule α} {p : Phrase α} (hitem : r.Reads item p) :
    r.Reads (separated item) (Separated p) := by
  intro i rest xs c' h
  simp only [run, separated, bind_eq_ok_iff, pure_eq_ok_iff] at h
  obtain ⟨x, c₁, hx, ys, c₂, hys, rfl, rfl⟩ := h
  obtain ⟨s, rest, rfl, rfl, hp⟩ := hitem hx
  obtain ⟨t, rest, rfl, rfl, hps⟩ := many_behind hitem hys
  refine ⟨s ++ t, rest, by simp, by simp; omega, fun hl ↦ .mk (hp (by simp [hl])) (hps hl)⟩

/-! ## Bodies -/

/-- A statement, or a semicolon of which nothing is kept. -/
inductive Item (p : Phrase α) : Phrase (Option α)
  | empty {i : Nat} {s : Symbol} (hs : s.kind = .semicolon) : Item p i none [s]
  | some {i : Nat} {x : α} {s : List Symbol} (hx : p i x s) : Item p i (some x) s

/-- Statements are a row of items, of which the semicolons are dropped. -/
theorem statements_of_many {p : Phrase α} {xs : List (Option α)} {s : List Symbol}
    (h : Many (Item p) i xs s) : Statements p i (xs.filterMap id) s := by
  induction h with
  | nil => exact .nil
  | cons hx _ ih =>
    cases hx with
    | empty hs => exact .empty hs ih
    | some hx => exact .cons hx ih

/-- The statements of a body. -/
theorem statements_reads {starts : Symbol → Bool} {statement : Entry → Rule α} {p : Phrase α}
    (h : r.ReadsBehind (fun s ↦ starts s) statement p) :
    r.ReadsWhole (statements starts statement) (Statements p) := by
  intro i rest xs c' hrun
  simp only [run, statements, bind_eq_ok_iff, pure_eq_ok_iff] at hrun
  obtain ⟨ys, c₁, hmany, rfl, rfl⟩ := hrun
  obtain ⟨s, rest, rfl, rfl, hys⟩ : ∃ s rest', rest = s ++ rest' ∧
      c₁ = ⟨i + s.length, rest', r.stop⟩ ∧ (True → Many (Item p) i ys s) := by
    refine many_ok (fun _ _ _ ↦ trivial) ?_ hmany
    intro i first rest x? c' hfirst hx
    split at hx
    · rename_i hsemi
      obtain ⟨rfl, rfl⟩ := pure_eq_ok_iff.mp hx
      exact ⟨[], rest, rfl, rfl, fun _ ↦ .empty (Symbol.is_iff.mp hsemi)⟩
    · rename_i hsemi
      obtain ⟨x, c₁, hstatement, hpure⟩ := bind_eq_ok_iff.mp hx
      obtain ⟨rfl, rfl⟩ := pure_eq_ok_iff.mp hpure
      obtain ⟨s, rest, rfl, rfl, hp⟩ := h (by simpa [hsemi] using hfirst) hstatement
      exact ⟨s, rest, rfl, rfl, fun _ ↦ .some hp⟩
  exact ⟨s, rest, rfl, rfl, statements_of_many (hys trivial)⟩

/-- Statements between braces. -/
theorem block_reads {starts : Symbol → Bool} {expected : Expected} {statement : Entry → Rule α}
    {p : Phrase α} (h : r.ReadsBehind (fun s ↦ starts s) statement p) :
    r.ReadsWhole (block starts expected statement) (Block p) := by
  intro i rest xs c' hrun
  simp only [run, block, bind_eq_ok_iff, current_eq_ok_iff] at hrun
  obtain ⟨_, c₁, el, all, c₂, eall, _, _, ⟨rfl, rfl⟩, hrun⟩ := hrun
  obtain ⟨l, rest, rfl, rfl, rfl, hl⟩ := expect_ok el nofun
  obtain ⟨s, rest, rfl, rfl, hs⟩ := statements_reads h eall
  split at hrun
  · rename_i hr
    obtain ⟨_, c₄, htake, hpure⟩ := bind_eq_ok_iff.mp hrun
    obtain ⟨rfl, rfl⟩ := pure_eq_ok_iff.mp hpure
    have hkind : (rest.headD r.stop).kind = .rightBrace := Symbol.is_iff.mp hr
    obtain ⟨right, rest, rfl, rfl, rfl⟩ := take_ok htake (hkind ▸ nofun)
    exact ⟨l :: (s ++ [right]), rest, by simp, by simp; omega, .mk hl hs hkind⟩
  · cases hrun

end Reader

end ProtoSchema
