import ProtoSchema.Proofs.Grammar.Reading

/-!
# What rules accept

`Reader.ReadsWhole` says that what a rule has read is a phrase.  Here is the other direction: a rule
that stands in front of a phrase reads all of it, no more, and makes the tree that the phrase is of.

A rule that stops in front of a symbol that could go on, such as the dot behind a name, has to see
that it does not.  `Reader.Accepts` therefore has a condition on the symbol behind the phrase.  The
tree of the phrase has notes of its own, and the rule notes extents; `f` is what takes the one to
the other.

## What is here

* `Reader.Accepts`, `Reader.AcceptsBehind` — a rule reads what is a phrase.  `Reader.Anything` and
  `Reader.Other` are the conditions that occur most.
* `Reader.bind_ok`, `Reader.run_bind_of_ok` — one step after another, and
  `Reader.AcceptsBehind.returning`, a result that is made part of a larger tree.
* `Reader.run_take` to `Reader.run_takeIf_none` — single symbols.
* `Reader.many_accepts`, `Reader.separated_accepts` — repetition.  The condition on what is behind
  an item must hold of what the next item begins with, and of what is behind all of them.
* `Reader.statements_accepts`, `Reader.block_accepts` — statements and blocks.
-/

set_option autoImplicit false

namespace ProtoSchema

open Rule Phrase

namespace Reader

variable {α β : Type} (r : Reader)

/-- A phrase is read to its end and made into its tree, if `follows` holds of the symbol behind. -/
def Accepts (follows : Symbol → Prop) (rule : Rule α) (f : α → β) (p : Phrase β) : Prop :=
  ∀ ⦃i y s⦄, p i y s → ∀ rest, follows (rest.headD r.stop) →
    ∃ x, f x = y ∧ r.run rule i (s ++ rest) = .ok (x, ⟨i + s.length, rest, r.stop⟩)

/-- The same of a rule that goes on behind the first symbol of the phrase, of which `test` holds. -/
def AcceptsBehind (follows test : Symbol → Prop) (rule : Entry → Rule α) (f : α → β)
    (p : Phrase β) : Prop :=
  ∀ ⦃i y s⦄, p i y s → ∃ first t, s = first :: t ∧ test first ∧
    ∀ rest, follows (rest.headD r.stop) → ∃ x, f x = y ∧
      r.run (rule ⟨i, first⟩) (i + 1) (t ++ rest) = .ok (x, ⟨i + s.length, rest, r.stop⟩)

/-- The condition on the symbol behind a phrase that holds of every symbol. -/
abbrev Anything : Symbol → Prop := fun _ => True

/-- The condition that a symbol is not of the given kind. -/
abbrev Other (kind : Kind) : Symbol → Prop := fun s => s.kind ≠ kind

variable {r}

/-- A symbol of one kind is not of another. -/
theorem other_of_kind {s : Symbol} {kind kind' : Kind} (hs : s.kind = kind)
    (h : kind ≠ kind') : Other kind' s :=
  fun hk ↦ h (hs.symm.trans hk)

/-! ## One step after another -/

/-- One step that succeeds after another. -/
theorem bind_ok {first : Rule α} {next : α → Rule β} {c c₁ c₂ : Cursor} {x : α} {y : β}
    (hfirst : first.run r.config r.nested c = .ok (x, c₁))
    (hnext : (next x).run r.config r.nested c₁ = .ok (y, c₂)) :
    (first >>= next).run r.config r.nested c = .ok (y, c₂) :=
  bind_eq_ok_iff.mpr ⟨x, c₁, hfirst, hnext⟩

/-- What comes behind a rule that succeeds. -/
theorem run_bind_of_ok {first : Rule α} {next : α → Rule β} {c c₁ : Cursor} {x : α}
    (hfirst : first.run r.config r.nested c = .ok (x, c₁)) :
    (first >>= next).run r.config r.nested c = (next x).run r.config r.nested c₁ := by
  rw [run_bind, hfirst, Outcome.ok_bind]

/-- A phrase of which the first symbol is known. -/
theorem AcceptsBehind.of_cons {follows test : Symbol → Prop} {rule : Entry → Rule α} {f : α → β}
    {p : Phrase β} (h : r.AcceptsBehind follows test rule f p) {i : Nat} {y : β} {first : Symbol}
    {t : List Symbol} (hy : p i y (first :: t)) :
    test first ∧ ∀ rest, follows (rest.headD r.stop) → ∃ x, f x = y ∧
      r.run (rule ⟨i, first⟩) (i + 1) (t ++ rest) =
        .ok (x, ⟨i + (first :: t).length, rest, r.stop⟩) := by
  obtain ⟨_, _, hst, htest, hrun⟩ := h hy
  obtain ⟨rfl, rfl⟩ := List.cons.inj hst
  exact ⟨htest, hrun⟩

/-- A rule whose result is made part of a larger tree. -/
theorem AcceptsBehind.returning {γ δ : Type} {follows test : Symbol → Prop} {rule : Entry → Rule α}
    {f : α → β} {p : Phrase β} {g : α → γ} {k : γ → δ} {l : β → δ}
    (h : r.AcceptsBehind follows test rule f p) (hg : ∀ x, k (g x) = l (f x)) {i : Nat} {y : β}
    {first : Symbol} {t : List Symbol} (hy : p i y (first :: t)) :
    test first ∧ ∀ rest, follows (rest.headD r.stop) → ∃ x, k x = l y ∧
      r.run (do let x ← rule ⟨i, first⟩; return g x) (i + 1) (t ++ rest) =
        .ok (x, ⟨i + (first :: t).length, rest, r.stop⟩) := by
  obtain ⟨htest, hrun⟩ := h.of_cons hy
  refine ⟨htest, fun rest hrest ↦ ?_⟩
  obtain ⟨x, rfl, ex⟩ := hrun rest hrest
  exact ⟨g x, hg x, bind_ok ex rfl⟩

/-! ## Single symbols -/

variable {i : Nat} {s : Symbol} {rest : List Symbol}

@[simp]
theorem current_cons {stop : Symbol} : Cursor.current ⟨i, s :: rest, stop⟩ = ⟨i, s⟩ := rfl

/-- The first symbol is taken. -/
theorem run_take : r.run take i (s :: rest) = .ok (⟨i, s⟩, ⟨i + 1, rest, r.stop⟩) := rfl

/-- A symbol of the expected kind is taken. -/
theorem run_expect {kind : Kind} (hs : s.kind = kind) :
    r.run (expect kind) i (s :: rest) = .ok (⟨i, s⟩, ⟨i + 1, rest, r.stop⟩) := by
  refine bind_ok (run_current _) ?_
  rw [current_cons, if_pos (Symbol.is_iff.mpr hs)]
  rfl

/-- So is an expected word. -/
theorem run_expectWord {word : String} (hs : s.isWord word) :
    r.run (expectWord word) i (s :: rest) = .ok (⟨i, s⟩, ⟨i + 1, rest, r.stop⟩) := by
  refine bind_ok (run_current _) ?_
  rw [current_cons, if_pos hs]
  rfl

/-- A symbol that passes the test is taken. -/
theorem run_takeIf {test : Symbol → Bool} (hs : test s) :
    r.run (takeIf test) i (s :: rest) = .ok (some ⟨i, s⟩, ⟨i + 1, rest, r.stop⟩) := by
  refine bind_ok (run_current _) ?_
  rw [current_cons, if_pos hs]
  rfl

/-- One that does not is left. -/
theorem run_takeIf_none {test : Symbol → Bool} (hs : ¬test (rest.headD r.stop)) :
    r.run (takeIf test) i rest = .ok (none, ⟨i, rest, r.stop⟩) := by
  refine bind_ok (run_current _) ?_
  rw [Cursor.current, if_neg hs]
  rfl

/-! ## Repetition -/

/-- A row of items is read to its end, if the symbol behind it does not begin another one. -/
theorem many_accepts {follows : Symbol → Prop} {test : Symbol → Bool} {item : Entry → Rule α}
    {f : α → β} {p : Phrase β} (hitem : r.AcceptsBehind follows (fun s ↦ test s) item f p)
    (hfollows : ∀ s, test s → follows s) :
    r.Accepts (fun s ↦ ¬test s ∧ follows s) (many test item) (List.map f) (Many p) := by
  intro i ys s h rest hrest
  -- Each item has a symbol, so there are symbols enough for all of them.
  suffices hfuel : ∀ fuel, s.length ≤ fuel → ∃ xs, xs.map f = ys ∧
      Cursor.repeatWhile test (fun e c ↦ (item e).run r.config r.nested c) fuel
        ⟨i, s ++ rest, r.stop⟩ = .ok (xs, ⟨i + s.length, rest, r.stop⟩) by
    exact hfuel _ (by simp)
  induction h with
  | nil =>
    intro fuel _
    refine ⟨[], rfl, ?_⟩
    cases fuel with
    | zero => rfl
    | succ fuel =>
      rw [Cursor.repeatWhile, if_neg]
      · rfl
      · rw [Bool.and_eq_true, not_and]
        exact fun _ ↦ hrest.1
  | @cons i y ys s t hy hys ih =>
    intro fuel hfuel
    obtain ⟨first, u, rfl, htest, hrun⟩ := hitem hy
    cases fuel with
    | zero => simp at hfuel
    | succ fuel =>
      have hnext : follows ((t ++ rest).headD r.stop) := by
        cases hys with
        | nil => exact hrest.2
        | cons hz =>
          obtain ⟨next, v, rfl, hnext, -⟩ := hitem hz
          exact hfollows next hnext
      obtain ⟨x, rfl, ex⟩ := hrun _ hnext
      obtain ⟨xs, rfl, exs⟩ := ih fuel (by simp at hfuel; omega)
      refine ⟨x :: xs, rfl, ?_⟩
      rw [List.append_assoc, List.cons_append, Cursor.repeatWhile,
        if_pos (by simpa [Cursor.current] using htest)]
      have hlen : i + (first :: u ++ t).length = i + (first :: u).length + t.length := by
        simp
        omega
      rw [hlen]
      refine Outcome.bind_eq_ok_iff.mpr ⟨_, ex, ?_⟩
      simp only [exs]
      rfl

/-- An item with a mark in front of it. -/
theorem behind_accepts {follows : Symbol → Prop} {kind : Kind} {item : Rule α} {f : α → β}
    {p : Phrase β} (hitem : r.Accepts follows item f p) :
    r.AcceptsBehind follows (fun s ↦ s.is kind) (fun _ ↦ item) f (Behind kind p) := by
  rintro i _ _ ⟨hmark, hx⟩
  refine ⟨_, _, rfl, Symbol.is_iff.mpr hmark, fun rest hrest ↦ ?_⟩
  obtain ⟨x, hx, ex⟩ := hitem hx rest hrest
  refine ⟨x, hx, ex.trans ?_⟩
  rw [List.length_cons, Nat.add_assoc, Nat.add_comm 1]

/-- A row of items with a mark in front of each. -/
theorem many_behind_accepts {follows : Symbol → Prop} {kind : Kind} {item : Rule α} {f : α → β}
    {p : Phrase β} (hitem : r.Accepts follows item f p)
    (hfollows : ∀ s, s.kind = kind → follows s) :
    r.Accepts (fun s ↦ s.kind ≠ kind ∧ follows s) (many (·.is kind) fun _ => item) (List.map f)
      (Many (Behind kind p)) :=
  fun _ _ _ h rest hrest ↦
    many_accepts (behind_accepts hitem) (fun s hs ↦ hfollows s (Symbol.is_iff.mp hs)) h rest
      ⟨fun hs ↦ hrest.1 (Symbol.is_iff.mp hs), hrest.2⟩

/-- Phrases with commas between them.  Behind the last one there must be no comma. -/
theorem separated_accepts {follows : Symbol → Prop} {item : Rule α} {f : α → β} {p : Phrase β}
    (hitem : r.Accepts follows item f p) (hfollows : ∀ s, s.kind = .comma → follows s) :
    r.Accepts (fun s ↦ s.kind ≠ .comma ∧ follows s) (separated item) (List.map f)
      (Separated p) := by
  rintro i _ _ @⟨_, x, xs, s, t, hx, hxs⟩ rest hrest
  have hnext : follows ((t ++ rest).headD r.stop) := by
    cases hxs with
    | nil => exact hrest.2
    | cons hy =>
      obtain ⟨hcomma, -⟩ := hy
      exact hfollows _ hcomma
  obtain ⟨x, rfl, ex⟩ := hitem hx _ hnext
  obtain ⟨xs, rfl, exs⟩ := many_behind_accepts hitem hfollows hxs rest hrest
  refine ⟨x :: xs, rfl, ?_⟩
  rw [List.append_assoc, List.length_append, ← Nat.add_assoc]
  exact bind_ok ex (bind_ok exs rfl)

/-! ## Bodies -/

/-- Statements are a row of items. -/
theorem exists_many_of_statements {p : Phrase α} {xs : List α} {s : List Symbol}
    (h : Statements p i xs s) : ∃ ys, ys.filterMap id = xs ∧ Many (Item p) i ys s := by
  induction h with
  | nil => exact ⟨[], rfl, .nil⟩
  | empty hs _ ih =>
    obtain ⟨ys, rfl, hys⟩ := ih
    exact ⟨none :: ys, rfl, .cons (s := [_]) (.empty hs) hys⟩
  | cons hx _ ih =>
    obtain ⟨ys, rfl, hys⟩ := ih
    exact ⟨some _ :: ys, rfl, .cons (.some hx) hys⟩

theorem filterMap_id_map {f : α → β} (xs : List (Option α)) :
    (xs.map (Option.map f)).filterMap id = (xs.filterMap id).map f := by
  rw [List.filterMap_map, List.map_filterMap]
  rfl

/-- A semicolon alone, or a statement. -/
theorem item_accepts {starts : Symbol → Bool} {statement : Entry → Rule α} {f : α → β}
    {p : Phrase β} (h : r.AcceptsBehind Anything (fun s ↦ starts s) statement f p)
    (hstarts : ∀ s, starts s → s.kind ≠ .semicolon) :
    r.AcceptsBehind Anything (fun s ↦ s.is .semicolon || starts s)
      (fun first ↦ do
        if first.symbol.is .semicolon then return none
        else
          let a ← statement first
          return some a)
      (Option.map f) (Item p) := by
  rintro i _ s (hsemi | hx)
  · have hsemi := Symbol.is_iff.mpr hsemi
    refine ⟨_, [], rfl, by simp [hsemi], fun rest _ ↦ ⟨none, rfl, ?_⟩⟩
    simp only [hsemi, if_true]
    rfl
  · obtain ⟨first, t, rfl, -⟩ := h hx
    obtain ⟨hfirst, hrun⟩ :=
      h.returning (g := some) (k := Option.map f) (l := some) (fun _ ↦ rfl) hx
    refine ⟨first, t, rfl, by simp [hfirst], fun rest hrest ↦ ?_⟩
    have hsemi : first.is .semicolon = false :=
      Bool.eq_false_iff.mpr fun hsemi ↦ hstarts first hfirst (Symbol.is_iff.mp hsemi)
    simp only [hsemi, Bool.false_eq_true, if_false]
    exact hrun rest hrest

/-- The statements of a body, up to what is no statement. -/
theorem statements_accepts {starts : Symbol → Bool} {statement : Entry → Rule α} {f : α → β}
    {p : Phrase β} (h : r.AcceptsBehind Anything (fun s ↦ starts s) statement f p)
    (hstarts : ∀ s, starts s → s.kind ≠ .semicolon) :
    r.Accepts (fun s ↦ s.kind ≠ .semicolon ∧ ¬starts s) (statements starts statement) (List.map f)
      (Statements p) := by
  intro i xs s hs rest hrest
  obtain ⟨ys, rfl, hys⟩ := exists_many_of_statements hs
  have hbehind : ¬((rest.headD r.stop).is .semicolon || starts (rest.headD r.stop)) := by
    rw [Bool.or_eq_true, not_or]
    exact ⟨fun hsemi ↦ hrest.1 (Symbol.is_iff.mp hsemi), hrest.2⟩
  obtain ⟨ys, rfl, eys⟩ :=
    many_accepts (item_accepts h hstarts) (fun _ _ ↦ trivial) hys rest ⟨hbehind, trivial⟩
  exact ⟨ys.filterMap id, (filterMap_id_map ys).symm, bind_ok eys rfl⟩

/-- A block, whatever stands behind it. -/
theorem block_accepts {starts : Symbol → Bool} (expected : Expected) {statement : Entry → Rule α}
    {f : α → β} {p : Phrase β} (h : r.AcceptsBehind Anything (fun s ↦ starts s) statement f p)
    (hstarts : ∀ s, starts s → s.kind ≠ .semicolon ∧ s.kind ≠ .rightBrace) :
    r.Accepts Anything (block starts expected statement) (List.map f) (Block p) := by
  rintro i _ _ @⟨_, left, right, xs, t, hleft, hxs, hright⟩ rest -
  have hbehind : ((right :: rest).headD r.stop).kind ≠ .semicolon ∧
      ¬starts ((right :: rest).headD r.stop) :=
    ⟨other_of_kind hright nofun, fun hs ↦ (hstarts right hs).2 hright⟩
  obtain ⟨xs, rfl, exs⟩ :=
    statements_accepts h (fun s hs ↦ (hstarts s hs).1) hxs (right :: rest) hbehind
  refine ⟨xs, rfl, ?_⟩
  have hlen : i + (left :: (t ++ [right])).length = i + 1 + t.length + 1 := by simp; omega
  rw [hlen, List.cons_append, List.append_assoc]
  refine bind_ok (run_expect hleft) (bind_ok exs (bind_ok (run_current _) ?_))
  rw [current_cons, if_pos (Symbol.is_iff.mpr hright)]
  exact bind_ok run_take rfl

end Reader

end ProtoSchema
