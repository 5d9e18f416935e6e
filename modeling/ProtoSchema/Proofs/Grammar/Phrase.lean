import ProtoSchema.Parse.Rule

/-!
# Phrases

A grammar says which symbols make up which tree.  A `Phrase α` is one sort of such statements: the
number of the first symbol, the tree, and the symbols.  The number is there for the notes on the
nodes of the tree, which tell where the nodes stand; the symbols say nothing about it.

Here are the ways in which phrases are put together: some of them in a row (`Many`), in a row with
commas (`Separated`), and as the statements of a body (`Statements`, `Block`).  Whichever way it is,
each of them is made of some of the symbols (`Occurs`).

## What is here

* `Phrase` — a relation between a number, a tree and symbols.
* `Symbol.spelling`, `spelled` — the text of symbols.  Names of several symbols are kept as texts,
  and this is how a derivation makes the text of a name.
* `Kind.isBoundary` — the marks between statements.
* `Phrase.Behind`, `Phrase.Many`, `Phrase.Separated`, `Phrase.Statements`, `Phrase.Block` — the ways
  to put phrases together, which are those of the rules in `ProtoSchema.Parse.Rule`.
* `Phrase.Occurs` — a phrase somewhere among the symbols, with the number that its first symbol has
  there.
* `Phrase.under` — the phrases of another sort of tree, by a function between the trees.
* `Phrase.Many.imp` to `Phrase.Block.imp` — what holds of the phrases holds of rows of them.
-/

set_option autoImplicit false

namespace ProtoSchema

/-- Which symbols, the first of them with the given number, make up which tree. -/
abbrev Phrase (α : Type) := Nat → α → List Symbol → Prop

/-! ## Symbols -/

theorem Symbol.is_iff {s : Symbol} {kind : Kind} : s.is kind ↔ s.kind = kind := by
  simp [Symbol.is]

theorem Symbol.is_eq_false_iff {s : Symbol} {kind : Kind} : s.is kind = false ↔ s.kind ≠ kind := by
  simp [Symbol.is]

theorem Symbol.isWord_iff {s : Symbol} {word : String} :
    s.isWord word ↔ s.kind = .identifier ∧ s.lexeme = word := by
  simp [Symbol.isWord]

theorem Symbol.kind_of_isWord {s : Symbol} {word : String} (h : s.isWord word) :
    s.kind = .identifier :=
  (isWord_iff.mp h).1

/-- A word is no other word. -/
theorem Symbol.isWord_eq {s : Symbol} {word : String} (h : s.isWord word) (other : String) :
    s.isWord other = (word == other) := by
  obtain ⟨hk, rfl⟩ := isWord_iff.mp h
  simp [isWord, hk]

/-- The marks that a statement can end with, and the one that its body begins with. -/
def Kind.isBoundary (kind : Kind) : Bool :=
  kind == .semicolon || kind == .leftBrace || kind == .rightBrace

/-- The text of a symbol.  An operator is written as its kind is, whatever the symbol says; in a
text that was scanned the two are the same. -/
def Symbol.spelling (s : Symbol) : String := s.kind.spelling?.getD s.lexeme

/-- An identifier is a name. -/
theorem Symbol.isName_of_kind {s : Symbol} (h : s.kind = .identifier) : s.isName := by
  simp [isName, h]

/-- A name is of one of two kinds. -/
theorem Symbol.kind_ne_of_isName {s : Symbol} {kind : Kind} (h : s.isName)
    (hidentifier : kind ≠ .identifier) (hprimitive : kind ≠ .primitiveType) : s.kind ≠ kind := by
  simp only [isName, Bool.or_eq_true, beq_iff_eq] at h
  rintro rfl
  exact h.elim hidentifier hprimitive

/-- A name is spelled as its lexeme. -/
theorem Symbol.spelling_of_isName {s : Symbol} (h : s.isName) : s.spelling = s.lexeme := by
  simp only [isName, Bool.or_eq_true, beq_iff_eq] at h
  rcases h with h | h <;> simp [spelling, h, Kind.spelling?]

/-- A mark is spelled as its kind. -/
theorem Symbol.spelling_of_kind {s : Symbol} {kind : Kind} {text : String} (hs : s.kind = kind)
    (hk : kind.spelling? = some text) : s.spelling = text := by
  rw [spelling, hs, hk, Option.getD_some]

/-- The text of symbols without anything between them. -/
def spelled : List Symbol → String
  | [] => ""
  | s :: ss => s.spelling ++ spelled ss

@[simp]
theorem spelled_nil : spelled [] = "" := rfl

@[simp]
theorem spelled_cons (s : Symbol) (ss : List Symbol) :
    spelled (s :: ss) = s.spelling ++ spelled ss := rfl

@[simp]
theorem spelled_append (ss ts : List Symbol) : spelled (ss ++ ts) = spelled ss ++ spelled ts := by
  induction ss with
  | nil => simp
  | cons s ss ih => simp [ih, String.append_assoc]

namespace Phrase

variable {α : Type}

/-- A symbol of the given kind, and a phrase behind it. -/
inductive Behind (kind : Kind) (p : Phrase α) : Phrase α
  | mk {i : Nat} {s : Symbol} {x : α} {t : List Symbol} (hs : s.kind = kind) (hx : p (i + 1) x t) :
    Behind kind p i x (s :: t)

/-- Phrases in a row. -/
inductive Many (p : Phrase α) : Phrase (List α)
  | nil {i : Nat} : Many p i [] []
  | cons {i : Nat} {x : α} {xs : List α} {s t : List Symbol} (hx : p i x s)
    (hxs : Many p (i + s.length) xs t) : Many p i (x :: xs) (s ++ t)

/-- One phrase or more, with commas between them. -/
inductive Separated (p : Phrase α) : Phrase (List α)
  | mk {i : Nat} {x : α} {xs : List α} {s t : List Symbol} (hx : p i x s)
    (hxs : Many (Behind .comma p) (i + s.length) xs t) : Separated p i (x :: xs) (s ++ t)

/-- Statements in a row.  A semicolon alone is one too, of which nothing is kept. -/
inductive Statements (p : Phrase α) : Phrase (List α)
  | nil {i : Nat} : Statements p i [] []
  | empty {i : Nat} {s : Symbol} {xs : List α} {t : List Symbol} (hs : s.kind = .semicolon)
    (hxs : Statements p (i + 1) xs t) : Statements p i xs (s :: t)
  | cons {i : Nat} {x : α} {xs : List α} {s t : List Symbol} (hx : p i x s)
    (hxs : Statements p (i + s.length) xs t) : Statements p i (x :: xs) (s ++ t)

/-- Statements between braces. -/
inductive Block (p : Phrase α) : Phrase (List α)
  | mk {i : Nat} {l r : Symbol} {xs : List α} {t : List Symbol} (hl : l.kind = .leftBrace)
    (hxs : Statements p (i + 1) xs t) (hr : r.kind = .rightBrace) :
    Block p i xs (l :: (t ++ [r]))

/-- A row of phrases behind marks begins with a mark. -/
theorem Many.kind_of_cons {kind : Kind} {p : Phrase α} {i : Nat} {xs : List α} {s : Symbol}
    {t : List Symbol} (h : Many (Behind kind p) i xs (s :: t)) : s.kind = kind := by
  generalize hst : s :: t = u at h
  cases h with
  | nil => cases hst
  | cons hx _ =>
    obtain ⟨hk, -⟩ := hx
    obtain ⟨rfl, -⟩ := List.cons.inj hst
    exact hk

/-- There is one phrase at least. -/
theorem Separated.ne_nil {p : Phrase α} {i : Nat} {xs : List α} {s : List Symbol}
    (h : Separated p i xs s) : xs ≠ [] := by
  cases h
  exact List.cons_ne_nil _ _

/-- Statements behind statements. -/
theorem Statements.append {p : Phrase α} {i : Nat} {xs ys : List α} {s t : List Symbol}
    (hxs : Statements p i xs s) (hys : Statements p (i + s.length) ys t) :
    Statements p i (xs ++ ys) (s ++ t) := by
  induction hxs with
  | nil => exact hys
  | @empty i a xs s ha _ ih =>
    refine .empty ha (ih ?_)
    rwa [List.length_cons, Nat.add_comm s.length, ← Nat.add_assoc] at hys
  | @cons i x xs s u hx _ ih =>
    rw [List.append_assoc]
    refine .cons hx (ih ?_)
    rwa [List.length_append, ← Nat.add_assoc] at hys

/-! ## Phrases in phrases -/

section Occurs

variable {p : Phrase α} {i j : Nat} {x : α} {xs : List α} {s t : List Symbol}

/-- Some of the symbols, which stand in a row, are a phrase of their own. -/
def Occurs (p : Phrase α) : Phrase α :=
  fun i x s => ∃ u v w, s = u ++ v ++ w ∧ p (i + u.length) x v

/-- A phrase is made of some of its symbols. -/
theorem Occurs.self (h : p i x s) : p.Occurs i x s := ⟨[], s, [], by simp, h⟩

/-- The symbols with others in front of them and behind them. -/
theorem Occurs.within (h : p.Occurs i x s) {u w : List Symbol} (ht : t = u ++ s ++ w)
    (hj : i = j + u.length) : p.Occurs j x t := by
  obtain ⟨u', v, w', rfl, hx⟩ := h
  refine ⟨u ++ u', v, w' ++ w, by simp [ht], ?_⟩
  rwa [List.length_append, ← Nat.add_assoc, ← hj]

/-- The symbols with others in front of them. -/
theorem Occurs.behind (h : p.Occurs (j + t.length) x s) : p.Occurs j x (t ++ s) :=
  h.within (w := []) (by rw [List.append_nil]) rfl

/-- The symbols with others behind them. -/
theorem Occurs.before (h : p.Occurs i x s) : p.Occurs i x (s ++ t) :=
  h.within (u := []) rfl rfl

theorem Occurs.imp {β : Type} {q : Phrase β} {y : β} (h : p.Occurs i x s)
    (hpq : ∀ i s, p i x s → q i y s) : q.Occurs i y s := by
  obtain ⟨u, v, w, hs, hx⟩ := h
  exact ⟨u, v, w, hs, hpq _ _ hx⟩

theorem Many.occurs (h : Many p i xs s) (hx : x ∈ xs) : p.Occurs i x s := by
  induction h with
  | nil => cases hx
  | cons hy _ ih =>
    rcases List.mem_cons.mp hx with rfl | hx
    · exact (Occurs.self hy).before
    · exact (ih hx).behind

theorem Separated.occurs (h : Separated p i xs s) (hx : x ∈ xs) : p.Occurs i x s := by
  obtain ⟨hy, hxs⟩ := h
  rcases List.mem_cons.mp hx with rfl | hx
  · exact (Occurs.self hy).before
  · refine Occurs.behind ?_
    obtain ⟨u, _, w, rfl, @⟨_, comma, _, v, -, hv⟩⟩ := hxs.occurs hx
    exact (Occurs.self hv).within (u := u ++ [comma]) (w := w) (by simp) (by simp [Nat.add_assoc])

theorem Statements.occurs (h : Statements p i xs s) (hx : x ∈ xs) : p.Occurs i x s := by
  induction h with
  | nil => cases hx
  | @empty i semi xs t _ _ ih => exact (ih hx).behind (t := [semi])
  | cons hy _ ih =>
    rcases List.mem_cons.mp hx with rfl | hx
    · exact (Occurs.self hy).before
    · exact (ih hx).behind

theorem Block.occurs (h : Block p i xs s) (hx : x ∈ xs) : p.Occurs i x s := by
  obtain @⟨_, l, r, _, t, -, hxs, -⟩ := h
  exact (hxs.occurs hx).within (u := [l]) rfl rfl

/-- Items of one sort among all the items. -/
theorem Block.occurs_filterMap {β : Type} {q : Phrase β} {f : α → Option β} (h : Block p i xs s)
    (hpq : ∀ i x s, p i x s → ∀ y ∈ f x, q i y s) : ∀ y ∈ xs.filterMap f, q.Occurs i y s := by
  intro y hy
  obtain ⟨x, hx, hy⟩ := List.mem_filterMap.mp hy
  exact (h.occurs hx).imp fun i s h ↦ hpq i x s h y hy

end Occurs

/-! ## Changing the trees -/

/-- The trees that `f` makes a phrase of. -/
abbrev under {β : Type} (f : α → β) (p : Phrase β) : Phrase α := fun i x s => p i (f x) s

variable {β : Type} {p : Phrase α} {q : Phrase β} {f : α → β} {i : Nat} {xs : List α}
  {s : List Symbol}

theorem Behind.imp {kind : Kind} {x : α} (hpq : ∀ ⦃i x s⦄, p i x s → q i (f x) s)
    (h : Behind kind p i x s) : Behind kind q i (f x) s := by
  cases h with
  | mk hs hx => exact .mk hs (hpq hx)

theorem Many.imp (hpq : ∀ ⦃i x s⦄, p i x s → q i (f x) s) (h : Many p i xs s) :
    Many q i (xs.map f) s := by
  induction h with
  | nil => exact .nil
  | cons hx _ ih => exact .cons (hpq hx) ih

theorem Separated.imp (hpq : ∀ ⦃i x s⦄, p i x s → q i (f x) s) (h : Separated p i xs s) :
    Separated q i (xs.map f) s := by
  cases h with
  | mk hx hxs => exact .mk (hpq hx) (hxs.imp fun _ _ _ h ↦ h.imp hpq)

theorem Statements.imp (hpq : ∀ ⦃i x s⦄, p i x s → q i (f x) s) (h : Statements p i xs s) :
    Statements q i (xs.map f) s := by
  induction h with
  | nil => exact .nil
  | empty hs _ ih => exact .empty hs ih
  | cons hx _ ih => exact .cons (hpq hx) ih

theorem Block.imp (hpq : ∀ ⦃i x s⦄, p i x s → q i (f x) s) (h : Block p i xs s) :
    Block q i (xs.map f) s := by
  cases h with
  | mk hl hxs hr => exact .mk hl (hxs.imp hpq) hr

end Phrase

end ProtoSchema
