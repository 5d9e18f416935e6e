import ProtoSchema.Print.Printer
import ProtoSchema.Proofs.Grammar.Phrase
import ProtoSchema.Proofs.Token.Scans

/-!
# Writing phrases

What is printed for a tree is a text that says the tree again.  The symbols need not be those that
the tree was made of: a number or a string may be spelled in another way.  So what printing a tree
does is stated with a phrase: the text is divided into *some* symbols, and these make up the tree,
whatever number the first of them has.

`Phrase.Prints` says it of a part of a line, `Phrase.Printed` of what a `Printer` does.  Here is how
the ways in which phrases are put together go with the ways in which texts are.

## What is here

* `Phrase.Said` — a tree that some genuine symbols make up, which is all that printing needs to know
  of a tree that was read.  It passes from a list to its items (`Phrase.Separated.said` and others).
* `Phrase.Prints`, `Phrase.prints_commaSeparated` — parts of a line, and lists of them.
* `Writes` — what a printer writes, whatever it has written before: some text that is divided into
  the given symbols.  `Writes.line`, `Writes.comp` and `Writes.block` follow the printer.
* `Phrase.Printed`, `Phrase.printed_each`, `Phrase.Printed.comp` — statements, and statements one
  after another.
* `Phrase.Bodied`, `Phrase.Printed.bodied` — the body of a block behind any heading.  A body and its
  heading are printed by one function, and this is what lets them be dealt with apart.
-/

set_option autoImplicit false

namespace ProtoSchema

open Phrase

/-! ## Symbols that a text has -/

/-- A name spells itself. -/
theorem Symbol.Genuine.spells_name {s : Symbol} (h : s.Genuine) (hs : s.isName) :
    Spells endsWord s.lexeme [s] := by
  obtain ⟨hword, heq⟩ := h.isWord_lexeme hs
  have hspells := Spells.word hword
  rwa [← heq] at hspells

/-! ## What is said in a text -/

namespace Phrase

variable {α β : Type} {p : Phrase α} {i : Nat} {x : α} {xs : List α} {s : List Symbol}

/-- The tree is made up of symbols that a text can have. -/
def Said (p : Phrase α) (x : α) : Prop := ∃ i s, p i x s ∧ ∀ a ∈ s, a.Genuine

/-- What occurs among genuine symbols is said. -/
theorem Occurs.said (h : p.Occurs i x s) (hg : ∀ a ∈ s, a.Genuine) : p.Said x := by
  obtain ⟨u, v, w, rfl, hx⟩ := h
  exact ⟨_, v, hx, fun a ha ↦ hg a (List.mem_append_left _ (List.mem_append_right _ ha))⟩

theorem Separated.said (h : Separated p i xs s) (hg : ∀ a ∈ s, a.Genuine) : ∀ x ∈ xs, p.Said x :=
  fun _ hx ↦ (h.occurs hx).said hg

theorem Statements.said (h : Statements p i xs s) (hg : ∀ a ∈ s, a.Genuine) :
    ∀ x ∈ xs, p.Said x :=
  fun _ hx ↦ (h.occurs hx).said hg

theorem Block.said (h : Block p i xs s) (hg : ∀ a ∈ s, a.Genuine) : ∀ x ∈ xs, p.Said x :=
  fun _ hx ↦ (h.occurs hx).said hg

/-! ## Parts of a line -/

/-- The text says the tree, in front of a character of which `q` holds. -/
def Prints (q : Char → Bool) (p : Phrase α) (text : String) (x : α) : Prop :=
  ∃ s, Spells q text s ∧ ∀ i, p i x s

/-- A row of phrases with commas between them, behind a comma, is a row behind commas. -/
theorem Many.of_separated {comma : Symbol} (hc : comma.kind = .comma)
    (h : Separated p (i + 1) xs s) : Many (Behind .comma p) i xs (comma :: s) := by
  obtain @⟨_, x, xs, s, t, hx, hxs⟩ := h
  refine .cons (s := comma :: s) (.mk hc hx) ?_
  rw [List.length_cons, Nat.add_comm s.length, ← Nat.add_assoc]
  exact hxs

/-- A list is printed as a list if its items are. -/
theorem prints_commaSeparated {text : α → String} (hxs : xs ≠ [])
    (h : ∀ x ∈ xs, p.Prints closes (text x) x) :
    (Separated p).Prints closes (commaSeparated (xs.map text)) xs := by
  induction xs with
  | nil => exact absurd rfl hxs
  | cons x xs ih =>
    obtain ⟨⟨s, hs, hx⟩, hrest⟩ := List.forall_mem_cons.mp h
    cases xs with
    | nil =>
      refine ⟨s ++ [], ?_, fun i ↦ .mk (hx i) .nil⟩
      rw [List.append_nil]
      exact hs
    | cons y ys =>
      obtain ⟨t, ht, hys⟩ := ih (List.cons_ne_nil y ys) hrest
      refine ⟨s ++ Symbol.mark .comma :: t, ?_, fun i ↦ .mk (hx i) (.of_separated rfl (hys _))⟩
      have hcomma := hs.append_of_head (.comma (q := anything)) (c := ',') rfl rfl
      have htext := hcomma.append ht
      rwa [List.append_assoc] at htext

end Phrase

/-! ## Lines and blocks -/

/-- Wherever a printer has come to, it writes a text that is divided into the symbols, whatever
comes next. -/
def Writes (f : Printer → Printer) (ss : List Symbol) : Prop :=
  ∀ p : Printer, ∃ text, f p = ⟨p.out ++ text, p.indent⟩ ∧ Spells anything text ss

theorem spells_tabs {q : Char → Bool} (indent : Nat) : Spells q (Printer.tabs indent) [] := by
  refine .blanks fun c hc ↦ ?_
  rw [Printer.tabs, String.toList_ofList] at hc
  rw [(List.mem_replicate.mp hc).2]
  rfl

/-- A line spells what is written in it. -/
theorem spells_line {text : String} {ss : List Symbol} (h : Spells closes text ss) (indent : Nat) :
    Spells anything (Printer.tabs indent ++ text ++ "\n") ss := by
  have hnewline : Spells anything "\n" [] := fun _ _ _ h ↦ .blank rfl h
  have htext := ((spells_tabs indent).append h).append_of_head hnewline (c := '\n') rfl rfl
  rwa [List.nil_append, List.append_nil] at htext

namespace Writes

variable {f g : Printer → Printer} {ss ts : List Symbol}

/-- A line is written wherever the printer has come to. -/
theorem line {text : String} (h : Spells closes text ss) : Writes (.line text) ss :=
  fun p ↦ ⟨_, rfl, spells_line h p.indent⟩

/-- A line that ends with a semicolon. -/
theorem statement {text : String} (h : Spells closes text ss) :
    Writes (.line (text ++ ";")) (ss ++ [.mark .semicolon]) :=
  .line (h.append_of_head .semicolon (c := ';') rfl rfl)

theorem id : Writes (fun p ↦ p) [] := fun p ↦ ⟨"", by rw [String.append_empty], .nil⟩

/-- What is written behind what is written. -/
theorem comp (hf : Writes f ss) (hg : Writes g ts) : Writes (fun p ↦ g (f p)) (ss ++ ts) := by
  intro p
  obtain ⟨text, hp, htext⟩ := hf p
  obtain ⟨text', hp', htext'⟩ := hg (f p)
  refine ⟨text ++ text', ?_, htext.append htext'⟩
  show g (f p) = _
  rw [hp', hp, String.append_assoc]

/-- A block writes its heading, a brace, its body and another brace. -/
theorem block {heading : String} (hs : Spells closes heading ss) (hf : Writes f ts) :
    Writes (.block heading f) (ss ++ .mark .leftBrace :: (ts ++ [.mark .rightBrace])) := by
  intro p
  have hopen : Spells closes (heading ++ " \x7b") (ss ++ [.mark .leftBrace]) :=
    hs.append_of_head (Spells.blank.append (Spells.mark (c := '\x7b') rfl rfl)) (c := ' ') rfl rfl
  have hclose : Spells closes "\x7d" [.mark .rightBrace] := Spells.mark (c := '\x7d') rfl rfl
  obtain ⟨text, hp, htext⟩ := hf (p.opened heading)
  have hlines := ((spells_line hopen p.indent).append htext).append (spells_line hclose p.indent)
  refine ⟨_, ?_, by simpa using hlines⟩
  rw [Printer.block, hp]
  simp [Printer.opened, Printer.closed, Printer.line, Printer.write, String.append_assoc]

end Writes

namespace Phrase

variable {α β : Type}

/-- What prints the tree writes symbols that say it. -/
def Printed (p : Phrase α) (f : Printer → Printer) (x : α) : Prop :=
  ∃ s, Writes f s ∧ ∀ i, p i x s

variable {p : Phrase α} {q : Phrase β} {x : α} {xs ys : List α} {f g : Printer → Printer}

theorem Printed.imp {y : β} (h : p.Printed f x) (hpq : ∀ ⦃i s⦄, p i x s → q i y s) :
    q.Printed f y := by
  obtain ⟨s, hs, hx⟩ := h
  exact ⟨s, hs, fun i ↦ hpq (hx i)⟩

/-- Statements that are printed one after another. -/
theorem printed_each {print : β → Printer → Printer} {node : β → α} {zs : List β}
    (h : ∀ z ∈ zs, p.Printed (print z) (node z)) :
    (Statements p).Printed (Printer.each print zs) (zs.map node) := by
  induction zs with
  | nil => exact ⟨[], .id, fun i ↦ .nil⟩
  | cons z zs ih =>
    obtain ⟨⟨s, hs, hz⟩, hzs⟩ := List.forall_mem_cons.mp h
    obtain ⟨t, ht, hrest⟩ := ih hzs
    exact ⟨s ++ t, hs.comp ht, fun i ↦ .cons (hz i) (hrest _)⟩

theorem printed_all {print : α → Printer → Printer} (h : ∀ x ∈ xs, p.Printed (print x) x) :
    (Statements p).Printed (Printer.each print xs) xs := by
  have hall := printed_each h
  rwa [List.map_id'] at hall

/-- Statements behind statements. -/
theorem Printed.comp (hf : (Statements p).Printed f xs) (hg : (Statements p).Printed g ys) :
    (Statements p).Printed (fun b ↦ g (f b)) (xs ++ ys) := by
  obtain ⟨s, hs, hxs⟩ := hf
  obtain ⟨t, ht, hys⟩ := hg
  exact ⟨s ++ t, hs.comp ht, fun i ↦ (hxs i).append (hys _)⟩

/-- What prints the statements of a body writes the body between braces, behind any heading. -/
def Bodied (p : Phrase (List α)) (f : Printer → Printer) (xs : List α) : Prop :=
  ∃ s, (∀ {heading : String} {t : List Symbol}, Spells closes heading t →
    Writes (.block heading f) (t ++ s)) ∧ ∀ i, p i xs s

/-- Statements between braces are a body. -/
theorem Printed.bodied (h : (Statements p).Printed f xs) : (Block p).Bodied f xs := by
  obtain ⟨s, hs, hxs⟩ := h
  exact ⟨_, fun hheading ↦ .block hheading hs, fun i ↦ .mk rfl (hxs _) rfl⟩

end Phrase

end ProtoSchema
