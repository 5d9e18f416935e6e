import ProtoSchema.Proofs.Grammar.Completeness.Accepting
import ProtoSchema.Proofs.Token.Scans

/-!
# Failing at the first wrong symbol

A rule that fails at an unexpected symbol has taken the symbols in front of it.  The rule is prompt
if none of those is to blame: put other symbols in place of the unexpected one and of all behind it,
and the whole is a phrase.  A rule that commits itself to one alternative too early is not prompt,
nor one that takes a symbol which nothing can follow.

The symbols that something begun is finished with are always among `supplies`.  None of them means
anything special to a rule that looks ahead, so a rule that does takes the same way again.

As always the notes on nodes do not matter here; `Says` says of symbols that they are some phrase,
whatever the number of the first of them is.

## What is here

* `supplies`, `Supplied` — fifteen symbols, and symbols that are all among them.
* `Viable` — symbols that supplies finish.  What is finished can be gone on with (`Viable.trans`).
* `Says`, `One` — symbols that are some phrase, and a single symbol that passes a test.
* `PromptOutcome` — what a rule may come to: symbols that are a phrase, or an unexpected symbol
  behind symbols that are viable.  Other failures are not looked at.
* `Reader.PromptAt`, `Reader.Prompt` — a rule that comes to nothing else, in one place and anywhere.
* `Reader.PromptAt.bind`, `Reader.Prompt.bind`, `Reader.Prompt.bind_one` — one step after another.
  What the second can make finishes what the first has begun.
* `Reader.prompt_pure` to `Reader.prompt_takeIf` — single symbols.
* `Reader.PromptBefore`, `Reader.prompt_lookahead` — a rule that looks at the next symbol and then
  chooses.  It is prompt if the way that supplies choose is.
* `Reader.prompt_take`, `Reader.expect_prompt`, `Reader.prompt_semicolon` — a rule that takes what
  passes a test.
* `Reader.many_prompt`, `Reader.separated_prompt`, `Reader.statements_prompt`, `Reader.block_prompt`
  — repetition and bodies.
-/

set_option autoImplicit false

namespace ProtoSchema

open Rule Phrase

/-! ## Phrases that can be finished -/

/-- The number that is supplied where one is missing. -/
def zero : Symbol := ⟨.number, "0", some (.number (.integer 0))⟩

/-- The string that is supplied where one is missing. -/
def versionText : Symbol := ⟨.string, "\"proto3\"", some (.text "proto3")⟩

/-- A name, a keyword, a type, a number, the text of a version, and the marks that come behind such
or end a statement or a list. -/
def supplies : List Symbol :=
  [⟨.identifier, "x", none⟩, ⟨.identifier, "returns", none⟩, ⟨.primitiveType, "int32", none⟩, zero,
    versionText, .mark .equal, .mark .semicolon, .mark .comma, .mark .less, .mark .greater,
      .mark .leftParen,
    .mark .rightParen, .mark .leftBrace, .mark .rightBrace, .mark .rightBracket]

theorem kind_ne_eof_of_mem_supplies : ∀ s ∈ supplies, s.kind ≠ .eof := by decide

/-- All of the symbols are supplies. -/
def Supplied (v : List Symbol) : Prop := ∀ s ∈ v, s ∈ supplies

instance : DecidablePred Supplied := fun v => inferInstanceAs (Decidable (∀ s ∈ v, s ∈ supplies))

/-- The symbols begin others of which `F` holds, and supplies finish them. -/
def Viable (F : List Symbol → Prop) (u : List Symbol) : Prop := ∃ v, Supplied v ∧ F (u ++ v)

section Viable

variable {F G : List Symbol → Prop} {s u : List Symbol}

/-- What is finished needs no more. -/
theorem Viable.of_finished (h : F u) : Viable F u := ⟨[], nofun, by rwa [List.append_nil]⟩

theorem Viable.imp (h : Viable F u) (hFG : ∀ s, F s → G s) : Viable G u := by
  obtain ⟨v, hv, h⟩ := h
  exact ⟨v, hv, hFG _ h⟩

/-- What is finished can be gone on with. -/
theorem Viable.trans (h : Viable F u) (hFG : ∀ s, F s → Viable (fun t ↦ G (s ++ t)) []) :
    Viable G u := by
  obtain ⟨v, hv, h⟩ := h
  obtain ⟨w, hw, h⟩ := hFG _ h
  refine ⟨v ++ w, fun s hs ↦ (List.mem_append.mp hs).elim (hv s) (hw s), ?_⟩
  rwa [← List.append_assoc]

/-- A supply goes on. -/
theorem Viable.of_supply {a : Symbol} (ha : a ∈ supplies) (h : Viable (fun t ↦ F (a :: t)) []) :
    Viable F [] :=
  Viable.trans (F := (· = [a])) ⟨[a], by simpa [Supplied] using ha, rfl⟩ fun s hs ↦ by rwa [hs]

theorem Viable.imp_of_head (h : Viable F [])
    (hFG : ∀ t, (∀ a ∈ t.head?, a ∈ supplies) → F t → G t) : Viable G [] := by
  obtain ⟨v, hv, h⟩ := h
  exact ⟨v, hv, hFG v (fun a ha ↦ hv a (List.mem_of_mem_head? ha)) h⟩

end Viable

/-- The symbols are a phrase, whatever the number of the first of them. -/
def Says {α : Type} (p : Phrase α) (s : List Symbol) : Prop := ∀ i, ∃ x, p i x s

/-- A single symbol. -/
def One (test : Symbol → Prop) (s : List Symbol) : Prop := ∃ a, s = [a] ∧ test a

section Says

variable {α β : Type} {p : Phrase α} {q : Phrase β} {s t : List Symbol}

theorem Says.imp (h : Says p s) (hpq : ∀ i x, p i x s → ∃ y, q i y t) : Says q t := by
  intro i
  obtain ⟨x, hx⟩ := h i
  exact hpq i x hx

theorem Says.many_nil : Says (Many p) [] := fun _ ↦ ⟨[], .nil⟩

/-- A phrase in front of a row of them. -/
theorem Says.many_cons (hs : Says p s) (ht : Says (Many p) t) : Says (Many p) (s ++ t) := by
  choose x hx using hs
  choose xs hxs using ht
  exact fun i ↦ ⟨x i :: xs (i + s.length), .cons (hx i) (hxs _)⟩

/-- A phrase with a mark in front of it. -/
theorem Says.behind {kind : Kind} {a : Symbol} (ha : a.kind = kind) (hs : Says p s) :
    Says (Behind kind p) (a :: s) := by
  choose x hx using hs
  exact fun i ↦ ⟨x (i + 1), .mk ha (hx _)⟩

end Says

/-! ## Prompt rules -/

/-- What reading `rest` has come to, the first symbol of which has the number `i`.  What was made is
`S` of the symbols taken; and those in front of an unexpected symbol can be finished so that `F`
holds of them. -/
inductive PromptOutcome {α : Type} (stop : Symbol) (i : Nat) (rest : List Symbol)
    (S : α → List Symbol → Prop) (F : List Symbol → Prop) : Outcome α → Prop
  | ok {x : α} {s rest' : List Symbol} (hrest : rest = s ++ rest') (hs : S x s) :
    PromptOutcome stop i rest S F (.ok (x, ⟨i + s.length, rest', stop⟩))
  | unexpected {expected : Expected} {u w : List Symbol} (hrest : rest = u ++ w)
    (hu : Viable F u) : PromptOutcome stop i rest S F
      (.error ⟨i + u.length, .unexpected expected (w.headD stop).kind (w.headD stop).lexeme⟩)
  | violation {index : Nat} {v : Violation} :
    PromptOutcome stop i rest S F (.error ⟨index, .violation v⟩)

namespace PromptOutcome

variable {α β : Type} {stop : Symbol} {i : Nat} {rest : List Symbol} {P : α → List Symbol → Prop}
  {S : β → List Symbol → Prop} {F G : List Symbol → Prop}

theorem behind {o : Outcome α} {s : List Symbol}
    (h : PromptOutcome stop (i + s.length) rest (fun x t ↦ P x (s ++ t)) (fun t ↦ F (s ++ t)) o) :
    PromptOutcome stop i (s ++ rest) P F o := by
  cases h with
  | @ok x t rest' hrest hs =>
    rw [Nat.add_assoc, ← List.length_append]
    exact .ok (by rw [hrest, List.append_assoc]) hs
  | @unexpected expected u w hrest hu =>
    rw [Nat.add_assoc, ← List.length_append]
    refine .unexpected (by rw [hrest, List.append_assoc]) ?_
    obtain ⟨v, hv, hF⟩ := hu
    exact ⟨v, hv, by rwa [List.append_assoc]⟩
  | violation => exact .violation

theorem bind {o : Outcome α} {next : α × Cursor → Outcome β}
    (ho : PromptOutcome stop i rest P F o)
    (hnext : ∀ x s rest', P x s → PromptOutcome stop (i + s.length) rest' (fun y t ↦ S y (s ++ t))
      (fun t ↦ G (s ++ t)) (next (x, ⟨i + s.length, rest', stop⟩)))
    (hfinish : ∀ s, F s → Viable (fun t ↦ G (s ++ t)) []) :
    PromptOutcome stop i rest S G (o.bind next) := by
  cases ho with
  | @ok x s rest' hrest hs =>
    rw [hrest]
    exact (hnext x s rest' hs).behind
  | unexpected hrest hu => exact .unexpected hrest (hu.trans hfinish)
  | violation => exact .violation

theorem map {o : Outcome α} {f : α → β} (ho : PromptOutcome stop i rest P F o)
    (hS : ∀ x s, P x s → S (f x) s) :
    PromptOutcome stop i rest S F (Except.map (fun y : α × Cursor ↦ (f y.1, y.2)) o) := by
  cases ho with
  | ok hrest hs => exact .ok hrest (hS _ _ hs)
  | unexpected hrest hu => exact .unexpected hrest hu
  | violation => exact .violation

theorem imp {S : α → List Symbol → Prop} {o : Outcome α}
    (h : PromptOutcome stop i rest P F o) (hS : ∀ x s, P x s → S x s) (hF : ∀ s, F s → G s) :
    PromptOutcome stop i rest S G o := by
  cases h with
  | ok hrest hs => exact .ok hrest (hS _ _ hs)
  | unexpected hrest hu => exact .unexpected hrest (hu.imp hF)
  | violation => exact .violation

theorem of_head {o : Outcome α} (h : PromptOutcome stop i rest (fun _ ↦ F) F o)
    (hG : Viable G []) (hnil : F [] → G [])
    (hcons : ∀ t, F (rest.headD stop :: t) → G (rest.headD stop :: t)) :
    PromptOutcome stop i rest (fun _ ↦ G) G o := by
  cases h with
  | @ok x s rest' hrest hs =>
    cases s with
    | nil => exact .ok hrest (hnil hs)
    | cons a s =>
      rw [hrest] at hcons
      exact .ok hrest (hcons s hs)
  | @unexpected expected u w hrest hu =>
    cases u with
    | nil => exact .unexpected hrest hG
    | cons a u =>
      rw [hrest] at hcons
      obtain ⟨v, hv, hu⟩ := hu
      exact .unexpected hrest ⟨v, hv, hcons _ hu⟩
  | violation => exact .violation

end PromptOutcome

namespace Reader

variable {α β : Type} (r : Reader)

/-- The outcome of the rule is prompt, provided that the end is no number. -/
def PromptAt (rule : Rule α) (i : Nat) (rest : List Symbol) (S : α → List Symbol → Prop)
    (F : List Symbol → Prop) : Prop :=
  r.stop.number? = none → PromptOutcome r.stop i rest S F (r.run rule i rest)

/-- Wherever the rule runs, its outcome is prompt; and there is something that it can make. -/
structure Prompt (rule : Rule α) (F : List Symbol → Prop) : Prop where
  nonempty : Nonempty α
  viable : Viable F []
  promptAt : ∀ i rest, r.PromptAt rule i rest (fun _ ↦ F) F

variable {r} {i : Nat} {rest : List Symbol} {P : α → List Symbol → Prop}
  {S : β → List Symbol → Prop} {F G : List Symbol → Prop}

/-! ## One step after another -/

theorem PromptAt.bind {first : Rule α} {next : α → Rule β} (hfirst : r.PromptAt first i rest P F)
    (hnext : ∀ x s rest', P x s → r.PromptAt (next x) (i + s.length) rest'
      (fun y t ↦ S y (s ++ t)) fun t ↦ G (s ++ t))
    (hfinish : ∀ s, F s → Viable (fun t ↦ G (s ++ t)) []) :
    r.PromptAt (first >>= next) i rest S G :=
  fun hstop ↦ (hfirst hstop).bind (fun x s rest' hx ↦ hnext x s rest' hx hstop) hfinish

theorem PromptAt.imp {S : α → List Symbol → Prop} {rule : Rule α} (h : r.PromptAt rule i rest P F)
    (hS : ∀ x s, P x s → S x s) (hF : ∀ s, F s → G s) : r.PromptAt rule i rest S G :=
  fun hstop ↦ (h hstop).imp hS hF

/-- A rule whose result is made part of a larger tree. -/
theorem PromptAt.returning {rule : Rule α} {f : α → β} (h : r.PromptAt rule i rest P F)
    (hS : ∀ x s, P x s → S (f x) s) (hF : ∀ s, F s → G s) :
    r.PromptAt (do let x ← rule; return f x) i rest S G := by
  refine h.bind (fun x s rest' hs hstop ↦ ?_) fun s hs ↦ .of_finished (by simpa using hF s hs)
  exact .ok (s := []) rfl (by simpa using hS x s hs)

/-- What is known of the current symbol is known of the first that the rule takes.  If it takes none
before it fails, what was begun before can still be finished in another way. -/
theorem Prompt.promptAt_of_head {rule : Rule α} (h : r.Prompt rule F) (hG : Viable G [])
    (hnil : F [] → G []) (hcons : ∀ t, F (rest.headD r.stop :: t) → G (rest.headD r.stop :: t)) :
    r.PromptAt rule i rest (fun _ ↦ G) G :=
  fun hstop ↦ (h.promptAt i rest hstop).of_head hG hnil hcons

/-- The same of a rule whose result is made part of a larger tree. -/
theorem Prompt.returning_of_head {rule : Rule α} {f : α → β} (h : r.Prompt rule F)
    (hG : Viable G []) (hnil : F [] → G [])
    (hcons : ∀ t, F (rest.headD r.stop :: t) → G (rest.headD r.stop :: t)) :
    r.PromptAt (do let x ← rule; return f x) i rest (fun _ ↦ G) G :=
  (h.promptAt_of_head hG hnil hcons).returning (fun _ _ hs ↦ hs) fun _ hs ↦ hs

theorem Prompt.bind {first : Rule α} {next : α → Rule β} (hfirst : r.Prompt first F)
    (hnext : ∀ x s, F s → r.Prompt (next x) fun t ↦ G (s ++ t)) :
    r.Prompt (first >>= next) G := by
  obtain ⟨x⟩ := hfirst.nonempty
  obtain ⟨v, hv, hF⟩ := hfirst.viable
  refine ⟨(hnext x v hF).nonempty, hfirst.viable.trans fun s hs ↦ (hnext x s hs).viable, ?_⟩
  exact fun i rest ↦ (hfirst.promptAt i rest).bind
    (fun x s rest' hs ↦ (hnext x s hs).promptAt _ rest') fun s hs ↦ (hnext x s hs).viable

/-- A rule that takes one symbol, and what comes behind it. -/
theorem Prompt.bind_one {test : Symbol → Prop} {first : Rule α} {next : α → Rule β}
    (hfirst : r.Prompt first (One test))
    (hnext : ∀ x a, test a → r.Prompt (next x) fun t ↦ G (a :: t)) :
    r.Prompt (first >>= next) G := by
  refine hfirst.bind fun x s hs ↦ ?_
  obtain ⟨a, rfl, ha⟩ := hs
  exact hnext x a ha

theorem Prompt.imp {rule : Rule α} (h : r.Prompt rule F) (hFG : ∀ s, F s → G s) :
    r.Prompt rule G where
  nonempty := h.nonempty
  viable := h.viable.imp hFG
  promptAt i rest := (h.promptAt i rest).imp (fun _ ↦ hFG) hFG

theorem Prompt.returning {rule : Rule α} {f : α → β} (h : r.Prompt rule F) (hFG : ∀ s, F s → G s) :
    r.Prompt (do let x ← rule; return f x) G where
  nonempty := h.nonempty.map f
  viable := h.viable.imp hFG
  promptAt i rest := (h.promptAt i rest).returning (fun _ ↦ hFG) hFG

/-! ## Single symbols -/

variable {S : α → List Symbol → Prop}

/-- A rule that takes nothing makes what needs no symbols. -/
theorem prompt_pure {a : α} (h : F []) : r.Prompt (pure a) F where
  nonempty := ⟨a⟩
  viable := .of_finished h
  promptAt _ _ _ := .ok (s := []) rfl h

theorem prompt_pure_bind {a : β} {next : β → Rule α} (h : r.Prompt (next a) F) :
    r.Prompt (pure a >>= next) F :=
  ⟨h.nonempty, h.viable, h.promptAt⟩

/-- The extent of a node is noted, and the node is complete. -/
theorem prompt_extentFrom {first : Entry} {f : Extent → α} (h : F []) :
    r.Prompt (do let e ← extentFrom first; return f e) F where
  nonempty := ⟨f ⟨0, 0⟩⟩
  viable := .of_finished h
  promptAt _ _ _ := .ok (s := []) rfl h

theorem Prompt.noting {rule : Rule α} {first : Entry} {f : α → Extent → β} (h : r.Prompt rule F)
    (hFG : ∀ s, F s → G s) : r.Prompt (do let x ← rule; let e ← extentFrom first; return f x e) G :=
  h.bind fun _ s hs ↦ prompt_extentFrom (by simpa using hFG s hs)

/-- A rule may reject the current symbol if another one can be gone on with. -/
theorem promptAt_reject {expected : Expected} (hF : Viable F []) :
    r.PromptAt (reject expected) i rest S F :=
  fun _ ↦ .unexpected (u := []) rfl hF

theorem promptAt_violate {index : Nat} {v : Violation} : r.PromptAt (violate index v) i rest S F :=
  fun _ ↦ .violation

theorem prompt_current {next : Entry → Rule α} (h : ∀ e, r.Prompt (next e) F) :
    r.Prompt (current >>= next) F where
  nonempty := (h ⟨0, .endOfInput⟩).nonempty
  viable := (h ⟨0, .endOfInput⟩).viable
  promptAt i rest := (h ⟨i, rest.headD r.stop⟩).promptAt i rest

theorem promptAt_current {next : Entry → Rule α}
    (h : r.PromptAt (next ⟨i, rest.headD r.stop⟩) i rest S F) :
    r.PromptAt (current >>= next) i rest S F :=
  h

theorem ne_nil_of_kind (hk : (rest.headD r.stop).kind ≠ .eof) : rest ≠ [] := by
  rintro rfl
  exact hk r.stop_kind

theorem ne_nil_of_number? {n : Number} (hstop : r.stop.number? = none)
    (h : (rest.headD r.stop).number? = some n) : rest ≠ [] := by
  rintro rfl
  exact nomatch hstop.symm.trans h

/-- A symbol is taken, and the rest of the rule is prompt. -/
theorem promptAt_take {next : Entry → Rule α} (hrest : rest ≠ [])
    (h : ∀ s rest', rest = s :: rest' → r.PromptAt (next ⟨i, s⟩) (i + 1) rest'
      (fun x t ↦ S x (s :: t)) fun t ↦ F (s :: t)) :
    r.PromptAt (take >>= next) i rest S F := by
  obtain ⟨s, rest, rfl⟩ := List.exists_cons_of_ne_nil hrest
  exact fun hstop ↦ (h s rest rfl hstop).behind (s := [s])

/-- A symbol that has been looked at is taken, and says what is made. -/
theorem promptAt_taking {x : α} (hrest : rest ≠ []) (hx : S x [rest.headD r.stop]) :
    r.PromptAt (do let _ ← take; return x) i rest S F := by
  obtain ⟨s, rest, rfl⟩ := List.exists_cons_of_ne_nil hrest
  exact fun _ ↦ .ok (s := [s]) rfl hx

theorem promptAt_takeIf {test : Symbol → Bool} {next : Option Entry → Rule α}
    (htest : ∀ s, test s → s.kind ≠ .eof)
    (hnone : ¬test (rest.headD r.stop) → r.PromptAt (next none) i rest S F)
    (hsome : ∀ s rest', rest = s :: rest' → test s → r.PromptAt (next (some ⟨i, s⟩)) (i + 1) rest'
      (fun x t ↦ S x (s :: t)) fun t ↦ F (s :: t)) :
    r.PromptAt (takeIf test >>= next) i rest S F := by
  intro hstop
  by_cases hpass : test (rest.headD r.stop)
  · obtain ⟨s, rest, rfl⟩ := exists_cons_of_headD (r := r) (htest _ hpass)
    have hs : test s := hpass
    rw [run, run_bind_of_ok (run_takeIf hs)]
    exact (hsome s rest rfl hs hstop).behind (s := [s])
  · rw [run, run_bind_of_ok (run_takeIf_none hpass)]
    exact hnone hpass hstop

theorem prompt_takeIf {test : Symbol → Bool} {next : Option Entry → Rule α}
    (htest : ∀ s, test s → s.kind ≠ .eof) (hnone : r.Prompt (next none) F)
    (hsome : ∀ e : Entry, test e.symbol → r.Prompt (next (some e)) fun t ↦ F (e.symbol :: t)) :
    r.Prompt (takeIf test >>= next) F where
  nonempty := hnone.nonempty
  viable := hnone.viable
  promptAt i rest := promptAt_takeIf htest (fun _ ↦ hnone.promptAt i rest)
    fun s rest' _ hs ↦ (hsome ⟨i, s⟩ hs).promptAt (i + 1) rest'

/-! ## Looking ahead -/

/-- Where the current symbol is one of those of which `C` holds, the outcome of the rule is
prompt. -/
structure PromptBefore (r : Reader) (C : Symbol → Prop) (rule : Rule α) (F : List Symbol → Prop) :
    Prop where
  nonempty : Nonempty α
  viable : Viable F []
  promptAt : ∀ i rest, C (rest.headD r.stop) → r.PromptAt rule i rest (fun _ ↦ F) F

theorem PromptBefore.returning {C : Symbol → Prop} {rule : Rule β} {f : β → α}
    (h : r.PromptBefore C rule F) : r.PromptBefore C (do let x ← rule; return f x) F where
  nonempty := h.nonempty.map f
  viable := h.viable
  promptAt i rest hC := (h.promptAt i rest hC).returning (fun _ _ hs ↦ hs) fun _ hs ↦ hs

/-- What holds of the current symbol and of all supplies holds of the first symbol, however the rest
is finished. -/
theorem Prompt.before {C : Symbol → Prop} {rule : Rule α} (h : r.Prompt rule F)
    (hsupply : ∀ a ∈ supplies, C a) (hFG : ∀ t, (∀ a ∈ t.head?, C a) → F t → G t) :
    r.PromptBefore C rule G := by
  have hviable : Viable G [] := h.viable.imp_of_head fun t ht ↦ hFG t fun a ha ↦ hsupply a (ht a ha)
  refine ⟨h.nonempty, hviable, fun i rest hC ↦ h.promptAt_of_head hviable (hFG [] nofun) fun t ↦ ?_⟩
  refine hFG _ ?_
  rintro _ ⟨⟩
  exact hC

/-- A rule that looks at the current symbol.  It may go any way in front of a symbol of which `C`
does not hold, as something that it can make is known from the other ways. -/
theorem prompt_lookahead {C : Symbol → Prop} {next : Entry → Rule α} (hC : ∃ a, C a)
    (hbefore : ∀ e : Entry, C e.symbol → r.PromptBefore C (next e) F)
    (hother : Viable F [] → ∀ i rest, ¬C (rest.headD r.stop) →
      r.PromptAt (next ⟨i, rest.headD r.stop⟩) i rest (fun _ ↦ F) F) :
    r.Prompt (current >>= next) F := by
  obtain ⟨a, ha⟩ := hC
  have hviable := (hbefore ⟨0, a⟩ ha).viable
  refine ⟨(hbefore ⟨0, a⟩ ha).nonempty, hviable, fun i rest ↦ promptAt_current ?_⟩
  by_cases hhead : C (rest.headD r.stop)
  · exact (hbefore ⟨i, _⟩ hhead).promptAt i rest hhead
  · exact hother hviable i rest hhead

/-! ## Choosing by a test -/

/-- A rule that goes on if the current symbol passes a test. -/
theorem prompt_ifCurrent {test : Symbol → Bool} {expected : Expected} {rule : Rule α}
    (htest : ∀ s, test s → s.kind ≠ .eof) (hα : Nonempty α) (hviable : Viable F [])
    (h : ∀ i s rest, test s → r.PromptAt rule i (s :: rest) (fun _ ↦ F) F) :
    r.Prompt (do if test (← current).symbol then rule else reject expected) F := by
  refine ⟨hα, hviable, fun i rest ↦ promptAt_current ?_⟩
  split
  · rename_i hpass
    obtain ⟨s, rest, rfl⟩ := exists_cons_of_headD (r := r) (htest _ hpass)
    exact h i s rest hpass
  · exact promptAt_reject hviable

/-- A rule that takes the current symbol if it passes a test, and goes on. -/
theorem prompt_take {test : Symbol → Bool} {expected : Expected} {next : Entry → Rule α}
    (htest : ∀ s, test s → s.kind ≠ .eof) (hsupply : ∃ s ∈ supplies, test s)
    (hnext : ∀ e : Entry, test e.symbol → r.Prompt (next e) fun t ↦ F (e.symbol :: t)) :
    r.Prompt (do if test (← current).symbol then next (← take) else reject expected) F := by
  obtain ⟨s, hs, hpass⟩ := hsupply
  have hsupplied := hnext ⟨0, s⟩ hpass
  exact prompt_ifCurrent htest hsupplied.nonempty (.of_supply hs hsupplied.viable)
    fun i s rest hpass hstop ↦ ((hnext ⟨i, s⟩ hpass).promptAt (i + 1) rest hstop).behind (s := [s])

/-- A rule that takes the current symbol if it passes a test, and nothing else. -/
theorem prompt_takeOne {test : Symbol → Bool} {expected : Expected}
    (htest : ∀ s, test s → s.kind ≠ .eof) (hsupply : ∃ s ∈ supplies, test s) :
    r.Prompt (do if test (← current).symbol then take else reject expected)
      (One fun s ↦ test s) := by
  obtain ⟨s, hs, hpass⟩ := hsupply
  exact prompt_ifCurrent htest ⟨⟨0, s⟩⟩ (.of_supply hs (.of_finished ⟨s, rfl, hpass⟩))
    fun i s rest hpass _ ↦ .ok (s := [s]) rfl ⟨s, rfl, hpass⟩

theorem kind_ne_eof_of_is (kind : Kind) (hk : kind ≠ .eof) (s : Symbol) (hs : s.is kind) :
    s.kind ≠ .eof :=
  Symbol.is_iff.mp hs ▸ hk

theorem kind_ne_eof_of_isWord {word : String} (s : Symbol) (hs : s.isWord word) : s.kind ≠ .eof :=
  Symbol.kind_of_isWord hs ▸ nofun

theorem expect_prompt (kind : Kind) (hsupply : ∃ s ∈ supplies, s.is kind) :
    r.Prompt (expect kind) (One fun s ↦ s.kind = kind) := by
  have hk : kind ≠ .eof := by
    obtain ⟨s, hs, hkind⟩ := hsupply
    rw [← Symbol.is_iff.mp hkind]
    exact kind_ne_eof_of_mem_supplies s hs
  have h : r.Prompt (expect kind) (One fun s ↦ s.is kind) :=
    prompt_takeOne (kind_ne_eof_of_is kind hk) hsupply
  simpa only [Symbol.is_iff] using h

/-- A statement ends, and its node is complete. -/
theorem prompt_semicolon {first : Entry} {f : Extent → α}
    (h : ∀ semi : Symbol, semi.kind = .semicolon → F [semi]) :
    r.Prompt (do
      let _ ← expect .semicolon
      let e ← extentFrom first
      return f e) F :=
  (expect_prompt .semicolon (by decide)).bind_one
    fun _ semi hsemi ↦ prompt_extentFrom (h semi hsemi)

theorem expectWord_prompt (word : String) (hsupply : ∃ s ∈ supplies, s.isWord word) :
    r.Prompt (expectWord word) (One fun s ↦ s.isWord word) :=
  prompt_takeOne kind_ne_eof_of_isWord hsupply

theorem promptAt_expectWord {word : String} {next : Entry → Rule α}
    (hword : (rest.headD r.stop).isWord word)
    (h : ∀ s rest', rest = s :: rest' → r.PromptAt (next ⟨i, s⟩) (i + 1) rest'
      (fun x t ↦ S x (s :: t)) fun t ↦ F (s :: t)) :
    r.PromptAt (expectWord word >>= next) i rest S F := by
  obtain ⟨s, rest, rfl⟩ := exists_cons_of_headD (r := r) (kind_ne_eof_of_isWord _ hword)
  have hs : s.isWord word := hword
  intro hstop
  rw [run, run_bind_of_ok (run_expectWord hs)]
  exact (h s rest rfl hstop).behind (s := [s])

/-! ## Repetition -/

/-- A loop can stop in front of any symbol, so only its items can fail. -/
theorem many_prompt {test : Symbol → Bool} {item : Entry → Rule α} {p : Phrase β}
    (hitem : ∀ e : Entry, test e.symbol → r.Prompt (item e) fun t ↦ Says p (e.symbol :: t)) :
    r.Prompt (many test item) (Says (Many p)) := by
  refine ⟨⟨[]⟩, .of_finished .many_nil, fun i rest hstop ↦ ?_⟩
  simp only [run, Rule.run]
  generalize rest.length = fuel
  induction fuel generalizing i rest with
  | zero => exact .ok (s := []) rfl .many_nil
  | succ fuel ih =>
    rw [Cursor.repeatWhile]
    split
    · rename_i hgo
      cases rest with
      | nil => simp at hgo
      | cons first rest =>
        have htest : test first := by simpa [Cursor.current] using hgo
        have hfirst := (hitem ⟨i, first⟩ htest).promptAt (i + 1) rest hstop
        refine PromptOutcome.behind (s := [first])
          (hfirst.bind (fun x s rest' hs ↦ ?_) fun s hs ↦ ?_)
        · exact ((ih _ _).imp (fun _ _ ht ↦ hs.many_cons ht) fun _ ht ↦ hs.many_cons ht).map
            fun _ _ ht ↦ ht
        · exact .of_finished (hs.many_cons .many_nil)
    · exact .ok (s := []) rfl .many_nil

/-- Phrases with commas between them. -/
theorem separated_prompt {item : Rule α} {p : Phrase β} (hitem : r.Prompt item (Says p)) :
    r.Prompt (separated item) (Says (Separated p)) := by
  have hbehind : r.Prompt (many (·.is .comma) fun _ ↦ item) (Says (Many (Behind .comma p))) :=
    many_prompt fun e he ↦ hitem.imp fun _ hs ↦ hs.behind (Symbol.is_iff.mp he)
  refine hitem.bind fun x s hs ↦ hbehind.returning fun t ht ↦ ?_
  choose y hy using hs
  choose ys hys using ht
  exact fun i ↦ ⟨_, .mk (hy i) (hys _)⟩

/-! ## Bodies -/

/-- Statements, any of which may be the last. -/
theorem statements_prompt {starts : Symbol → Bool} {statement : Entry → Rule α} {p : Phrase β}
    (h : ∀ e : Entry, starts e.symbol → r.Prompt (statement e) fun t ↦ Says p (e.symbol :: t)) :
    r.Prompt (statements starts statement) (Says (Statements p)) := by
  refine (many_prompt (p := Item p) fun e he ↦ ?_).returning fun s hs ↦ ?_
  · split
    · rename_i hsemi
      exact prompt_pure fun i ↦ ⟨none, .empty (Symbol.is_iff.mp hsemi)⟩
    · rename_i hsemi
      refine (h e (by simpa [hsemi] using he)).returning fun t ht ↦ ?_
      exact ht.imp fun i x hx ↦ ⟨some x, .some hx⟩
  · exact hs.imp fun i xs hxs ↦ ⟨_, statements_of_many hxs⟩

/-- A block that is begun is finished with its brace. -/
theorem block_prompt {starts : Symbol → Bool} {expected : Expected} {statement : Entry → Rule α}
    {p : Phrase β}
    (h : ∀ e : Entry, starts e.symbol → r.Prompt (statement e) fun t ↦ Says p (e.symbol :: t)) :
    r.Prompt (block starts expected statement) (Says (Block p)) := by
  refine (expect_prompt .leftBrace (by decide)).bind_one fun _ left hleft ↦ ?_
  refine (statements_prompt h).bind fun xs s hs ↦ ?_
  refine prompt_take (kind_ne_eof_of_is .rightBrace nofun) (by decide) fun e hr ↦ prompt_pure ?_
  choose ys hys using hs
  exact fun i ↦ ⟨_, .mk hleft (hys _) (Symbol.is_iff.mp hr)⟩

end Reader

end ProtoSchema
