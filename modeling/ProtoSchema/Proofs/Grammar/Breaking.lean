import ProtoSchema.Proofs.Grammar.Completeness.Schema

/-!
# Where reading breaks off

Symbols can be well formed and still say what a configuration does not allow: a field has a negative
number, or a block is nested too deep.  Reading them breaks off at a symbol that is known, and
nothing behind it is looked at.  As a phrase says which symbols make up which tree, a
`Phrase Failure` says which symbols lead to which failure.

The relations here are the lines of the grammar cut off at such a symbol.  What stands in front of
it is derived as in `Proofs/Grammar/Derivation.lean`, and `Reader.schema_breaks` shows that the
rules come to the failure.

## What is here

* `Phrase.Then`, `Phrase.OpenBlock` — what is read in full, and behind it what leads to a failure.
* `Phrase.NegativeNumber` — the one line at which a number is objected to, and `Body.Breaks` at
  depth zero the one at which a body is.
* `Phrase.Numbered.Breaks` to `Schema.Breaks` — the lines of the grammar that such a line can be
  inside of.  There is no line for options, ranges or services: nothing in them depends on a
  configuration.
* `Reader.Breaks`, `Reader.BreaksBehind` — that a rule fails as the symbols say, with anything at
  all behind them.  `Reader.bind_error` and `Reader.many_breaks` follow the constructors of rules.
* `Reader.fieldFrom_breaks` to `Reader.directiveFrom_breaks` — one lemma for each line, and
  `Reader.readBody_breaks`, by induction on the depth.
* `Reader.schema_breaks` — a file.
-/

set_option autoImplicit false

namespace ProtoSchema

open Grammar Rule Phrase

variable {ν : Type}

/-! ## What leads to a failure -/

/-- A phrase, and behind it what leads to a failure. -/
inductive Phrase.Then {α : Type} (p : Phrase α) (q : Phrase Failure) : Phrase Failure
  | mk {i : Nat} {x : α} {e : Failure} {s t : List Symbol} (hx : p i x s)
    (he : q (i + s.length) e t) : Then p q i e (s ++ t)

/-- The start of a block, one of whose statements leads to a failure. -/
abbrev Phrase.OpenBlock {α : Type} (p : Phrase α) (q : Phrase Failure) : Phrase Failure :=
  Behind .leftBrace ((Statements p).Then q)

section

variable (config : Config) (note : Extent → ν)

/-- A negative number where none is allowed. -/
inductive Phrase.NegativeNumber : Phrase Failure
  | mk {i : Nat} {n : Int} {s : List Symbol} (hn : Integer i n s) (hneg : n < 0)
    (ha : config.allowNegative = false) :
    NegativeNumber i ⟨i, .violation (.negativeFieldNumber n)⟩ s

/-- A name and an equals sign, and a number that is not allowed. -/
inductive Phrase.Numbered.Breaks : Phrase Failure
  | mk {i : Nat} {name eq : Symbol} {e : Failure} {s : List Symbol} (hname : name.isName)
    (heq : eq.kind = .equal) (he : NegativeNumber config (i + 2) e s) : Breaks i e (name :: eq :: s)

/-- A field whose number is not allowed, with a label or without. -/
inductive Field.Breaks : Phrase Failure
  | labelled {i : Nat} {l : Symbol} {label : Label} {type : TypeRef ν} {e : Failure}
    {s t : List Symbol} (hl : labelOf? l = some label) (htype : type.Derives note (i + 1) s)
    (he : Numbered.Breaks config (i + 1 + s.length) e t) : Breaks i e (l :: (s ++ t))
  | plain {i : Nat} {first : Symbol} {type : TypeRef ν} {e : Failure} {s t : List Symbol}
    (hl : labelOf? first = none) (htype : type.Derives note i (first :: s))
    (he : Numbered.Breaks config (i + 1 + s.length) e t) : Breaks i e (first :: (s ++ t))

/-- A map field whose number is not allowed. -/
inductive MapField.Breaks : Phrase Failure
  | mk {i : Nat} {word less key comma greater : Symbol} {type : TypeRef ν} {e : Failure}
    {s t : List Symbol} (hword : word.isWord "map") (hless : less.kind = .less)
    (hkey : key.kind = .primitiveType) (hcomma : comma.kind = .comma)
    (htype : type.Derives note (i + 4) s) (hgreater : greater.kind = .greater)
    (he : Numbered.Breaks config (i + 4 + s.length + 1) e t) :
    Breaks i e (word :: less :: key :: comma :: (s ++ greater :: t))

/-- A field of a oneof whose number is not allowed. -/
inductive Grammar.OneOfItem.Breaks : Phrase Failure
  | mk {i : Nat} {first next : Symbol} {e : Failure} {s : List Symbol}
    (he : Field.Breaks config note i e (first :: next :: s))
    (hfirst : first.isWord "option" → next.kind = .dot) : Breaks i e (first :: next :: s)

/-- A oneof with a field that leads to a failure. -/
inductive OneOf.Breaks : Phrase Failure
  | mk {i : Nat} {word name : Symbol} {e : Failure} {s : List Symbol} (hword : word.isWord "oneof")
    (hname : name.isName)
    (he : OpenBlock (OneOfItem.Derives config note) (OneOfItem.Breaks config note) (i + 2) e s) :
    Breaks i e (word :: name :: s)

section Members

variable (inner : Body → Phrase (List (Member ν))) (breaks : Body → Phrase Failure)

/-- A message whose body leads to a failure. -/
inductive Member.BreaksMessage : Phrase Failure
  | mk {i : Nat} {word name : Symbol} {e : Failure} {s : List Symbol}
    (hword : word.isWord "message")
    (hname : name.isName) (he : breaks .message (i + 2) e s) : BreaksMessage i e (word :: name :: s)

/-- A group whose number is not allowed, or whose body leads to a failure. -/
inductive Member.BreaksGroup : Phrase Failure
  | number {i : Nat} {l word : Symbol} {label : Label} {e : Failure} {s : List Symbol}
    (hl : labelOf? l = some label) (hword : word.isWord "group")
    (he : Numbered.Breaks config (i + 2) e s) : BreaksGroup i e (l :: word :: s)
  | body {i : Nat} {l word : Symbol} {label : Label} {name : String} {n : Int}
    {options : List (Setting ν)} {e : Failure} {s t : List Symbol} (hl : labelOf? l = some label)
    (hword : word.isWord "group") (hn : Numbered Integer config note (i + 2) (name, n, options) s)
    (he : breaks .message (i + 2 + s.length) e t) : BreaksGroup i e (l :: word :: (s ++ t))

/-- An extension whose body leads to a failure. -/
inductive Member.BreaksExtend : Phrase Failure
  | mk {i : Nat} {word : Symbol} {type : TypeRef ν} {e : Failure} {s t : List Symbol}
    (hword : word.isWord "extend") (htype : type.Derives note (i + 1) s)
    (he : breaks .extension (i + 1 + s.length) e t) : BreaksExtend i e (word :: (s ++ t))

/-- A member of a body that leads to a failure. -/
inductive Member.Breaks : Body → Phrase Failure
  | field {b : Body} {i : Nat} {e : Failure} {first next : Symbol} {s : List Symbol}
    (he : Field.Breaks config note i e (first :: next :: s)) (hb : b.readsField first next) :
    Breaks b i e (first :: next :: s)
  | group {b : Body} {i : Nat} {e : Failure} {s : List Symbol}
    (he : BreaksGroup config note breaks i e s) : Breaks b i e s
  | message {i : Nat} {e : Failure} {s : List Symbol} (he : BreaksMessage breaks i e s) :
    Breaks .message i e s
  | extend {i : Nat} {e : Failure} {word next : Symbol} {s : List Symbol}
    (he : BreaksExtend note breaks i e (word :: next :: s)) (hnext : next.kind ≠ .dot) :
    Breaks .message i e (word :: next :: s)
  | oneOf {i : Nat} {e : Failure} {s : List Symbol} (he : OneOf.Breaks config note i e s) :
    Breaks .message i e s
  | mapField {i : Nat} {e : Failure} {s : List Symbol} (he : MapField.Breaks config note i e s) :
    Breaks .message i e s

end Members

/-- The body of a block that must not be there at all, or one with a member that leads to a
failure. -/
def Body.Breaks : (depth : Nat) → Body → Phrase Failure
  | 0, _ => fun i e s =>
    e = ⟨i, .violation (.nestingTooDeep config.maxDepth)⟩ ∧ ∃ l, s = [l] ∧ l.kind = .leftBrace
  | depth + 1, b =>
    OpenBlock (Member.Derives Integer config note (Body.Derives Integer config note depth) b)
    (Member.Breaks config note (Body.Breaks depth) b)

/-- A statement at the top of a file that leads to a failure. -/
inductive Directive.Breaks : Phrase Failure
  | message {i : Nat} {e : Failure} {s : List Symbol}
    (he : Member.BreaksMessage (Body.Breaks config note config.maxDepth) i e s) : Breaks i e s
  | extend {i : Nat} {e : Failure} {s : List Symbol}
    (he : Member.BreaksExtend note (Body.Breaks config note config.maxDepth) i e s) : Breaks i e s

/-- A file with a statement that leads to a failure. -/
inductive Schema.Breaks : Phrase Failure
  | mk {i : Nat} {v? : Option (VersionStatement ν)} {e : Failure} {s t : List Symbol}
    (hv : VersionStatement.Optional note i v? s)
    (he : ((Statements (Directive.Derives Integer config note)).Then (Directive.Breaks config note))
      (i + s.length) e t) : Breaks i e (s ++ t)

end

section

variable {config : Config} {note : Extent → ν} {i : Nat} {e : Failure} {s : List Symbol}

theorem Phrase.Numbered.Breaks.exists_cons (h : Numbered.Breaks config i e s) :
    ∃ name t, s = name :: t ∧ name.isName := by
  obtain ⟨hname, -⟩ := h
  exact ⟨_, _, rfl, hname⟩

theorem Field.Breaks.startsType_next {first next : Symbol}
    (h : Field.Breaks config note i e (first :: next :: s)) : startsType next := by
  generalize hs : first :: next :: s = t at h
  cases h with
  | labelled hl htype =>
    obtain ⟨a, u, rfl, ha⟩ := htype.exists_cons
    obtain ⟨-, hs⟩ := List.cons.inj hs
    obtain ⟨rfl, -⟩ := List.cons.inj hs
    exact ha
  | @plain _ _ _ _ u v _ htype hn =>
    obtain ⟨rfl, hnext⟩ := List.cons.inj hs
    cases u with
    | nil =>
      obtain ⟨name, w, rfl, hname⟩ := hn.exists_cons
      obtain ⟨rfl, -⟩ := List.cons.inj hnext
      exact startsType_of_isName hname
    | cons a u =>
      obtain ⟨rfl, -⟩ := List.cons.inj hnext
      exact htype.startsType_next

theorem Member.BreaksGroup.exists_cons_cons {breaks : Body → Phrase Failure}
    (h : Member.BreaksGroup config note breaks i e s) :
    ∃ l word t, s = l :: word :: t ∧ word.isWord "group" := by
  cases h with
  | number _ hword | body _ hword => exact ⟨_, _, _, rfl, hword⟩

theorem Body.Breaks.exists_cons {depth : Nat} {b : Body}
    (h : Body.Breaks config note depth b i e s) : ∃ l t, s = l :: t ∧ l.kind = .leftBrace := by
  cases depth with
  | zero =>
    obtain ⟨-, l, rfl, hl⟩ := h
    exact ⟨l, [], rfl, hl⟩
  | succ depth =>
    obtain ⟨hl, -⟩ := h
    exact ⟨_, _, rfl, hl⟩

end

/-! ## Rules that fail -/

namespace Reader

variable {α β : Type} (r : Reader)

/-- The rule fails as the symbols say, whatever comes behind them. -/
def Breaks (rule : Rule α) (q : Phrase Failure) : Prop :=
  ∀ ⦃i e s⦄, q i e s → ∀ rest, r.run rule i (s ++ rest) = .error e

/-- The same of a rule that goes on behind the first symbol. -/
def BreaksBehind (test : Symbol → Prop) (rule : Entry → Rule α) (q : Phrase Failure) : Prop :=
  ∀ ⦃i e s⦄, q i e s → ∃ first t, s = first :: t ∧ test first ∧
    ∀ rest, r.run (rule ⟨i, first⟩) (i + 1) (t ++ rest) = .error e

variable {r}

/-- What begins with a failure fails. -/
theorem bind_error {first : Rule α} {next : α → Rule β} {c : Cursor} {e : Failure}
    (h : first.run r.config r.nested c = .error e) :
    (first >>= next).run r.config r.nested c = .error e := by
  rw [run_bind, h, Outcome.error_bind]

theorem bind_error_of_ok {first : Rule α} {next : α → Rule β} {c c₁ : Cursor} {x : α} {e : Failure}
    (hfirst : first.run r.config r.nested c = .ok (x, c₁))
    (hnext : (next x).run r.config r.nested c₁ = .error e) :
    (first >>= next).run r.config r.nested c = .error e :=
  (run_bind_of_ok hfirst).trans hnext

/-- A repetition fails when one of its items does. -/
theorem many_breaks {follows : Symbol → Prop} {test : Symbol → Bool} {item : Entry → Rule α}
    {f : α → β} {p : Phrase β} {q : Phrase Failure}
    (hitem : r.AcceptsBehind follows (fun s ↦ test s) item f p) (hfollows : ∀ s, test s → follows s)
    (hbreaks : r.BreaksBehind (fun s ↦ test s) item q) :
    r.Breaks (many test item) ((Many p).Then q) := by
  rintro i e _ @⟨_, ys, _, s, t, hys, he⟩ rest
  suffices hfuel : ∀ fuel, (s ++ t).length ≤ fuel →
      Cursor.repeatWhile test (fun e c ↦ (item e).run r.config r.nested c) fuel
        ⟨i, s ++ t ++ rest, r.stop⟩ = .error e by
    exact hfuel _ (by simp)
  induction hys with
  | nil =>
    intro fuel hfuel
    obtain ⟨first, t, rfl, htest, hrun⟩ := hbreaks he
    cases fuel with
    | zero => simp at hfuel
    | succ fuel =>
      rw [List.nil_append, List.cons_append, Cursor.repeatWhile,
        if_pos (by simpa [Cursor.current] using htest)]
      exact congrArg (Except.bind · _) (hrun rest)
  | @cons i y ys s u hy hys ih =>
    intro fuel hfuel
    obtain ⟨first, v, rfl, htest, hrun⟩ := hitem hy
    cases fuel with
    | zero => simp at hfuel
    | succ fuel =>
      have hnext : follows ((u ++ t ++ rest).headD r.stop) := by
        cases hys with
        | nil =>
          obtain ⟨next, w, rfl, hnext, -⟩ := hbreaks he
          exact hfollows next hnext
        | cons hz =>
          obtain ⟨next, w, rfl, hnext, -⟩ := hitem hz
          exact hfollows next hnext
      obtain ⟨x, -, ex⟩ := hrun (u ++ t ++ rest) hnext
      rw [List.length_append, ← Nat.add_assoc] at he
      have erest := ih he fuel (by simp at hfuel ⊢; omega)
      have hassoc : first :: v ++ u ++ t ++ rest = first :: (v ++ (u ++ t ++ rest)) := by simp
      rw [hassoc, Cursor.repeatWhile, if_pos (by simpa [Cursor.current] using htest)]
      show Except.bind (r.run (item ⟨i, first⟩) (i + 1) (v ++ (u ++ t ++ rest))) _ = _
      rw [ex, Outcome.ok_bind, erest]
      rfl

section Statements

variable {starts : Symbol → Bool} {statement : Entry → Rule α} {f : α → β} {p : Phrase β}
  {q : Phrase Failure} (haccepts : r.AcceptsBehind Anything (fun s ↦ starts s) statement f p)
  (hbreaks : r.BreaksBehind (fun s ↦ starts s) statement q)

include haccepts hbreaks

/-- Statements fail when one of them does. -/
theorem statements_breaks (hstarts : ∀ s, starts s → s.kind ≠ .semicolon) :
    r.Breaks (statements starts statement) ((Statements p).Then q) := by
  rintro i e _ @⟨_, xs, _, s, t, hxs, he⟩ rest
  obtain ⟨ys, rfl, hys⟩ := exists_many_of_statements hxs
  have hitem : r.BreaksBehind (fun s ↦ s.is .semicolon || starts s)
      (fun first ↦ do
        if first.symbol.is .semicolon then return none
        else
          let a ← statement first
          return some a) q := by
    intro i e s he
    obtain ⟨first, t, rfl, hfirst, hrun⟩ := hbreaks he
    refine ⟨first, t, rfl, by simp [hfirst], fun rest ↦ ?_⟩
    have hsemi : first.is .semicolon = false :=
      Bool.eq_false_iff.mpr fun hsemi ↦ hstarts first hfirst (Symbol.is_iff.mp hsemi)
    simp only [hsemi, Bool.false_eq_true, if_false]
    exact bind_error (hrun rest)
  exact bind_error
    (many_breaks (item_accepts haccepts hstarts) (fun _ _ ↦ trivial) hitem ⟨hys, he⟩ rest)

/-- A block fails when one of its statements does, and its end is not looked for. -/
theorem block_breaks (expected : Expected) (hstarts : ∀ s, starts s → s.kind ≠ .semicolon) :
    r.Breaks (block starts expected statement) (OpenBlock p q) := by
  rintro i e _ @⟨_, l, _, s, hl, he⟩ rest
  exact bind_error_of_ok (run_expect hl)
    (bind_error (statements_breaks haccepts hbreaks hstarts he rest))

end Statements

/-! ## Numbers -/

variable (note : Extent → ν) {i : Nat} {e : Failure} {s t : List Symbol} {rest : List Symbol}

theorem run_fieldNumber_negative (h : NegativeNumber r.config i e s) :
    r.run fieldNumber i (s ++ rest) = .error e := by
  obtain ⟨hn, hneg, ha⟩ := h
  refine bind_error_of_ok (run_current _) (bind_error_of_ok (run_integer hn) ?_)
  rw [if_pos hneg]
  refine bind_error ?_
  rw [Rule.run, if_neg (by rw [ha]; exact Bool.false_ne_true)]
  rfl

theorem run_numbered_negative (h : Numbered.Breaks r.config i e t)
    {next : String → Int → List (Setting Extent) → Rule β} :
    r.run (do
      let name ← Grammar.name
      let _ ← expect .equal
      let number ← fieldNumber
      let options ← bracketedSettings
      next name number options) i (t ++ rest) = .error e := by
  obtain ⟨hname, heq, he⟩ := h
  exact bind_error_of_ok (run_name hname) (bind_error_of_ok (run_expect heq)
    (bind_error (run_fieldNumber_negative he)))

theorem other_dot_of_breaks {config : Config} (h : Numbered.Breaks config i e t) :
    Other .dot ((t ++ rest).headD r.stop) := by
  obtain ⟨hname, -⟩ := h
  exact Symbol.kind_ne_of_isName hname nofun nofun

/-- A field fails as its symbols say. -/
theorem fieldFrom_breaks :
    r.BreaksBehind (fun s ↦ startsType s) fieldFrom (Field.Breaks r.config note) := by
  intro i e u h
  cases h with
  | @labelled _ l label type _ s t hl htype he =>
    refine ⟨l, _, rfl, startsType_of_isWord (isWord_of_labelOf? hl), fun rest ↦ ?_⟩
    obtain ⟨type, rfl, etype⟩ := typeRef_accepts note htype (t ++ rest) (other_dot_of_breaks he)
    rw [List.append_assoc]
    simp only [run, fieldFrom, hl, Option.isSome_some, if_true]
    exact bind_error_of_ok etype (run_numbered_negative he)
  | @plain _ first type _ s t hl htype he =>
    obtain ⟨hfirst, hrun⟩ := (typeRefFrom_accepts note (r := r)).of_cons htype
    refine ⟨first, _, rfl, hfirst, fun rest ↦ ?_⟩
    obtain ⟨type, rfl, etype⟩ := hrun (t ++ rest) (other_dot_of_breaks he)
    have hlen : i + (first :: s).length = i + 1 + s.length := by simp; omega
    rw [hlen] at etype
    rw [List.append_assoc]
    simp only [run, fieldFrom, hl, Option.isSome_none, Bool.false_eq_true, if_false]
    exact bind_error_of_ok etype (run_numbered_negative he)

theorem mapFieldFrom_breaks :
    r.BreaksBehind (·.isWord "map") mapFieldFrom (MapField.Breaks r.config note) := by
  rintro i e _ @⟨_, word, less, key, comma, greater, type, _, s, t, hword, hless, hkey, hcomma,
    htype, hgreater, he⟩
  refine ⟨word, _, rfl, hword, fun rest ↦ ?_⟩
  obtain ⟨type, rfl, etype⟩ := typeRef_accepts note htype (greater :: (t ++ rest))
    (other_of_kind hgreater nofun)
  rw [List.cons_append, List.cons_append, List.cons_append, List.append_assoc]
  exact bind_error_of_ok (run_expect hless) (bind_error_of_ok (run_expect hkey)
    (bind_error_of_ok (run_expect hcomma) (bind_error_of_ok etype
      (bind_error_of_ok (run_expect hgreater) (run_numbered_negative he)))))

/-! ## Members -/

theorem oneOfItem_breaks :
    r.BreaksBehind (fun s ↦ startsType s) oneOfItem (OneOfItem.Breaks r.config note) := by
  rintro i e _ @⟨_, first, next, _, t, he, hfirst⟩
  obtain ⟨_, _, hs, hstarts, hrun⟩ := fieldFrom_breaks note he
  obtain ⟨rfl, rfl⟩ := List.cons.inj hs
  exact ⟨first, _, rfl, hstarts,
    fun rest ↦ (run_oneOfItem_field hfirst).trans (bind_error (hrun rest))⟩

theorem oneOfFrom_breaks :
    r.BreaksBehind (·.isWord "oneof") oneOfFrom (OneOf.Breaks r.config note) := by
  rintro i e _ @⟨_, word, name, _, s, hword, hname, he⟩
  refine ⟨word, _, rfl, hword, fun rest ↦ ?_⟩
  exact bind_error_of_ok (run_name hname) (bind_error (block_breaks (oneOfItem_accepts note)
    (oneOfItem_breaks note) .oneOfItem (fun s hs ↦ (other_of_startsType s hs).1) he rest))

/-- A statement of a message body fails as the rule for it does. -/
theorem member_breaks {word next : Symbol} {w : String} {rule : Rule (Member Extent)}
    (hs : s = word :: next :: t) (hword : word.isWord w)
    (hrule : MemberRule ⟨i, word⟩ next rule)
    (hrun : ∀ rest, r.run rule (i + 1) (next :: t ++ rest) = .error e) :
    ∃ first u, s = first :: u ∧ startsType first ∧
      ∀ rest, r.run (memberFrom ⟨i, first⟩) (i + 1) (u ++ rest) = .error e :=
  ⟨word, next :: t, hs, startsType_of_isWord hword,
    fun rest ↦ (run_memberFrom hrule).trans (hrun rest)⟩

section Blocks

variable {breaks : Body → Phrase Failure}
  (hinner : ∀ b, r.Breaks (Rule.nested b) (breaks b))
  (hleft : ∀ {b i e s}, breaks b i e s → ∃ l t, s = l :: t ∧ l.kind = .leftBrace)

include hinner

theorem messageFrom_breaks :
    r.BreaksBehind (·.isWord "message") messageFrom (Member.BreaksMessage breaks) := by
  rintro i e _ @⟨_, word, name, _, s, hword, hname, he⟩
  refine ⟨word, _, rfl, hword, fun rest ↦ ?_⟩
  exact bind_error_of_ok (run_name hname) (bind_error (hinner _ he rest))

include hleft

theorem extendFrom_breaks :
    r.BreaksBehind (·.isWord "extend") extendFrom (Member.BreaksExtend note breaks) := by
  rintro i e _ @⟨_, word, type, _, s, t, hword, htype, he⟩
  refine ⟨word, _, rfl, hword, fun rest ↦ ?_⟩
  obtain ⟨brace, u, rfl, hbrace⟩ := hleft he
  obtain ⟨type, rfl, etype⟩ :=
    typeRef_accepts note htype (brace :: u ++ rest) (other_of_kind hbrace nofun)
  rw [List.append_assoc]
  exact bind_error_of_ok etype (bind_error (hinner _ he rest))

/-- A group fails as its symbols say. -/
theorem groupFrom_breaks :
    r.BreaksBehind (fun s ↦ ∃ label : Label, s.isWord label.word) fieldOrGroupFrom
      (Member.BreaksGroup r.config note breaks) := by
  intro i e u h
  cases h with
  | @number _ l word label _ s hl hword he =>
    refine ⟨l, _, rfl, ⟨label, isWord_of_labelOf? hl⟩, fun rest ↦ ?_⟩
    refine bind_error_of_ok (run_current _) ?_
    rw [List.cons_append]
    simp only [current_cons, hword, if_true, hl]
    exact bind_error_of_ok (run_expectWord hword) (run_numbered_negative he)
  | @body _ l word label name n options _ s t hl hword hn he =>
    refine ⟨l, _, rfl, ⟨label, isWord_of_labelOf? hl⟩, fun rest ↦ ?_⟩
    obtain ⟨brace, u, rfl, hbrace⟩ := hleft he
    refine bind_error_of_ok (run_current _) ?_
    rw [List.cons_append, List.append_assoc]
    simp only [current_cons, hword, if_true, hl]
    obtain ⟨options, rfl, enumbered⟩ :=
      run_numbered note hn (brace :: u ++ rest) (other_of_kind hbrace nofun)
    exact bind_error_of_ok (run_expectWord hword) (enumbered.trans (bind_error (hinner _ he rest)))

theorem fieldOrGroupFrom_breaks :
    r.BreaksBehind (fun s ↦ startsType s) fieldOrGroupFrom
      (Member.Breaks r.config note breaks .extension) := by
  intro i e u h
  cases h with
  | field he hb =>
    obtain ⟨first, _, hs, hstarts, hrun⟩ := fieldFrom_breaks note he
    obtain ⟨rfl, rfl⟩ := List.cons.inj hs
    exact ⟨_, _, rfl, hstarts, fun rest ↦
      (run_fieldOrGroupFrom (by simpa [Body.readsField] using hb)).trans (bind_error (hrun rest))⟩
  | group he =>
    obtain ⟨l, t, rfl, ⟨label, hl⟩, hrun⟩ := groupFrom_breaks note hinner hleft he
    exact ⟨l, t, rfl, startsType_of_isWord hl, hrun⟩

/-- A member of a message fails as its symbols say. -/
theorem memberFrom_breaks :
    r.BreaksBehind (fun s ↦ startsType s) memberFrom
      (Member.Breaks r.config note breaks .message) := by
  intro i e u h
  cases h with
  | field he hb =>
    obtain ⟨first, _, hs, hstarts, hrun⟩ := fieldFrom_breaks note he
    obtain ⟨rfl, rfl⟩ := List.cons.inj hs
    exact ⟨_, _, rfl, hstarts, fun rest ↦
      (run_memberFrom_field he.startsType_next hb).trans (bind_error (hrun rest))⟩
  | group he =>
    obtain ⟨l, word, t, rfl, hword⟩ := he.exists_cons_cons
    obtain ⟨_, _, hs, ⟨label, hl⟩, hrun⟩ := groupFrom_breaks note hinner hleft he
    obtain ⟨rfl, rfl⟩ := List.cons.inj hs
    exact member_breaks rfl hl (.group hl hword) hrun
  | message he =>
    obtain ⟨hword, hname, he⟩ := he
    obtain ⟨_, _, hs, hstarts, hrun⟩ := messageFrom_breaks hinner (.mk hword hname he)
    obtain ⟨rfl, rfl⟩ := List.cons.inj hs
    exact member_breaks rfl hword (.message hword (kind_ne_dot_of_isName hname)) hrun
  | extend he hnext =>
    obtain ⟨_, _, hs, hword, hrun⟩ := extendFrom_breaks note hinner hleft he
    obtain ⟨rfl, rfl⟩ := List.cons.inj hs
    exact member_breaks rfl hword (.extend hword hnext) hrun
  | oneOf he =>
    obtain ⟨hword, hname, he⟩ := he
    obtain ⟨_, _, hs, hstarts, hrun⟩ := oneOfFrom_breaks note (.mk hword hname he)
    obtain ⟨rfl, rfl⟩ := List.cons.inj hs
    exact member_breaks rfl hword (.oneOf hword (kind_ne_dot_of_isName hname))
      fun rest ↦ bind_error (hrun rest)
  | mapField he =>
    obtain ⟨hword, hless, hkey, hcomma, htype, hgreater, he⟩ := he
    obtain ⟨_, _, hs, hstarts, hrun⟩ :=
      mapFieldFrom_breaks note (.mk hword hless hkey hcomma htype hgreater he)
    obtain ⟨rfl, rfl⟩ := List.cons.inj hs
    exact member_breaks rfl hword (.mapField hword hless) fun rest ↦ bind_error (hrun rest)

end Blocks

/-- The rules for the bodies of blocks fail where the symbols lead to a failure. -/
theorem readBody_breaks (config : Config) {stop : Symbol} (hstop : stop.kind = .eof) (depth : Nat)
    (b : Body) :
    Breaks ⟨config, readBody config depth, stop, hstop⟩ (Rule.nested b)
      (Body.Breaks config note depth b) := by
  induction depth generalizing b with
  | zero =>
    rintro i _ s ⟨rfl, -⟩ rest
    rfl
  | succ depth ih =>
    intro i e s h rest
    let r : Reader := ⟨config, readBody config depth, stop, hstop⟩
    have hinner := readBody_accepts note config hstop depth
    have hleft {b : Body} {i : Nat} {xs : List (Member ν)} {s : List Symbol}
        (h : Body.Derives Integer config note depth b i xs s) := h.exists_cons
    have hleft' {b : Body} {i : Nat} {e : Failure} {s : List Symbol}
        (h : Body.Breaks config note depth b i e s) := h.exists_cons
    have hstarts (s : Symbol) (hs : startsType s) := (other_of_startsType s hs).1
    cases b with
    | message =>
      exact block_breaks (r := r) (memberFrom_accepts note hinner hleft)
        (memberFrom_breaks note ih hleft') .member hstarts h rest
    | extension =>
      exact block_breaks (r := r) (fieldOrGroupFrom_accepts note hinner hleft)
        (fieldOrGroupFrom_breaks note ih hleft') .extendItem hstarts h rest

/-! ## Files -/

section Files

variable {config : Config} {stop : Symbol} {hstop : stop.kind = .eof}

/-- A directive fails as the rule for it does. -/
theorem directive_breaks {r : Reader} {first : Symbol} {rule : Rule (Directive Extent)}
    (hs : s = first :: t) (hrule : DirectiveRule ⟨i, first⟩ rule)
    (hrun : ∀ rest, r.run rule (i + 1) (t ++ rest) = .error e) :
    ∃ first u, s = first :: u ∧ startsDirective first ∧
      ∀ rest, r.run (directiveFrom ⟨i, first⟩) (i + 1) (u ++ rest) = .error e := by
  refine ⟨first, t, hs, hrule.starts, ?_⟩
  rw [hrule.eq]
  exact hrun

/-- A statement at the top of a file fails as its symbols say. -/
theorem directiveFrom_breaks :
    (ofConfig config hstop).BreaksBehind (fun s ↦ startsDirective s) directiveFrom
      (Directive.Breaks config note) := by
  intro i e u h
  have hinner := readBody_breaks note config hstop config.maxDepth
  have hleft {b : Body} {i : Nat} {e : Failure} {s : List Symbol}
      (h : Body.Breaks config note config.maxDepth b i e s) := h.exists_cons
  cases h with
  | message he =>
    obtain ⟨word, t, rfl, hword, hrun⟩ := messageFrom_breaks hinner he
    exact directive_breaks rfl (.message hword) fun rest ↦ bind_error (hrun rest)
  | extend he =>
    obtain ⟨word, t, rfl, hword, hrun⟩ := extendFrom_breaks note hinner hleft he
    exact directive_breaks rfl (.extend hword) fun rest ↦ bind_error (hrun rest)

/-- A file is not read beyond a statement that is not. -/
theorem run_schema_error {q : Phrase Failure} {v? : Option (VersionStatement ν)}
    (hbreaks : (ofConfig config hstop).BreaksBehind (fun s ↦ startsDirective s) directiveFrom q)
    (hv : VersionStatement.Optional note i v? s)
    (ht : ((Statements (Directive.Derives Integer config note)).Then q) (i + s.length) e t)
    (rest : List Symbol) : (ofConfig config hstop).run schema i (s ++ t ++ rest) = .error e := by
  have hsyntax : ¬((t ++ rest).headD stop).isWord "syntax" := by
    obtain @⟨_, ds, e, s₁, s₂, hds, he⟩ := ht
    cases s₁ with
    | nil =>
      obtain ⟨first, u, rfl, hfirst, -⟩ := hbreaks he
      exact not_syntax_of_startsDirective hfirst
    | cons first s₁ => exact not_syntax_of_statements note hds
  have hstarts (s : Symbol) (h : startsDirective s) : s.kind ≠ .semicolon :=
    kind_of_startsDirective h ▸ nofun
  obtain ⟨v?, rfl, ev⟩ :=
    versionStatement_accepts note hv (t ++ rest) hsyntax (r := ofConfig config hstop)
  rw [List.append_assoc]
  exact bind_error_of_ok ev
    (bind_error (statements_breaks (directiveFrom_accepts note) hbreaks hstarts ht rest))

/-- **A file is not read beyond what leads to a failure.** -/
theorem schema_breaks : (ofConfig config hstop).Breaks schema (Schema.Breaks config note) := by
  rintro i e _ ⟨hv, ht⟩ rest
  exact run_schema_error note (directiveFrom_breaks note) hv ht rest

end Files

end Reader

end ProtoSchema
