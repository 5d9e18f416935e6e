import Mathlib.Tactic.SplitIfs
import ProtoSchema.Proofs.Grammar.Derivation
import ProtoSchema.Proofs.Grammar.Reading

/-!
# The rule for a statement

The first word of a statement tells which rule reads it, and in the body of a message the symbol
behind the word has a say as well.  `MemberRule` and `DirectiveRule` have the choice in one place,
with one case for each way that it can go.

What the rules read is told from the choice: some rule is chosen, and its case says in front of
which symbols.  What they accept is told the other way round: a rule with the symbols of its case is
the one that is chosen.  `memberFrom_eq_bind` states both for the members of a message, and
`DirectiveRule.eq` with `DirectiveRule.directiveRule_directiveFrom` for the directives of a file.

Everything else that has to know how a statement is chosen takes the choice apart with `cases`: what
is read, what is accepted, where reading breaks off and what is unmet.  So the tests of
`Grammar.memberFrom` are unfolded here and nowhere else, and their order is dealt with once.

## What is here

* `MemberRule` — the choice in the body of a message.  Its cases exclude each other, although the
  tests of the rule do not: each case says of the symbols what the tests before it have ruled out.
* `memberFrom_eq_bind` — the rule looks at the symbol behind the word, and goes on as the choice
  says.
* `MemberRule.group` — a label and `group` make a group.
* `DirectiveRule` — the choice at the top of a file, where the word alone decides.
* `startsDirective_iff` — the words that can begin a directive, as the test of the rule has them.
-/

set_option autoImplicit false

namespace ProtoSchema

open Rule Grammar

/-! ## The body of a message -/

/-- The rule for the statement of a message body that begins with the two symbols. -/
inductive MemberRule (first : Entry) (next : Symbol) : Rule (Member Extent) → Prop
  | field (hdot : next.kind = .dot) :
    MemberRule first next (do let f ← fieldFrom first; return .field f)
  | message (hword : first.symbol.isWord "message") (hdot : next.kind ≠ .dot) :
    MemberRule first next (messageFrom first)
  | enumType (hword : first.symbol.isWord "enum") (hdot : next.kind ≠ .dot) :
    MemberRule first next (do let e ← enumFrom first; return .enumType e)
  | extend (hword : first.symbol.isWord "extend") (hdot : next.kind ≠ .dot) :
    MemberRule first next (extendFrom first)
  | extensions (hword : first.symbol.isWord "extensions") (hdot : next.kind ≠ .dot) :
    MemberRule first next (do let e ← extensionsFrom first; return .extensions e)
  | setting (hword : first.symbol.isWord "option") (hdot : next.kind ≠ .dot) :
    MemberRule first next (do let s ← settingFrom first; return .setting s)
  | oneOf (hword : first.symbol.isWord "oneof") (hdot : next.kind ≠ .dot) :
    MemberRule first next (do let o ← oneOfFrom first; return .oneOf o)
  | reserved (hword : first.symbol.isWord "reserved") (hdot : next.kind ≠ .dot) :
    MemberRule first next (do let r ← reservedFrom first; return .reserved r)
  | mapField (hword : first.symbol.isWord "map") (hless : next.kind = .less) :
    MemberRule first next (do let m ← mapFieldFrom first; return .mapField m)
  | fieldOrGroup (hwords : ∀ w ∈ statementWords, ¬first.symbol.isWord w) (hdot : next.kind ≠ .dot)
    (hmap : first.symbol.isWord "map" → next.kind ≠ .less) :
    MemberRule first next (fieldOrGroupFrom first)

/-- The current symbol, which stands behind the first one, makes the choice. -/
theorem memberFrom_eq_bind (first : Entry) : ∃ choice : Entry → Rule (Member Extent),
    memberFrom first = current >>= choice ∧
      ∀ e rule, MemberRule first e.symbol rule ↔ choice e = rule := by
  refine ⟨_, rfl, fun e rule ↦ ⟨fun h ↦ ?_, ?_⟩⟩
  · cases h with
    | field hdot => exact if_pos (Symbol.is_iff.mpr hdot)
    | message hword hdot | enumType hword hdot | extend hword hdot | extensions hword hdot
    | setting hword hdot | oneOf hword hdot | reserved hword hdot =>
      simp only [Symbol.is_eq_false_iff.mpr hdot, Symbol.isWord_eq hword, String.reduceBEq,
        Bool.false_eq_true, if_false, if_true]
    | mapField hword hless =>
      have hdot : e.symbol.kind ≠ .dot := hless ▸ nofun
      simp only [Symbol.is_eq_false_iff.mpr hdot, Symbol.is_iff.mpr hless, Symbol.isWord_eq hword,
        String.reduceBEq, Bool.and_true, Bool.false_eq_true, if_false, if_true]
    | fieldOrGroup hwords hdot hmap =>
      simp only [statementWords, List.forall_mem_cons] at hwords
      obtain ⟨hmessage, henum, hextend, hextensions, hoption, honeof, hreserved, -⟩ := hwords
      have hmap : ¬(first.symbol.isWord "map" && e.symbol.is .less) := by
        rw [Bool.and_eq_true, Symbol.is_iff, not_and]
        exact hmap
      simp only [Symbol.is_eq_false_iff.mpr hdot, hmessage, henum, hextend, hextensions, hoption,
        honeof, hreserved, hmap, Bool.false_eq_true, if_false]
  · rintro rfl
    dsimp only
    split_ifs with hdot hmessage henum hextend hextensions hoption honeof hreserved hmap
    case pos => exact .field (Symbol.is_iff.mp hdot)
    all_goals replace hdot : e.symbol.kind ≠ .dot := fun hk ↦ hdot (Symbol.is_iff.mpr hk)
    · exact .message hmessage hdot
    · exact .enumType henum hdot
    · exact .extend hextend hdot
    · exact .extensions hextensions hdot
    · exact .setting hoption hdot
    · exact .oneOf honeof hdot
    · exact .reserved hreserved hdot
    · obtain ⟨hword, hless⟩ := Bool.and_eq_true_iff.mp hmap
      exact .mapField hword (Symbol.is_iff.mp hless)
    · refine .fieldOrGroup ?_ hdot fun hword hless ↦ hmap ?_
      · simp [statementWords, hmessage, henum, hextend, hextensions, hoption, honeof, hreserved]
      · rw [hword, Symbol.is_iff.mpr hless, Bool.and_self]

/-- A label in front of `group` begins a group. -/
theorem MemberRule.group {first : Entry} {next : Symbol} {label : Label}
    (hfirst : first.symbol.isWord label.word) (hnext : next.isWord "group") :
    MemberRule first next (fieldOrGroupFrom first) := by
  have hk := Symbol.kind_of_isWord hnext
  refine .fieldOrGroup (fun w hw ↦ ?_) (hk ▸ nofun) fun _ ↦ hk ▸ nofun
  rw [Symbol.isWord_eq hfirst, beq_iff_eq]
  rintro rfl
  cases label <;> revert hw <;> decide

/-! ## Files -/

/-- The rule for the directive that begins with the symbol. -/
inductive DirectiveRule (first : Entry) : Rule (Directive Extent) → Prop
  | importFile (hword : first.symbol.isWord "import") :
    DirectiveRule first (do let i ← importFrom first; return .importFile i)
  | package (hword : first.symbol.isWord "package") :
    DirectiveRule first (do let p ← packageFrom first; return .package p)
  | setting (hword : first.symbol.isWord "option") :
    DirectiveRule first (do let s ← settingFrom first; return .member (.setting s))
  | message (hword : first.symbol.isWord "message") :
    DirectiveRule first (do let m ← messageFrom first; return .member m)
  | enumType (hword : first.symbol.isWord "enum") :
    DirectiveRule first (do let e ← enumFrom first; return .member (.enumType e))
  | extend (hword : first.symbol.isWord "extend") :
    DirectiveRule first (do let m ← extendFrom first; return .member m)
  | service (hword : first.symbol.isWord "service") :
    DirectiveRule first (do let s ← serviceFrom first; return .service s)

/-- A symbol begins a directive if it is one of seven words. -/
theorem startsDirective_iff {s : Symbol} :
    startsDirective s ↔ ∃ word ∈ directiveWords, s.isWord word := by
  rw [startsDirective, Bool.and_eq_true, List.contains_iff_mem]
  constructor
  · rintro ⟨hk, hmem⟩
    exact ⟨s.lexeme, hmem, Symbol.isWord_iff.mpr ⟨Symbol.is_iff.mp hk, rfl⟩⟩
  · rintro ⟨word, hmem, hword⟩
    obtain ⟨hk, rfl⟩ := Symbol.isWord_iff.mp hword
    exact ⟨Symbol.is_iff.mpr hk, hmem⟩

namespace DirectiveRule

variable {first : Entry} {rule : Rule (Directive Extent)}

/-- The rule that is chosen is the one that reads the directive. -/
theorem eq (h : DirectiveRule first rule) : directiveFrom first = rule := by
  cases h with
  | importFile hword | package hword | setting hword | message hword | enumType hword
  | extend hword | service hword =>
    simp only [directiveFrom, Symbol.isWord_eq hword, String.reduceBEq, Bool.false_eq_true,
      if_false, if_true]

/-- What a rule is chosen for begins a directive. -/
theorem starts (h : DirectiveRule first rule) : startsDirective first.symbol := by
  cases h with
  | importFile hword | package hword | setting hword | message hword | enumType hword
  | extend hword | service hword => exact startsDirective_iff.mpr ⟨_, by decide, hword⟩

end DirectiveRule

/-- A symbol that begins directives begins that of the rule which runs. -/
theorem directiveRule_directiveFrom {first : Entry} (h : startsDirective first.symbol) :
    DirectiveRule first (directiveFrom first) := by
  obtain ⟨word, hmem, hword⟩ := startsDirective_iff.mp h
  obtain ⟨rule, hrule⟩ : ∃ rule, DirectiveRule first rule := by
    simp only [directiveWords, List.mem_cons, List.not_mem_nil, or_false] at hmem
    rcases hmem with rfl | rfl | rfl | rfl | rfl | rfl | rfl
    · exact ⟨_, .importFile hword⟩
    · exact ⟨_, .package hword⟩
    · exact ⟨_, .setting hword⟩
    · exact ⟨_, .message hword⟩
    · exact ⟨_, .enumType hword⟩
    · exact ⟨_, .extend hword⟩
    · exact ⟨_, .service hword⟩
  rwa [hrule.eq]

end ProtoSchema
