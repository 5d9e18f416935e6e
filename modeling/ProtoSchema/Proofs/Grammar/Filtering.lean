import ProtoSchema.Parse.Document
import ProtoSchema.Proofs.Grammar.Charges

/-!
# Stricter readings

A configuration is stricter than another if it allows negative numbers of fields in fewer cases, or
blocks to be nested less deep.  Being strict only filters: reading comes to the same, or fails with
a violation of what is strict about it.  In particular a symbol that is unexpected for the one is
unexpected for the other.

This is proved for all rules at once, by induction on the rule.  A rule can depend on the
configuration only where it objects to something, so all there is to know of the grammar is what it
objects to, and of these objections `Grammar.Charged` has only one that a configuration can waive.

## What is here

* `Outcome.Filters` — the relation between two outcomes, and what keeps it: binding, mapping, and
  the turns of a loop.
* `Rule.run_filters` — the induction on the rule.  A rule that depends on nothing else than its
  objections filters, if the bodies of blocks do.
* `Grammar.readBody_filters` — the induction on the depth, where a body that is nested too deep for
  one of the two is the second thing that a configuration decides.
* `Document.ofTokens_filters` — the same of documents, with the failure reported at its place.
-/

set_option autoImplicit false

namespace ProtoSchema

open Grammar Rule

/-- The first reading is like the second, or fails in a way that `E` holds of. -/
def Outcome.Filters {α : Type} (E : Failure → Prop) (x y : Outcome α) : Prop :=
  x = y ∨ ∃ e, E e ∧ x = .error e

namespace Outcome.Filters

variable {α β : Type} {E : Failure → Prop} {x y : Outcome α}

theorem refl (x : Outcome α) : x.Filters E x := .inl rfl

theorem error {e : Failure} (h : E e) (y : Outcome α) : Filters E (.error e) y :=
  .inr ⟨e, h, rfl⟩

theorem bind {next next' : α × Cursor → Outcome β} (h : x.Filters E y)
    (hnext : ∀ z, (next z).Filters E (next' z)) :
    Filters E (Except.bind x next) (y.bind next') := by
  rcases h with rfl | ⟨e, he, rfl⟩
  · cases x with
    | error e => exact refl _
    | ok z => exact hnext z
  · exact error he _

theorem map (f : α × Cursor → β × Cursor) (h : x.Filters E y) :
    Filters E (Except.map f x) (y.map f) := by
  rcases h with rfl | ⟨e, he, rfl⟩
  · exact refl _
  · exact error he _

end Outcome.Filters

/-! ## Rules -/

section

variable {E : Failure → Prop} {P : Charge → Prop} {config config' : Config}
  {nested nested' : Body → Cursor → Outcome (List (Member Extent))}

theorem Cursor.repeatWhile_filters {α : Type} {test : Symbol → Bool}
    {item item' : Entry → Cursor → Outcome α} (h : ∀ e c, (item e c).Filters E (item' e c))
    (fuel : Nat) (c : Cursor) :
    (c.repeatWhile test item fuel).Filters E (c.repeatWhile test item' fuel) := by
  induction fuel generalizing c with
  | zero => exact .refl _
  | succ fuel ih =>
    rw [repeatWhile, repeatWhile]
    split
    · exact (h _ _).bind fun x ↦ (ih x.2).map _
    · exact .refl _

theorem Rule.shows_true {α : Type} (rule : Rule α) (a : α) : rule.Shows (fun _ ↦ True) a := by
  cases rule <;> trivial

/-- **A rule only filters** if the bodies of blocks do, and if whatever it objects to is treated
alike by both configurations or not allowed by the stricter one. -/
theorem Rule.run_filters (hnested : ∀ b c, (nested b c).Filters E (nested' b c))
    (hP : ∀ charge, P charge → charge.allowed config = charge.allowed config' ∨
      charge.allowed config = false ∧ E ⟨charge.index, .violation charge.violation⟩)
    {α : Type} (rule : Rule α) (hrule : rule.Charges (fun _ ↦ True) P) (c : Cursor) :
    (rule.run config nested c).Filters E (rule.run config' nested' c) := by
  induction rule generalizing c with
  | andThen first next ihfirst ihnext =>
    exact (ihfirst hrule.1 c).bind fun x ↦ ihnext x.1 (hrule.2 x.1 (first.shows_true x.1)) x.2
  | demand allowed index v =>
    rw [run, run]
    rcases hP ⟨index, allowed, v⟩ hrule with (h : allowed config = allowed config') | ⟨h, hE⟩
    · rw [h]
      exact .refl _
    · rw [if_neg (ne_true_of_eq_false h)]
      exact .error hE _
  | many test item ih => exact Cursor.repeatWhile_filters (fun e c ↦ ih e (hrule e) c) _ c
  | nested b => exact hnested b c
  | result | current | take | reject | violate => exact .refl _

end

/-! ## Documents -/

section

variable {E : Failure → Prop} {config config' : Config}
  (hnegative : config.allowNegative = config'.allowNegative ∨
    config.allowNegative = false ∧ ∀ i n, E ⟨i, .violation (.negativeFieldNumber n)⟩)
  (hdepth : config.maxDepth = config'.maxDepth ∨
    config.maxDepth ≤ config'.maxDepth ∧ ∀ i, E ⟨i, .violation (.nestingTooDeep config.maxDepth)⟩)

include hnegative

theorem Grammar.run_filters {nested nested' : Body → Cursor → Outcome (List (Member Extent))}
    (hnested : ∀ b c, (nested b c).Filters E (nested' b c)) {α : Type} {rule : Rule α}
    (hrule : Proper (fun _ ↦ True) rule) (c : Cursor) :
    (rule.run config nested c).Filters E (rule.run config' nested' c) := by
  refine Rule.run_filters hnested (fun charge hcharge ↦ ?_) rule hrule c
  cases hcharge with
  | outOfRange | unknownVersion => exact .inl rfl
  | negative _ n => exact hnegative.imp_right (And.imp_right fun hE ↦ hE _ n)

include hdepth

theorem Grammar.readBody_filters {depth depth' : Nat} (hle : depth ≤ depth')
    (heq : config.maxDepth = config'.maxDepth → depth = depth') (b : Body) (c : Cursor) :
    (readBody config depth b c).Filters E (readBody config' depth' b c) := by
  induction depth generalizing depth' b c with
  | zero =>
    rcases hdepth with hsame | ⟨-, hE⟩
    · obtain rfl := heq hsame
      rw [readBody, readBody, hsame]
      exact .refl _
    · exact .error (hE _) _
  | succ depth ih =>
    obtain ⟨depth', rfl⟩ := Nat.exists_eq_succ_of_ne_zero (Nat.ne_zero_of_lt hle)
    exact run_filters hnegative
      (ih (Nat.le_of_succ_le_succ hle) fun hsame ↦ Nat.succ.inj (heq hsame)) (body_charges _ b) c

/-- **A stricter configuration only filters.**  A buffer is read as it is with the other one, or
fails with a violation of what is stricter. -/
theorem Document.ofTokens_filters (tokens : List Token) :
    ofTokens config tokens = ofTokens config' tokens ∨
      ∃ e, E e ∧ ofTokens config tokens =
        .error ((Sentence.ofBuffer (endedBuffer tokens)).report e) := by
  have hle : config.maxDepth ≤ config'.maxDepth := hdepth.elim Nat.le_of_eq And.left
  have hread := run_filters hnegative
    (readBody_filters hnegative hdepth hle id) (schema_charges _)
    (Sentence.ofBuffer (endedBuffer tokens)).cursor
  rw [ofTokens, ofTokens, Grammar.read, Grammar.read]
  rcases hread with h | ⟨e, he, h⟩
  · left
    simp only [h]
  · right
    refine ⟨e, he, ?_⟩
    simp only [h]

end

end ProtoSchema
