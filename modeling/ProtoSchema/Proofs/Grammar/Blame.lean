import ProtoSchema.Proofs.Grammar.Charges
import ProtoSchema.Proofs.Grammar.Progress

/-!
# What a failure points at

A failure has the number of a symbol.  For an unexpected symbol it is the number of the cursor, but
a rule can also object to a symbol that it has seen before, and then it takes the number from what
it has seen.  So every failure points at a symbol of the sequence, or at the one behind all of them,
as long as a rule objects only to what it has looked at itself.  The grammar does, since
`Grammar.Charged` takes the number of each objection from such a symbol.

## What is here

* `Outcome.Within` — an outcome whose failure, if it is one, points at a symbol up to a number.
* `Rule.run_shows` — the symbols that a rule looks at have numbers up to that of the cursor.
* `Rule.run_within` — the induction on the rule.  It needs that reading goes on
  (`Rule.run_onward`), for the sum of the index and of what is left is the bound.
* `Grammar.read_schema_within` — a file fails at one of its symbols, or at the end.
-/

set_option autoImplicit false

namespace ProtoSchema

open Grammar

/-- If the outcome is a failure, it is at a symbol with a number up to `m`. -/
def Outcome.Within {α : Type} (m : Nat) (x : Outcome α) : Prop := ∀ f, x = .error f → f.index ≤ m

namespace Outcome.Within

variable {α β : Type} {m : Nat} {x : Outcome α}

theorem ok (y : α × Cursor) : Outcome.Within m (.ok y) := by
  rintro _ ⟨⟩

theorem error {f : Failure} (h : f.index ≤ m) : Outcome.Within m (.error f : Outcome α) := by
  rintro _ ⟨⟩
  exact h

theorem bind {next : α × Cursor → Outcome β} (h : x.Within m)
    (hnext : ∀ a c, x = .ok (a, c) → (next (a, c)).Within m) :
    Outcome.Within m (Except.bind x next) := by
  cases x with
  | error f => exact error (h f rfl)
  | ok y => exact hnext _ _ rfl

theorem map {f : α × Cursor → β × Cursor} (h : x.Within m) : Outcome.Within m (Except.map f x) := by
  cases x with
  | error f => exact error (h f rfl)
  | ok y => exact ok _

end Outcome.Within

section

variable {config : Config} {nested : Body → Cursor → Outcome (List (Member Extent))} {m : Nat}
  {α : Type}

theorem Cursor.repeatWhile_within {test : Symbol → Bool} {item : Entry → Cursor → Outcome α}
    (honward : ∀ e c, (item e c).Onward c)
    (hitem : ∀ e c, c.index + c.rest.length = m → (item e c).Within m) (fuel : Nat) {c : Cursor}
    (hc : c.index + c.rest.length = m) : (c.repeatWhile test item fuel).Within m := by
  induction fuel generalizing c with
  | zero => exact .ok _
  | succ fuel ih =>
    rw [repeatWhile]
    split
    · have hadvance : c.advance.index + c.advance.rest.length = m :=
        (Onward.advance c).index.trans hc
      refine (hitem _ _ hadvance).bind fun a c' hread ↦ (ih ?_).map
      exact (hread ▸ honward c.current c.advance).cursor.index.trans hadvance
    · exact .ok _

theorem Rule.run_shows {rule : Rule α} {c c' : Cursor} {a : α} (hc : c.index ≤ m)
    (h : rule.run config nested c = .ok (a, c')) : rule.Shows (·.index ≤ m) a := by
  cases rule with
  | current | take =>
    cases h
    exact hc
  | result | andThen | reject | violate | demand | many | nested => trivial

/-- **A rule that objects to what it has seen fails within the sequence** if the bodies of blocks
do. -/
theorem Rule.run_within {P : Charge → Prop} (hP : ∀ charge, P charge → charge.index ≤ m)
    (honward : ∀ b c, (nested b c).Onward c)
    (hnested : ∀ b c, c.index + c.rest.length = m → (nested b c).Within m)
    {rule : Rule α} (hrule : rule.Charges (·.index ≤ m) P) {c : Cursor}
    (hc : c.index + c.rest.length = m) :
    Outcome.Within m (rule.run config nested c) := by
  induction rule generalizing c with
  | result | current | take => exact .ok _
  | reject => exact .error (hc ▸ Nat.le_add_right _ _)
  | violate => exact .error (hP _ hrule)
  | demand =>
    rw [run]
    split
    · exact .ok _
    · exact .error (hP _ hrule)
  | nested b => exact hnested b c hc
  | andThen first next ihfirst ihnext =>
    refine (ihfirst hrule.1 hc).bind fun a c' hread ↦ ihnext a (hrule.2 a ?_) ?_
    · exact run_shows (hc ▸ Nat.le_add_right _ _) hread
    · exact (hread ▸ run_onward config honward first c).cursor.index.trans hc
  | many test item ih =>
    exact Cursor.repeatWhile_within (fun e ↦ run_onward config honward (item e))
      (fun e c hc ↦ ih e (hrule e) hc) _ hc

end

/-! ## The grammar -/

namespace Grammar

variable {m : Nat}

/-- Every objection of the grammar is made at a symbol that has been looked at. -/
theorem Charged.index_le {charge : Charge} (h : Charged (·.index ≤ m) charge) :
    charge.index ≤ m := by
  cases h with
  | outOfRange he | negative he | unknownVersion he => exact he

variable (config : Config)

theorem readBody_within (depth : Nat) (b : Body) {c : Cursor} (hc : c.index + c.rest.length = m) :
    (readBody config depth b c).Within m := by
  induction depth generalizing b c with
  | zero => exact .error (hc ▸ Nat.le_add_right _ _)
  | succ depth ih =>
    exact Rule.run_within (fun _ ↦ Charged.index_le) (readBody_onward config depth)
      (fun b c hc ↦ ih b hc) (body_charges _ b) hc

/-- **A file fails at one of its symbols**, or at the one behind them. -/
theorem read_schema_within (c : Cursor) :
    (read config schema c).Within (c.index + c.rest.length) :=
  Rule.run_within (fun _ ↦ Charged.index_le) (readBody_onward config config.maxDepth)
    (fun b _ hc ↦ readBody_within config config.maxDepth b hc) (schema_charges _) rfl

end Grammar

end ProtoSchema
