import ProtoSchema.Parse.Grammar

/-!
# What rules object to

Besides symbols that it does not expect, a rule objects to what is well formed and not allowed.
Such a violation is reported at a symbol that has been seen before, and some are reported only if
the configuration does not admit them.  `Rule.Charges` says of a rule which objections it can make,
as long as the symbols that it looks at are such as one expects; it is read off the rule, without
running it.

The grammar makes three objections, and `Grammar.Charged` lists them.  That the blocks are nested
too deep is not among them, since it is found by the reader of the bodies and not by a rule.

## What is here

* `Charge` — an objection: where it is made, what is objected to, and when it is waived.
* `Rule.Charges` — what a rule can object to, with a lemma for each way of putting rules together.
* `Grammar.Charged` — an integer that is too large, a negative number of a field, and a version that
  is not known, each at a symbol that has been looked at.
* `Grammar.schema_charges` and `Grammar.body_charges` — a file and the body of a block object to
  nothing else.

Two things follow.  Only one objection is ever waived, so configurations differ in nothing else
(`ProtoSchema.Proofs.Grammar.Filtering`); and every objection is made at a symbol of the sequence
(`ProtoSchema.Proofs.Grammar.Blame`).
-/

set_option autoImplicit false

namespace ProtoSchema

/-- Something that is objected to at a symbol, unless the configuration allows it. -/
structure Charge where
  index : Nat
  allowed : Config → Bool
  violation : Violation

/-- The objection is made whatever the configuration is. -/
def Charge.always (index : Nat) (v : Violation) : Charge := ⟨index, fun _ => false, v⟩

/-! ## Rules -/

namespace Rule

/-- If the rule looks at the current symbol, `S` holds of its result. -/
def Shows (S : Entry → Prop) : {α : Type} → Rule α → α → Prop
  | _, .current, e => S e
  | _, .take, e => S e
  | _, _, _ => True

/-- The rule objects only to what `P` holds of, if `S` holds of all symbols that it looks at. -/
def Charges (S : Entry → Prop) (P : Charge → Prop) : {α : Type} → Rule α → Prop
  | _, .andThen first next => first.Charges S P ∧ ∀ a, first.Shows S a → (next a).Charges S P
  | _, .violate index v => P (.always index v)
  | _, .demand allowed index v => P ⟨index, allowed, v⟩
  | _, .many _ item => ∀ e, (item e).Charges S P
  | _, _ => True

variable {S : Entry → Prop} {P : Charge → Prop} {α β : Type}

@[simp]
theorem charges_pure (a : α) : (pure a : Rule α).Charges S P := trivial

@[simp]
theorem charges_bind {first : Rule α} {next : α → Rule β} :
    (first >>= next).Charges S P ↔
      first.Charges S P ∧ ∀ a, first.Shows S a → (next a).Charges S P := .rfl

@[simp]
theorem charges_ite {c : Prop} [Decidable c] {first second : Rule α} :
    (if c then first else second).Charges S P ↔
      (c → first.Charges S P) ∧ (¬c → second.Charges S P) := by
  split <;> simp [*]

@[simp]
theorem charges_many {test : Symbol → Bool} {item : Entry → Rule α} :
    (many test item).Charges S P ↔ ∀ e, (item e).Charges S P := .rfl

@[simp] theorem charges_current : current.Charges S P := trivial

@[simp] theorem shows_current (e : Entry) : current.Shows S e ↔ S e := .rfl

@[simp] theorem charges_take : take.Charges S P := trivial

@[simp] theorem charges_reject (e : Expected) : (reject e : Rule α).Charges S P := trivial

@[simp] theorem charges_violate (i : Nat) (v : Violation) :
    (violate i v : Rule α).Charges S P ↔ P (.always i v) := .rfl

@[simp] theorem charges_demand (allowed : Config → Bool) (i : Nat) (v : Violation) :
    (demand allowed i v).Charges S P ↔ P ⟨i, allowed, v⟩ := .rfl

@[simp] theorem charges_nested (b : Body) : (nested b).Charges S P := trivial

@[simp] theorem charges_takeIf (test : Symbol → Bool) : (takeIf test).Charges S P := by
  simp [takeIf]

@[simp] theorem charges_expect (kind : Kind) : (expect kind).Charges S P := by simp [expect]

@[simp] theorem charges_expectWord (word : String) : (expectWord word).Charges S P := by
  simp [expectWord]

@[simp] theorem charges_extentFrom (first : Entry) : (extentFrom first).Charges S P := by
  simp [extentFrom]

@[simp] theorem charges_separated {item : Rule α} (h : item.Charges S P) :
    (separated item).Charges S P := by simp [separated, h]

@[simp] theorem charges_statements {starts : Symbol → Bool} {statement : Entry → Rule α}
    (h : ∀ e, (statement e).Charges S P) : (statements starts statement).Charges S P := by
  simp [statements, h]

@[simp] theorem charges_block {starts : Symbol → Bool} {expected : Expected}
    {statement : Entry → Rule α} (h : ∀ e, (statement e).Charges S P) :
    (block starts expected statement).Charges S P := by simp [block, h]

end Rule

/-! ## The grammar -/

namespace Grammar

open Rule

/-- What the grammar objects to, at symbols of which `S` holds. -/
inductive Charged (S : Entry → Prop) : Charge → Prop
  | outOfRange {e : Entry} (he : S e) (lexeme : String) :
    Charged S (.always e.index (.integerOutOfRange lexeme))
  | negative {e : Entry} (he : S e) (n : Int) :
    Charged S ⟨e.index, Config.allowNegative, .negativeFieldNumber n⟩
  | unknownVersion {e : Entry} (he : S e) (text : String) :
    Charged S (.always e.index (.unknownVersion text))

variable (S : Entry → Prop)

/-- The rule makes no objections but those of the grammar. -/
abbrev Proper {α : Type} (rule : Rule α) : Prop := rule.Charges S (Charged S)

@[simp] theorem name_charges : Proper S name := by simp [name]

@[simp] theorem dotted_charges (head : String) : Proper S (dotted head) := by simp [dotted]

@[simp] theorem fullName_charges : Proper S fullName := by simp [fullName]

@[simp] theorem optionName_charges : Proper S optionName := by simp [optionName, extensionName]

@[simp] theorem typeRefFrom_charges (first : Entry) : Proper S (typeRefFrom first) := by
  simp [typeRefFrom, rootedName]

@[simp] theorem typeRef_charges : Proper S typeRef := by simp [typeRef]

@[simp] theorem stringText_charges : Proper S stringText := by
  refine charges_bind.mpr ⟨trivial, fun e _ ↦ ?_⟩
  dsimp only
  split <;> simp

@[simp] theorem unsigned_charges (negative : Bool) : Proper S (unsigned negative) := by
  refine charges_bind.mpr ⟨trivial, fun e _ ↦ ?_⟩
  simp only [charges_ite]
  refine ⟨fun _ ↦ by simp, fun _ ↦ ⟨fun _ ↦ by simp, fun _ ↦ ?_⟩⟩
  split <;> simp

@[simp] theorem constant_charges : Proper S constant := by simp [constant, literal]

/-- An integer that is too large is found at its numeral. -/
@[simp] theorem integer_charges : Proper S integer := by
  refine charges_bind.mpr ⟨by simp, fun minus _ ↦ charges_bind.mpr ⟨trivial, fun e he ↦ ?_⟩⟩
  have hcharged := Charged.outOfRange (S := S) he
  split <;> simp [hcharged]

/-- A negative number is found at its sign, and may be allowed. -/
@[simp] theorem fieldNumber_charges : Proper S fieldNumber := by
  refine charges_bind.mpr ⟨trivial, fun first hfirst ↦ charges_bind.mpr ⟨by simp, fun n _ ↦ ?_⟩⟩
  have hcharged := Charged.negative (S := S) hfirst
  simp [hcharged]

@[simp] theorem range_charges : Proper S range := by
  refine charges_bind.mpr ⟨by simp, fun low _ ↦ charges_bind.mpr ⟨by simp, fun word _ ↦ ?_⟩⟩
  cases word with
  | none => simp
  | some =>
    refine charges_bind.mpr ⟨by simp, fun max _ ↦ ?_⟩
    cases max <;> simp

@[simp] theorem bracketedSettings_charges : Proper S bracketedSettings := by
  refine charges_bind.mpr ⟨by simp, fun bracket _ ↦ ?_⟩
  cases bracket <;> simp [settingEntry]

@[simp] theorem settingFrom_charges (first : Entry) : Proper S (settingFrom first) := by
  simp [settingFrom]

@[simp] theorem fieldFrom_charges (first : Entry) : Proper S (fieldFrom first) := by
  simp [fieldFrom]

@[simp] theorem reservedFrom_charges (first : Entry) : Proper S (reservedFrom first) := by
  simp [reservedFrom, reservedItems]

@[simp] theorem enumFrom_charges (first : Entry) : Proper S (enumFrom first) := by
  simp [enumFrom, enumItem, enumValueFrom]

@[simp] theorem messageFrom_charges (first : Entry) : Proper S (messageFrom first) := by
  simp [messageFrom]

@[simp] theorem extendFrom_charges (first : Entry) : Proper S (extendFrom first) := by
  simp [extendFrom]

@[simp] theorem fieldOrGroupFrom_charges (first : Entry) : Proper S (fieldOrGroupFrom first) := by
  refine charges_bind.mpr ⟨trivial, fun e _ ↦ ?_⟩
  dsimp only
  split <;> simp [groupFrom]

@[simp] theorem memberFrom_charges (first : Entry) : Proper S (memberFrom first) := by
  simp [memberFrom, extensionsFrom, oneOfFrom, oneOfItem, mapFieldFrom]

/-- **The body of a block objects to nothing but what the grammar does.** -/
theorem body_charges (b : Body) : Proper S (body b) := by cases b <;> simp [body]

@[simp] theorem serviceItem_charges (first : Entry) : Proper S (serviceItem first) := by
  simp [serviceItem, rpcFrom, endpoint, rpcEnd]

@[simp] theorem serviceFrom_charges (first : Entry) : Proper S (serviceFrom first) := by
  simp [serviceFrom]

@[simp] theorem directiveFrom_charges (first : Entry) : Proper S (directiveFrom first) := by
  simp [directiveFrom, importFrom, importFrom.importModifier, packageFrom]

/-- An unknown version is found at its text. -/
@[simp] theorem versionStatement_charges : Proper S versionStatement := by
  refine charges_bind.mpr ⟨by simp, fun word _ ↦ ?_⟩
  cases word with
  | none => simp
  | some =>
    refine charges_bind.mpr ⟨by simp, fun _ _ ↦ charges_bind.mpr ⟨by simp, fun e he ↦
      charges_bind.mpr ⟨by simp, fun text _ ↦ ?_⟩⟩⟩
    have hcharged := Charged.unknownVersion (S := S) he
    split <;> simp [hcharged]

/-- **A file objects to nothing but what the grammar does.** -/
theorem schema_charges : Proper S schema := by simp [schema]

end Grammar

end ProtoSchema
