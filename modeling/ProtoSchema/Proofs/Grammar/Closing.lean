import ProtoSchema.Proofs.Grammar.Gaps

/-!
# What stands behind a gap

Directly behind an integer or a constant stands a mark, or else the word between the ends of a
range.  Within a statement nothing may be left behind a gap, but with the statement there is
something (`Schema.Around.endsValue`).

The word matters where a numeral is put into a gap.  Octal digits are worth something else in front
of a letter `e` (`Numeral.CutShort`), and since `to` is the only word that can stand there, no such
letter does.

## What is here

* `EndsValue` — the first symbol is one that can stand directly behind a value.
* `EndsValue.semicolon` to `EndsValue.of_to` — the six ways to be so.
* `Gap.Trailed` — the same of a gap, if anything stands behind it.  In a list a gap can be the last
  item, and what is behind the list then decides (`Gap.Trailed.append`).
* `Phrase.Many.endsValue`, `Phrase.Separated.Around.trailed`, `Phrase.Statements.Around.endsValue`,
  `Phrase.Block.Around.endsValue` — rows.  From a statement on something always follows.
* `NumberRange.Around.trailed` to `Directive.Around.endsValue` — the lines of the grammar with a
  gap, one lemma for each.
* `Schema.Around.endsValue` — a gap anywhere in a file.
-/

set_option autoImplicit false

namespace ProtoSchema

open Grammar Phrase

/-- The first symbol can stand directly behind an integer or a constant. -/
def EndsValue (t : List Symbol) : Prop := ∃ next u, t = next :: u ∧ (next.isName → next.isWord "to")

namespace EndsValue

/-- A mark can stand behind a value. -/
theorem of_kind {next : Symbol} {kind : Kind} (h : next.kind = kind) (t : List Symbol)
    (hidentifier : kind ≠ .identifier) (hprimitive : kind ≠ .primitiveType) :
    EndsValue (next :: t) :=
  ⟨next, t, rfl, fun hname ↦ absurd h (Symbol.kind_ne_of_isName hname hidentifier hprimitive)⟩

variable {s : Symbol} (t : List Symbol)

theorem semicolon (h : s.kind = .semicolon) : EndsValue (s :: t) := of_kind h t nofun nofun

theorem comma (h : s.kind = .comma) : EndsValue (s :: t) := of_kind h t nofun nofun

theorem bracket (h : s.kind = .leftBracket ∨ s.kind = .rightBracket) : EndsValue (s :: t) := by
  rcases h with h | h <;> exact of_kind h t nofun nofun

theorem brace (h : s.kind = .leftBrace) : EndsValue (s :: t) := of_kind h t nofun nofun

theorem of_to (h : s.isWord "to") : EndsValue (s :: t) := ⟨s, t, rfl, fun _ ↦ h⟩

/-- What is further behind does not matter. -/
theorem append {s : List Symbol} (h : EndsValue s) : EndsValue (s ++ t) := by
  obtain ⟨next, u, rfl, hnext⟩ := h
  exact ⟨next, u ++ t, rfl, hnext⟩

end EndsValue

/-- So does what follows a gap, if anything does. -/
def Gap.Trailed {slot : Slot} {β : Type} (g : Gap slot β) : Prop :=
  g.behind = [] ∨ EndsValue g.behind

/-- Behind a gap at the end of something stands what stands behind that. -/
theorem Gap.Trailed.append {slot : Slot} {β : Type} {g : Gap slot β} {w : List Symbol}
    (h : g.Trailed) (hw : EndsValue w) : EndsValue (g.behind ++ w) := by
  rcases h with h | h
  · rwa [h]
  · exact h.append w

theorem Gap.Trailed.append_trailed {slot : Slot} {β : Type} {g : Gap slot β} {w : List Symbol}
    (h : g.Trailed) (hw : w = [] ∨ EndsValue w) :
    g.behind ++ w = [] ∨ EndsValue (g.behind ++ w) := by
  rcases hw with rfl | hw
  · rwa [List.append_nil]
  · exact .inr (h.append hw)

/-! ## Rows -/

section Rows

variable {slot : Slot} {β : Type} {p : Phrase β} {around : Gap slot β → Prop}

/-- Further items of a list begin with a comma. -/
theorem Phrase.Many.endsValue {i : Nat} {xs : List β} {t : List Symbol}
    (h : Many (Behind .comma p) i xs t) : t = [] ∨ EndsValue t := by
  cases t with
  | nil => exact .inl rfl
  | cons s t => exact .inr (.comma t h.kind_of_cons)

/-- Behind a gap in an item of a list stands what stands there in the item, or a comma. -/
theorem Phrase.Separated.Around.trailed (hp : ∀ ⦃g⦄, around g → g.Trailed) {g : Gap slot (List β)}
    (h : Separated.Around p around g) : g.Trailed := by
  cases h with
  | first hg hxs => exact (hp hg).append_trailed (hxs 0).endsValue
  | next _ _ hg hys => exact (hp hg).append_trailed (hys 0).endsValue

variable (hp : ∀ ⦃g⦄, around g → EndsValue g.behind)

include hp

/-- Behind a gap in one of several statements the statement goes on. -/
theorem Phrase.Statements.Around.endsValue {g : Gap slot (List β)}
    (h : Statements.Around p around g) : EndsValue g.behind := by
  obtain ⟨-, hg, -⟩ := h
  exact (hp hg).append _

theorem Phrase.Block.Around.endsValue {g : Gap slot (List β)} (h : Block.Around p around g) :
    EndsValue g.behind := by
  obtain ⟨-, hg, -⟩ := h
  exact (hg.endsValue hp).append _

end Rows

/-! ## Ranges and options -/

/-- Behind the lower end of a range stands the word between the ends. -/
theorem NumberRange.Around.trailed {g : Gap .integer NumberRange} (h : Around g) : g.Trailed := by
  cases h with
  | single | high => exact .inl rfl
  | toMax hto | low hto => exact .inr (.of_to _ hto)

theorem RangesAround.trailed {g : Gap .integer (List NumberRange)} (h : RangesAround g) :
    g.Trailed :=
  Separated.Around.trailed (fun _ hg ↦ hg.trailed) h

/-- Nothing of an option stands behind its value. -/
theorem Setting.AroundEntry.trailed {g : Gap .constant (Setting Unit)} (h : AroundEntry g) :
    g.Trailed := by
  cases h
  exact .inl rfl

theorem Setting.AroundBracketed.endsValue {g : Gap .constant (List (Setting Unit))}
    (h : AroundBracketed g) : EndsValue g.behind := by
  obtain ⟨-, hg, hr⟩ := h
  exact (hg.trailed fun _ h ↦ h.trailed).append (.bracket _ (.inr hr))

/-- Behind the value of an option statement stands a semicolon. -/
theorem Setting.Around.endsValue {g : Gap .constant (Setting Unit)} (h : Around g) :
    EndsValue g.behind := by
  obtain ⟨-, hg, hsemi⟩ := h
  exact hg.trailed.append (.semicolon _ hsemi)

theorem Setting.Bracketed.endsValue {i : Nat} {options : List (Setting Unit)} {t : List Symbol}
    (h : Bracketed noNote i options t) : t = [] ∨ EndsValue t := by
  cases h with
  | none => exact .inl rfl
  | some hl => exact .inr (.bracket _ (.inl hl))

/-! ## Fields -/

variable {config : Config} {slot : Slot}

/-- Behind the number of a field stand options or nothing. -/
theorem Phrase.Numbered.Around.trailed {g : Gap slot (String × Int × List (Setting Unit))}
    (h : Numbered.Around config slot g) : g.Trailed := by
  cases h with
  | number _ _ _ ho => exact (ho 0).endsValue
  | options _ _ _ hg => exact .inr (hg.endsValue.append _)

/-- Behind a gap in a field stands a mark, its semicolon if nothing else. -/
theorem Field.Around.endsValue {g : Gap slot (Field Unit)} (h : Field.Around config slot g) :
    EndsValue g.behind := by
  cases h with
  | labelled _ _ hg hsemi | plain _ _ hg hsemi => exact hg.trailed.append (.semicolon _ hsemi)

theorem MapField.Around.endsValue {g : Gap slot (MapField Unit)}
    (h : MapField.Around config slot g) : EndsValue g.behind := by
  obtain ⟨-, -, -, -, -, -, hg, hsemi⟩ := h
  exact hg.trailed.append (.semicolon _ hsemi)

theorem EndsValue.bracketed {options : List (Setting Unit)} {t : List Symbol} {semi : Symbol}
    (ho : (Setting.Bracketed noNote).Anywhere options t) (hsemi : semi.kind = .semicolon) :
    EndsValue (t ++ [semi]) := by
  rcases (ho 0).endsValue with rfl | ht
  · exact .semicolon [] hsemi
  · exact ht.append _

theorem Field.AroundValue.endsValue {g : Gap slot (Field Unit)} (h : Field.AroundValue slot g) :
    EndsValue g.behind := by
  cases h with
  | number _ _ ho hsemi => exact .bracketed ho hsemi
  | options _ _ _ hg => exact hg.endsValue.append _

/-! ## Statements -/

theorem Extensions.Around.endsValue {g : Gap slot (Extensions Unit)}
    (h : Extensions.Around slot g) : EndsValue g.behind := by
  cases h with
  | ranges _ hg ho hsemi => exact (RangesAround.trailed hg).append (.bracketed ho hsemi)
  | options _ _ hg => exact hg.endsValue.append _

theorem Reserved.Around.endsValue {g : Gap .integer (Reserved Unit)} (h : Reserved.Around g) :
    EndsValue g.behind := by
  obtain ⟨-, hg, -, hsemi⟩ := h
  exact (RangesAround.trailed hg).append (.semicolon _ hsemi)

theorem Grammar.OneOfItem.Around.endsValue {g : Gap slot (OneOfItem Unit)}
    (h : OneOfItem.Around config slot g) : EndsValue g.behind := by
  cases h with
  | setting hg | field hg => exact hg.endsValue

theorem OneOf.Around.endsValue {g : Gap slot (OneOf Unit)} (h : OneOf.Around config slot g) :
    EndsValue g.behind := by
  obtain ⟨-, -, hg⟩ := h
  exact (hg.endsValue fun _ h ↦ h.endsValue).append _

theorem Grammar.EnumItem.Around.endsValue {g : Gap slot (EnumItem Unit)}
    (h : EnumItem.Around slot g) : EndsValue g.behind := by
  cases h with
  | setting hg | reserved hg | value hg => exact hg.endsValue

theorem EnumType.Around.endsValue {g : Gap slot (EnumType Unit)} (h : EnumType.Around slot g) :
    EndsValue g.behind := by
  obtain ⟨-, -, hg⟩ := h
  exact (hg.endsValue fun _ h ↦ h.endsValue).append _

/-! ## Blocks -/

section Members

variable {inner : Body → Phrase (List (Member Unit))}
  {around : Body → (slot : Slot) → Gap slot (List (Member Unit)) → Prop}
  (hinner : ∀ {b : Body} {i : Nat} {xs : List (Member Unit)} {t : List Symbol},
    inner b i xs t → ∃ l u, t = l :: u ∧ l.kind = .leftBrace)
  (haround : ∀ {b : Body} {slot : Slot} {g : Gap slot (List (Member Unit))},
    around b slot g → EndsValue g.behind)

include haround

theorem Member.AroundMessage.endsValue {g : Gap slot (Member Unit)}
    (h : AroundMessage around slot g) : EndsValue g.behind := by
  obtain ⟨-, -, hg⟩ := h
  exact (haround hg).append _

theorem Member.AroundExtend.endsValue {g : Gap slot (Member Unit)}
    (h : AroundExtend around slot g) : EndsValue g.behind := by
  obtain ⟨-, -, hg⟩ := h
  exact (haround hg).append _

include hinner

/-- Behind the number of a group and its options stands the body. -/
theorem Member.AroundGroup.endsValue {g : Gap slot (Member Unit)}
    (h : AroundGroup config inner around slot g) : EndsValue g.behind := by
  cases h with
  | header _ _ hg hbody =>
    obtain ⟨l, u, rfl, hl⟩ := hinner (hbody 0)
    exact hg.trailed.append (.brace u hl)
  | body _ _ _ hg => exact (haround hg).append _

/-- Behind a gap in a member stands a mark or the word of a range. -/
theorem Member.Around.endsValue {b : Body} {g : Gap slot (Member Unit)}
    (h : Member.Around config inner around b slot g) : EndsValue g.behind := by
  cases h with
  | field hg | enumType hg | extensions hg | setting hg | oneOf hg | reserved hg | mapField hg =>
    exact hg.endsValue
  | group hg => exact hg.endsValue hinner haround
  | message hg | extend hg => exact hg.endsValue haround

end Members

theorem Body.Around.endsValue {depth : Nat} {b : Body} {g : Gap slot (List (Member Unit))}
    (h : Body.Around config depth b slot g) : EndsValue g.behind := by
  induction depth generalizing b slot g with
  | zero => exact h.elim
  | succ depth ih =>
    exact Block.Around.endsValue (fun _ hg ↦ hg.endsValue (fun h ↦ h.exists_cons) ih) h

/-! ## Services and files -/

theorem Rpc.Around.endsValue {g : Gap .constant (Rpc Unit)} (h : Rpc.Around g) :
    EndsValue g.behind := by
  obtain ⟨-, -, -, -, -, hg⟩ := h
  exact (hg.endsValue fun _ h ↦ h.endsValue).append _

theorem ServiceItem.Around.endsValue {g : Gap .constant (ServiceItem Unit)}
    (h : ServiceItem.Around g) : EndsValue g.behind := by
  cases h with
  | setting hg | rpc hg => exact hg.endsValue

theorem Service.Around.endsValue {g : Gap .constant (Service Unit)} (h : Service.Around g) :
    EndsValue g.behind := by
  obtain ⟨-, -, hg⟩ := h
  exact (hg.endsValue fun _ h ↦ h.endsValue).append _

theorem Directive.Around.endsValue {g : Gap slot (Directive Unit)}
    (h : Directive.Around config slot g) : EndsValue g.behind := by
  cases h with
  | setting hg | enumType hg | service hg => exact hg.endsValue
  | message hg | extend hg => exact hg.endsValue fun h ↦ h.endsValue

/-- **No other word stands directly behind a gap**, and the file does not end there. -/
theorem Schema.Around.endsValue {g : Gap slot (Schema Unit)} (h : Schema.Around config slot g) :
    EndsValue g.behind := by
  obtain ⟨-, hg⟩ := h
  exact (hg.endsValue fun _ h ↦ h.endsValue).append _

end ProtoSchema
