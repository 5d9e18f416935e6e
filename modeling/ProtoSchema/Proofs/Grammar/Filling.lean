import ProtoSchema.Proofs.Grammar.Gaps
import ProtoSchema.Proofs.Print.Statement

/-!
# Filling a gap

With an integer that fits, or with a constant, in its gap a line of the grammar is a line of it
(`Gap.Carries`).  Integers are written with or without a sign here, and of any size (`Signed`);
whether they fit is a question of their own.

What is in the gap can decide what the line is, for the first two symbols of a statement tell its
sort.  So a gap is known to be far enough behind, or what fills it is known to begin with no dot and
no equals sign (`Gap.Starts`).

## What is here

* `Signed` — the symbols of an integer, and `Slot.Fills`, which symbols say what in a gap.
* `Slot.Fills.exists_cons` — what fills a gap begins with no dot and no equals sign.
* `Gap.Carries`, `Gap.Carries.within`, `Gap.Carries.map` — a gap in a phrase, with more symbols
  around it and with the tree built further.
* `Gap.Starts`, `Gap.starts_of_before`, `Gap.starts_of_tail` — what the first two symbols are.
* `Phrase.Separated.Around.carries` and its like — rows, which are cut at the item with the gap and
  put together again.
* `NumberRange.Around.carries` to `Directive.Around.carries` — the lines of the grammar.
* `Schema.Around.carries` — a file.
-/

set_option autoImplicit false

namespace ProtoSchema

open Grammar Phrase

/-! ## What can be in a gap -/

/-- The symbols of an integer, be it one that fits or not. -/
inductive Signed : Int → List Symbol → Prop
  | plain {s : Symbol} {n : Nat} (hs : s.kind = .number) (hn : s.number? = some (.integer n)) :
    Signed n [s]
  | negative {minus s : Symbol} {n : Nat} (hm : minus.kind = .minus) (hs : s.kind = .number)
    (hn : s.number? = some (.integer n)) : Signed (-n) [minus, s]

namespace Signed

variable {n : Int} {i : Nat} {s : List Symbol}

/-- An integer that fits is one of the grammar. -/
theorem integer (h : Signed n s) (hn : fitsInteger n) : Integer.Anywhere n s := by
  intro i
  cases h with
  | plain hs hv => exact .plain (.mk hv hn) (hs ▸ nofun)
  | negative hm _ hv => exact .negative hm hv hn

/-- An integer begins with a number or a minus sign. -/
theorem exists_cons (h : Signed n s) :
    ∃ first t, s = first :: t ∧ (first.kind = .number ∨ first.kind = .minus) := by
  cases h with
  | plain hs => exact ⟨_, _, rfl, .inl hs⟩
  | negative hm => exact ⟨_, _, rfl, .inr hm⟩

theorem not_isWord (h : Signed n s) (w : String) : ∀ first ∈ s.head?, ¬first.isWord w := by
  obtain ⟨first, t, rfl, hk⟩ := h.exists_cons
  rintro _ ⟨⟩ hword
  have hk' := Symbol.kind_of_isWord hword
  rcases hk with hk | hk <;> exact nomatch hk.symm.trans hk'

end Signed

/-- Which symbols say what in a gap. -/
def Slot.Fills : (slot : Slot) → slot.Value → List Symbol → Prop
  | integer, n, s => Signed n s ∧ fitsInteger n
  | constant, v, s => (Constant.Derives noNote).Anywhere v s

/-- Neither an integer nor a constant begins with a dot or an equals sign. -/
theorem Slot.Fills.exists_cons {slot : Slot} {v : slot.Value} {s : List Symbol}
    (h : slot.Fills v s) : ∃ first t, s = first :: t ∧ first.kind ≠ .dot ∧ first.kind ≠ .equal := by
  cases slot with
  | integer =>
    obtain ⟨first, t, rfl, hk⟩ := h.1.exists_cons
    refine ⟨first, t, rfl, ?_⟩
    rcases hk with hk | hk <;> simp [hk]
  | constant =>
    obtain ⟨hs⟩ | ⟨hv⟩ := (h : (Constant.Derives noNote).Anywhere v s) 0
    · simp only [startsNameValue, Symbol.is, Bool.and_eq_true, beq_iff_eq] at hs
      exact ⟨_, _, rfl, by simp [hs], by simp [hs]⟩
    · have hsign {sign : Symbol} {negative : Bool} (hsign : sign.kind = signKind negative) :
          sign.kind ≠ .dot ∧ sign.kind ≠ .equal := by cases negative <;> simp [hsign, signKind]
      cases hv with
      | bool hs =>
        have hk := Symbol.kind_of_isWord hs
        exact ⟨_, _, rfl, by simp [hk], by simp [hk]⟩
      | text ht =>
        obtain ⟨hk, -⟩ := ht
        exact ⟨_, _, rfl, by simp [hk], by simp [hk]⟩
      | number hk => exact ⟨_, _, rfl, by simp [hk], by simp [hk]⟩
      | signed hs | infinity hs | nan hs => exact ⟨_, _, rfl, hsign hs⟩

/-- What stands in front of a gap begins with such a symbol, if there is anything, and so does what
is in the gap. -/
theorem exists_cons_append {P : Symbol → Prop} {before s : List Symbol}
    (hbefore : ∀ first ∈ before.head?, P first) (hs : ∃ first t, s = first :: t ∧ P first)
    (behind : List Symbol) : ∃ first t, before ++ s ++ behind = first :: t ∧ P first := by
  cases before with
  | nil =>
    obtain ⟨first, t, rfl, hfirst⟩ := hs
    exact ⟨first, t ++ behind, rfl, hfirst⟩
  | cons first before => exact ⟨first, before ++ s ++ behind, rfl, hbefore first rfl⟩

/-! ## What a gap carries -/

/-- With whatever fills the gap all of the symbols are a phrase. -/
def Gap.Carries {slot : Slot} {β : Type} (g : Gap slot β) (p : Phrase β) : Prop :=
  ∀ ⦃v s⦄, slot.Fills v s → p.Anywhere (g.said v) (g.before ++ s ++ g.behind)

/-- A gap with more symbols around it, in a phrase that the symbols make up with them. -/
theorem Gap.Carries.within {slot : Slot} {β γ : Type} {g : Gap slot β} {p : Phrase β} {q : Phrase γ}
    {f : β → γ} {u w : List Symbol} (h : g.Carries p)
    (hq : ∀ ⦃y t⦄, p.Anywhere y t → q.Anywhere (f y) (u ++ (t ++ w))) :
    (g.within u f w).Carries q := by
  intro v s hv i
  have hwhole := hq (h hv) i
  simp only [Gap.within, List.append_assoc] at hwhole ⊢
  exact hwhole

theorem Gap.Carries.map {slot : Slot} {β γ : Type} {g : Gap slot β} {p : Phrase β} {q : Phrase γ}
    {f : β → γ} (h : g.Carries p) (hq : ∀ ⦃y t⦄, p.Anywhere y t → q.Anywhere (f y) t) :
    (g.map f).Carries q :=
  fun _ _ hv ↦ hq (h hv)

/-! ### How a gap starts -/

/-- What the first two symbols are is known, whatever fills the gap. -/
def Gap.Starts {slot : Slot} {β : Type} (g : Gap slot β) (P : Symbol → Symbol → Prop) : Prop :=
  ∀ ⦃v s⦄, slot.Fills v s →
    ∃ first next t, g.before ++ s ++ g.behind = first :: next :: t ∧ P first next

section Starts

variable {slot : Slot} {β γ : Type} {g : Gap slot β} {P : Symbol → Symbol → Prop}

/-- Two symbols in front of the gap are the first two. -/
theorem Gap.starts_of_before (h : ∃ first next t, g.before = first :: next :: t ∧ P first next) :
    g.Starts P := by
  intro v s _
  obtain ⟨first, next, t, hbefore, hP⟩ := h
  exact ⟨first, next, t ++ s ++ g.behind, by rw [hbefore]; rfl, hP⟩

/-- The second symbol may be the first one in the gap. -/
theorem Gap.starts_of_tail {kind : Kind} (hkind : kind = .dot ∨ kind = .equal) (hne : g.before ≠ [])
    (hnext : ∀ next ∈ g.before.tail.head?, next.kind ≠ kind) :
    g.Starts fun _ next ↦ next.kind ≠ kind := by
  intro v s hv
  obtain ⟨word, before, hbefore⟩ := List.exists_cons_of_ne_nil hne
  rw [hbefore] at hnext ⊢
  have hs : ∃ first t, s = first :: t ∧ first.kind ≠ kind := by
    obtain ⟨first, t, rfl, hdot, hequal⟩ := hv.exists_cons
    exact ⟨first, t, rfl, by rcases hkind with rfl | rfl <;> assumption⟩
  obtain ⟨next, t, heq, hk⟩ := exists_cons_append hnext hs g.behind
  exact ⟨word, next, t, congrArg (word :: ·) heq, hk⟩

theorem Gap.Carries.map_of_starts {p : Phrase β} {q : Phrase γ} {f : β → γ} (h : g.Carries p)
    (hstarts : g.Starts P) (hq : ∀ ⦃y first next t⦄, p.Anywhere y (first :: next :: t) →
      P first next → q.Anywhere (f y) (first :: next :: t)) : (g.map f).Carries q := by
  intro v s hv
  obtain ⟨first, next, t, heq, hP⟩ := hstarts hv
  have hx := h hv
  show q.Anywhere (f (g.said v)) (g.before ++ s ++ g.behind)
  rw [heq] at hx ⊢
  exact hq hx hP

end Starts

/-! ### Rows -/

section Rows

variable {slot : Slot} {β : Type} {p : Phrase β} {around : Gap slot β → Prop}

theorem Phrase.Many.append {i : Nat} {xs ys : List β} {s t : List Symbol} (hxs : Many p i xs s)
    (hys : Many p (i + s.length) ys t) : Many p i (xs ++ ys) (s ++ t) := by
  induction hxs with
  | nil => exact hys
  | @cons i x xs s u hx _ ih =>
    rw [List.append_assoc]
    refine .cons hx (ih ?_)
    rwa [List.length_append, ← Nat.add_assoc] at hys

/-- Two rows with a comma between them are a row. -/
theorem Phrase.Separated.append {i : Nat} {comma : Symbol} {xs ys : List β} {s t : List Symbol}
    (hxs : Separated p i xs s) (hcomma : comma.kind = .comma)
    (hys : Separated p (i + s.length + 1) ys t) : Separated p i (xs ++ ys) (s ++ comma :: t) := by
  obtain @⟨_, x, xs, s, u, hx, hxs⟩ := hxs
  obtain @⟨_, y, ys, t, v, hy, hys⟩ := hys
  rw [List.length_append, ← Nat.add_assoc] at hy hys
  have hmany : Many (Behind .comma p) (i + s.length + u.length) (y :: ys) (comma :: t ++ v) :=
    .cons (.mk hcomma hy) (by rwa [List.length_cons, Nat.add_comm t.length, ← Nat.add_assoc])
  rw [List.append_assoc]
  exact .mk hx (hxs.append hmany)

variable (hp : ∀ ⦃g⦄, around g → g.Carries p)

include hp

theorem Phrase.Separated.Around.carries {g : Gap slot (List β)} (h : Separated.Around p around g) :
    g.Carries (Separated p) := by
  cases h with
  | first hg hxs =>
    refine (hp hg).within fun y t hy i ↦ ?_
    rw [List.nil_append]
    exact .mk (hy i) (hxs _)
  | next hxs hcomma hg hys =>
    refine (hp hg).within fun y t hy i ↦ ?_
    rw [List.append_assoc, List.singleton_append]
    exact (hxs i).append hcomma (.mk (hy _) (hys _))

/-- A gap in one of several statements. -/
theorem Phrase.Statements.Around.carries {g : Gap slot (List β)}
    (h : Statements.Around p around g) : g.Carries (Statements p) := by
  obtain ⟨hxs, hg, hys⟩ := h
  exact (hp hg).within fun y t hy i ↦ (hxs i).append (.cons (hy _) (hys _))

theorem Phrase.Block.Around.carries {g : Gap slot (List β)} (h : Block.Around p around g) :
    g.Carries (Block p) := by
  obtain ⟨hl, hg, hr⟩ := h
  exact (hg.carries hp).within fun xs t hxs i ↦ .mk hl (hxs _) hr

end Rows

/-! ## Ranges and options -/

theorem NumberRange.Around.carries {g : Gap .integer NumberRange} (h : Around g) :
    g.Carries (NumberRange.Derives Integer) := by
  rintro n s ⟨hs, hn⟩ i
  have hinteger := hs.integer hn
  cases h with
  | single =>
    rw [List.nil_append, List.append_nil]
    exact .single (hinteger i)
  | toMax hto hmax => exact .toMax (hinteger i) hto hmax
  | low hto hm hmax => exact .span (hinteger i) hto (hm _) hmax
  | high hm hto =>
    rw [List.append_nil, List.append_assoc]
    exact .span (hm i) hto (hinteger _) (hs.not_isWord "max")

theorem RangesAround.carries {g : Gap .integer (List NumberRange)} (h : RangesAround g) :
    g.Carries (Separated (NumberRange.Derives Integer)) :=
  Separated.Around.carries (fun _ hg ↦ hg.carries) h

theorem Setting.AroundEntry.carries {g : Gap .constant (Setting Unit)} (h : AroundEntry g) :
    g.Carries (DerivesEntry noNote) := by
  obtain ⟨hn, heq⟩ := h
  intro v s hv i
  rw [List.append_nil, List.append_assoc]
  exact .mk (hn i) heq (hv _)

theorem Setting.AroundBracketed.carries {g : Gap .constant (List (Setting Unit))}
    (h : AroundBracketed g) : g.Carries (Bracketed noNote) := by
  obtain ⟨hl, hg, hr⟩ := h
  exact (hg.carries fun _ h ↦ h.carries).within fun xs t hxs i ↦ .some hl (hxs _) hr

theorem Setting.Around.carries {g : Gap .constant (Setting Unit)} (h : Around g) :
    g.Carries (Setting.Derives noNote) := by
  obtain ⟨hword, hg, hsemi⟩ := h
  exact hg.carries.within fun x t hx i ↦ (hx _).statement hword hsemi

/-! ## Fields -/

variable {config : Config} {slot : Slot}

theorem Phrase.Numbered.Around.carries {g : Gap slot (String × Int × List (Setting Unit))}
    (h : Numbered.Around config slot g) : g.Carries (Numbered Integer config noNote) := by
  cases h with
  | number hname heq ha ho =>
    rintro n s ⟨hs, hn⟩ i
    exact .mk hname heq (.mk (hs.integer hn _) (.inr ha)) (ho _)
  | options hname heq hn hg =>
    refine hg.carries.within fun os t hos i ↦ ?_
    rw [List.append_nil]
    exact .mk hname heq (hn _) (hos _)

theorem Field.Around.carries {g : Gap slot (Field Unit)} (h : Field.Around config slot g) :
    g.Carries (Field.Derives config noNote) := by
  cases h with
  | labelled hl htype hg hsemi =>
    exact hg.carries.within fun x t hx i ↦ .labelled hl (htype _) (hx _) hsemi
  | plain hl htype hg hsemi =>
    exact hg.carries.within fun x t hx i ↦ .plain hl (htype _) (hx _) hsemi

theorem MapField.Around.carries {g : Gap slot (MapField Unit)} (h : MapField.Around config slot g) :
    g.Carries (MapField.Derives Integer config noNote) := by
  obtain ⟨hword, hless, hkey, hcomma, htype, hgreater, hg, hsemi⟩ := h
  refine hg.carries.within fun x t hx i ↦ ?_
  rw [List.cons_append, List.cons_append, List.cons_append, List.cons_append, List.append_assoc]
  exact .mk hword hless hkey hcomma (htype _) hgreater (hx _) hsemi

theorem Field.AroundValue.carries {g : Gap slot (Field Unit)} (h : Field.AroundValue slot g) :
    g.Carries (Field.DerivesValue noNote) := by
  cases h with
  | number hname heq ho hsemi =>
    rintro n s ⟨hs, hn⟩ i
    rw [List.append_assoc]
    exact .mk hname heq (hs.integer hn _) (ho _) hsemi
  | options hname heq hn hg hsemi =>
    exact hg.carries.within fun os t hos i ↦ .mk hname heq (hn _) (hos _) hsemi

/-! ## Statements -/

theorem Extensions.Around.carries {g : Gap slot (Extensions Unit)} (h : Extensions.Around slot g) :
    g.Carries (Extensions.Derives Integer noNote) := by
  cases h with
  | ranges hword hg ho hsemi =>
    exact RangesAround.carries hg |>.within fun xs t hxs i ↦ .mk hword (hxs _) (ho _) hsemi
  | options hword hr hg hsemi =>
    exact hg.carries.within fun os t hos i ↦ .mk hword (hr _) (hos _) hsemi

theorem Reserved.Around.carries {g : Gap .integer (Reserved Unit)} (h : Reserved.Around g) :
    g.Carries (Reserved.Derives Integer noNote) := by
  obtain @⟨g, word, semi, hword, hg, hfirst, hsemi⟩ := h
  intro n s hs i
  have hstart : ∃ first t, s = first :: t ∧ first.kind ≠ .string := by
    obtain ⟨first, t, rfl, hk⟩ := hs.1.exists_cons
    exact ⟨first, t, rfl, by rcases hk with hk | hk <;> simp [hk]⟩
  obtain ⟨first, t, heq, hk⟩ := exists_cons_append hfirst hstart g.behind
  have hranges := RangesAround.carries hg hs
  have hitems : (ReservedItems.Derives Integer).Anywhere (.ranges (g.said n))
      (g.before ++ s ++ g.behind) :=
        fun i ↦ .ranges (hranges i) (by rw [heq]; rintro _ ⟨⟩; exact hk)
  have hreserved : Reserved.Derives Integer noNote i _ _ := .mk hword (hitems _) hsemi
  simp only [Gap.within, List.append_assoc] at hreserved ⊢
  exact hreserved

/-! ## Oneofs and enums -/

theorem Grammar.OneOfItem.Around.carries {g : Gap slot (OneOfItem Unit)}
    (h : OneOfItem.Around config slot g) : g.Carries (OneOfItem.Derives config noNote) := by
  cases h with
  | setting hg => exact hg.carries.map fun x t hx i ↦ .setting (hx i)
  | field hg hfirst =>
    exact hg.carries.map_of_starts (Gap.starts_of_before hfirst)
      fun x first next t hx hfirst i ↦ .field (hx i) hfirst

theorem OneOf.Around.carries {g : Gap slot (OneOf Unit)} (h : OneOf.Around config slot g) :
    g.Carries (OneOf.Derives config noNote) := by
  obtain ⟨hword, hname, hg⟩ := h
  refine (hg.carries fun _ h ↦ h.carries).within fun items t hitems i ↦ ?_
  rw [List.append_nil]
  exact .mk hword hname (hitems _)

theorem Reserved.Around.ne_nil {g : Gap .integer (Reserved Unit)} (h : Reserved.Around g) :
    g.before ≠ [] := by
  cases h
  exact List.cons_ne_nil _ _

theorem Grammar.EnumItem.Around.carries {g : Gap slot (EnumItem Unit)}
    (h : EnumItem.Around slot g) : g.Carries (EnumItem.Derives Integer noNote) := by
  cases h with
  | setting hg => exact hg.carries.map fun x t hx i ↦ .setting (hx i)
  | reserved hg hnext =>
    exact hg.carries.map_of_starts (Gap.starts_of_tail (.inr rfl) hg.ne_nil hnext)
      fun x word next t hx hk i ↦ .reserved (hx i) hk
  | value hg => exact hg.carries.map fun x t hx i ↦ .value (hx i)

theorem EnumType.Around.carries {g : Gap slot (EnumType Unit)} (h : EnumType.Around slot g) :
    g.Carries (EnumType.Derives Integer noNote) := by
  obtain ⟨hword, hname, hg⟩ := h
  refine (hg.carries fun _ h ↦ h.carries).within fun items t hitems i ↦ ?_
  rw [List.append_nil]
  exact .mk hword hname (hitems _)

/-! ## Blocks -/

theorem Extensions.Around.ne_nil {g : Gap slot (Extensions Unit)} (h : Extensions.Around slot g) :
    g.before ≠ [] := by
  cases h <;> exact List.cons_ne_nil _ _

section Members

variable {inner : Body → Phrase (List (Member Unit))}
  {around : Body → (slot : Slot) → Gap slot (List (Member Unit)) → Prop}

theorem Member.AroundExtend.ne_nil {g : Gap slot (Member Unit)} (h : AroundExtend around slot g) :
    g.before ≠ [] := by
  cases h
  exact List.cons_ne_nil _ _

variable (hinner : ∀ ⦃b g⦄, around b slot g → g.Carries (inner b))

include hinner

theorem Member.AroundMessage.carries {g : Gap slot (Member Unit)}
    (h : AroundMessage around slot g) : g.Carries (DerivesMessage noNote inner) := by
  obtain ⟨hword, hname, hg⟩ := h
  refine (hinner hg).within fun xs t hxs i ↦ ?_
  rw [List.append_nil]
  exact .mk hword hname (hxs _)

theorem Member.AroundGroup.carries {g : Gap slot (Member Unit)}
    (h : AroundGroup config inner around slot g) :
    g.Carries (DerivesGroup Integer config noNote inner) := by
  cases h with
  | header hl hword hg hbody =>
    refine hg.carries.within fun x t hx i ↦ ?_
    rw [List.cons_append, List.cons_append, List.nil_append]
    exact .mk hl hword (hx _) (hbody _)
  | body hl hword hn hg =>
    refine (hinner hg).within fun xs t hxs i ↦ ?_
    rw [List.append_nil]
    exact .mk hl hword (hn _) (hxs _)

theorem Member.AroundExtend.carries {g : Gap slot (Member Unit)} (h : AroundExtend around slot g) :
    g.Carries (DerivesExtend noNote inner) := by
  obtain ⟨hword, htype, hg⟩ := h
  refine (hinner hg).within fun xs t hxs i ↦ ?_
  rw [List.append_nil]
  exact .mk hword (htype _) (hxs _)

/-- A gap in a member, if gaps in bodies carry what fills them. -/
theorem Member.Around.carries {b : Body} {g : Gap slot (Member Unit)}
    (h : Member.Around config inner around b slot g) :
    g.Carries (Member.Derives Integer config noNote inner b) := by
  cases h with
  | field hg hb =>
    exact hg.carries.map_of_starts (Gap.starts_of_before hb)
      fun x first next t hx hb i ↦ .field (hx i) hb
  | group hg => exact fun v s hv i ↦ .group (hg.carries hinner hv i)
  | message hg => exact fun v s hv i ↦ .message (hg.carries hinner hv i)
  | enumType hg => exact hg.carries.map fun x t hx i ↦ .enumType (hx i)
  | extend hg hnext =>
    have hmap : (g.map id).Carries (Member.Derives Integer config noNote inner .message) :=
      (hg.carries hinner).map_of_starts (Gap.starts_of_tail (.inl rfl) hg.ne_nil hnext)
        fun x word next t hx hk i ↦ .extend (hx i) hk
    exact hmap
  | extensions hg hnext =>
    exact hg.carries.map_of_starts (Gap.starts_of_tail (.inl rfl) hg.ne_nil hnext)
      fun x word next t hx hk i ↦ .extensions (hx i) hk
  | setting hg => exact hg.carries.map fun x t hx i ↦ .setting (hx i)
  | oneOf hg => exact hg.carries.map fun x t hx i ↦ .oneOf (hx i)
  | reserved hg hnext =>
    exact hg.carries.map_of_starts (Gap.starts_of_tail (.inl rfl) hg.ne_nil hnext)
      fun x word next t hx hk i ↦ .reserved (hx i) hk
  | mapField hg => exact hg.carries.map fun x t hx i ↦ .mapField (hx i)

end Members

/-- A gap in a body, by induction on how deep it is. -/
theorem Body.Around.carries {depth : Nat} {b : Body} {g : Gap slot (List (Member Unit))}
    (h : Body.Around config depth b slot g) :
    g.Carries (Body.Derives Integer config noNote depth b) := by
  induction depth generalizing b g with
  | zero => exact h.elim
  | succ depth ih => exact Block.Around.carries (fun _ hg ↦ hg.carries fun _ _ h ↦ ih h) h

/-! ## Services -/

theorem Rpc.Around.carries {g : Gap .constant (Rpc Unit)} (h : Rpc.Around g) :
    g.Carries (Rpc.Derives noNote) := by
  obtain ⟨hword, hname, hin, hreturns, hout, hg⟩ := h
  refine (hg.carries fun _ h ↦ h.carries).within fun os t hos i ↦ ?_
  rw [List.append_nil, List.cons_append, List.cons_append, List.append_assoc, List.cons_append]
  exact .mk hword hname (hin _) hreturns (hout _) (.block (hos _))

theorem ServiceItem.Around.carries {g : Gap .constant (ServiceItem Unit)}
    (h : ServiceItem.Around g) : g.Carries (ServiceItem.Derives noNote) := by
  cases h with
  | setting hg => exact hg.carries.map fun x t hx i ↦ .setting (hx i)
  | rpc hg => exact hg.carries.map fun x t hx i ↦ .rpc (hx i)

theorem Service.Around.carries {g : Gap .constant (Service Unit)} (h : Service.Around g) :
    g.Carries (Service.Derives noNote) := by
  obtain ⟨hword, hname, hg⟩ := h
  refine (hg.carries fun _ h ↦ h.carries).within fun items t hitems i ↦ ?_
  rw [List.append_nil]
  exact .mk hword hname (hitems _)

/-! ## Files -/

theorem Directive.Around.carries {g : Gap slot (Directive Unit)}
    (h : Directive.Around config slot g) : g.Carries (Directive.Derives Integer config noNote) := by
  cases h with
  | setting hg => exact hg.carries.map fun x t hx i ↦ .setting (hx i)
  | message hg => exact (hg.carries fun _ _ h ↦ h.carries).map fun x t hx i ↦ .message (hx i)
  | enumType hg => exact hg.carries.map fun x t hx i ↦ .enumType (hx i)
  | extend hg => exact (hg.carries fun _ _ h ↦ h.carries).map fun x t hx i ↦ .extend (hx i)
  | service hg => exact hg.carries.map fun x t hx i ↦ .service (hx i)

/-- **A file with a gap carries whatever fills the gap.** -/
theorem Schema.Around.carries {g : Gap slot (Schema Unit)} (h : Schema.Around config slot g) :
    g.Carries (Schema.Derives Integer config noNote) := by
  obtain ⟨hv, hg⟩ := h
  refine (hg.carries fun _ h ↦ h.carries).within fun ds t hds i ↦ ?_
  rw [List.append_nil]
  exact .mk (hv _) (hds _)

end ProtoSchema
