import ProtoSchema.Proofs.Grammar.Bodies
import ProtoSchema.Proofs.Grammar.Breaking
import ProtoSchema.Proofs.Schema.Requirements

/-!
# The first requirement that is not met

Symbols that are derived with one configuration are derived with another one as the same tree, if
that configuration meets all requirements of the tree.  If it does not, there is a first requirement
among those that are not met, and the symbols up to where it is made lead to a failure.

Both are proved at once, for one relation of the grammar after another (`Verdict`).  The
configuration that the symbols are derived with does not matter; it is `lax` below.

First means first in the text.  The requirements of a tree are in the order of the statements that
they are of.  A group has two of its own, that of its number and that of its body, and they come in
this order and in front of those of its members.

## What is here

* `Requirement.Marked` — the symbol where a requirement is made: a minus sign, or a brace.
* `Requirement.FirstUnmet` — the symbols up to a mark, and the failure of the first requirement that
  is not met.  It is kept when requirements that are met are put in front (`append_met`), when
  others are put behind (`append`), and when there are more symbols on either side (`behind`,
  `before`).
* `Verdict` — either all is met and derived, or the first requirement that is not met is known,
  along with the symbols that lead to the failure.
* `Phrase.Statements.verdict`, `Phrase.Block.verdict` — statements, the first of which that is not
  derived decides.
* `Signless` — in front of the number of a statement there is no other minus sign.
* `Phrase.Numbered.verdict` to `Directive.Derives.verdict` — the lines of the grammar that anything
  is required by.
* `Body.Derives.verdict` — the bodies of blocks, by induction on the depth.
* `Schema.Derives.verdict` — a file.
-/

set_option autoImplicit false

namespace ProtoSchema

open Grammar Phrase

/-! ## Marks -/

/-- The symbol number `j` is the one to show where the requirement is made.  It is the sign of a
negative number, in front of which the statement has no other minus sign, or the brace that opens a
body, behind which there are at most semicolons until the first member begins or the block ends. -/
inductive Requirement.Marked (j : Nat) : Phrase (Requirement Extent)
  | number {i n : Nat} {loc : Extent} {u v : List Symbol} {minus s : Symbol}
    (hloc : loc = ⟨i, i + (u ++ minus :: s :: v).length⟩) (hu : ∀ a ∈ u, a.kind ≠ .minus)
    (hminus : minus.kind = .minus) (hs : s.number? = some (.integer n)) (hj : j = i + u.length) :
    Marked j i (.number (-n) loc) (u ++ minus :: s :: v)
  | nesting {i level : Nat} {body : List (Member Extent)} {loc : Extent} {u v semis : List Symbol}
    {l : Symbol} (hloc : loc = ⟨i, i + (u ++ l :: (semis ++ v)).length⟩) (hu : u ≠ []) (hv : v ≠ [])
    (hl : l.kind = .leftBrace) (hsemis : ∀ a ∈ semis, a.kind = .semicolon) (hj : j = i + u.length)
    (hbody : j + 1 + semis.length = body.head?.elim (loc.stop - 1) fun m ↦ m.loc.start) :
    Marked j i (.nesting level body loc) (u ++ l :: (semis ++ v))

variable {config lax : Config} {i j k : Nat} {s t u : List Symbol}

/-- In front of the first of some statements there are semicolons. -/
theorem Phrase.Statements.exists_semicolons {ns : List (Node Extent)}
    (h : Statements Node.Spans i ns s) :
    ∃ semis v, s = semis ++ v ∧ (∀ a ∈ semis, a.kind = .semicolon) ∧
      i + semis.length = ns.head?.elim (i + s.length) fun n ↦ n.loc.start := by
  induction h with
  | nil => exact ⟨[], [], rfl, nofun, rfl⟩
  | @empty i semi ns t hsemi _ ih =>
    obtain ⟨semis, v, rfl, hsemis, hlen⟩ := ih
    refine ⟨semi :: semis, v, rfl, List.forall_mem_cons.mpr ⟨hsemi, hsemis⟩, ?_⟩
    rw [List.length_cons, List.length_cons, Nat.add_comm semis.length, ← Nat.add_assoc, hlen,
      Nat.add_comm (List.length _) 1, ← Nat.add_assoc]
  | @cons i n ns s t hn _ _ =>
    refine ⟨[], s ++ t, rfl, nofun, ?_⟩
    rw [List.head?_cons, Option.elim_some, hn.1]
    rfl

/-- A body is marked by the brace that opens it. -/
theorem Requirement.marked_nesting {b : Body} {depth : Nat} {xs : List (Member Extent)}
    {a : List Symbol} (level : Nat)
    (h : Body.Derives Integer config id depth b (i + a.length) xs s) (ha : a ≠ []) :
    Marked (i + a.length) i (.nesting level xs ⟨i, i + (a ++ s).length⟩) (a ++ s) := by
  obtain ⟨l, r, ns, t, hl, hns, hr, hs, rfl⟩ :
      ∃ l r ns t, l.kind = .leftBrace ∧ Statements Node.Spans (i + a.length + 1) ns t ∧
        r.kind = .rightBrace ∧ s = l :: (t ++ [r]) ∧ ns = xs.map .member := by
    obtain ⟨hl, hns, hr⟩ := h.block
    exact ⟨_, _, _, _, hl, hns, hr, rfl, rfl⟩
  obtain ⟨semis, v, rfl, hsemis, hlen⟩ := hns.exists_semicolons
  rw [hs, List.append_assoc]
  refine .nesting rfl ha (by simp) hl hsemis rfl ?_
  rw [hlen]
  cases xs with
  | nil => simp; omega
  | cons m xs => cases m <;> rfl

/-! ## The first requirement that is not met -/

/-- All the requirements are of nodes behind the first `i` symbols. -/
def Requirement.Behind (i : Nat) (rs : List (Requirement Extent)) : Prop :=
  ∀ r ∈ rs, i ≤ r.loc.start

/-- The requirements are those of the symbols `t ++ u`, and the failure is that of the first of them
that is not met.  It is marked by one of the symbols `t`, and what is behind it among the
requirements is of nodes behind `t`.  The one exception is that the number of a group and its body
are of the same node. -/
inductive Requirement.FirstUnmet (config : Config) (i : Nat) (t u : List Symbol) :
    Failure → List (Requirement Extent) → Prop
  | mk {met others : List (Requirement Extent)} {r : Requirement Extent} {j : Nat} {v : Violation}
    (hmet : ∀ r ∈ met, r.Met config) (hr : r.Breaks config v)
    (hmark : (Marked j).Occurs i r (t ++ u)) (hj : j < i + t.length)
    (hothers : ∀ r' ∈ others, r'.isNumber = r.isNumber → i + t.length ≤ r'.loc.start) :
    FirstUnmet config i t u ⟨j, .violation v⟩ (met ++ r :: others)

namespace Requirement.FirstUnmet

variable {e : Failure} {r : Requirement Extent} {rs rs' : List (Requirement Extent)}

/-- The first of all requirements is not met. -/
theorem head {v : Violation} (hr : r.Breaks config v) (hmark : (Marked j).Occurs i r (t ++ u))
    (hj : j < i + t.length)
    (hrs : ∀ r' ∈ rs, r'.isNumber = r.isNumber → i + t.length ≤ r'.loc.start) :
    FirstUnmet config i t u ⟨j, .violation v⟩ (r :: rs) :=
  .mk (List.forall_mem_nil _) hr hmark hj hrs

/-- Requirements in front that are met. -/
theorem append_met (hmet : ∀ r ∈ rs', r.Met config) (h : FirstUnmet config i t u e rs) :
    FirstUnmet config i t u e (rs' ++ rs) := by
  obtain ⟨hmet', hr, hmark, hj, hothers⟩ := h
  rw [← List.append_assoc]
  exact .mk (List.forall_mem_append.mpr ⟨hmet, hmet'⟩) hr hmark hj hothers

/-- One requirement in front that is met. -/
theorem cons_met (hr : r.Met config) (h : FirstUnmet config i t u e rs) :
    FirstUnmet config i t u e (r :: rs) :=
  h.append_met (List.forall_mem_singleton.mpr hr)

/-- Requirements of what is behind the symbols. -/
theorem append (h : FirstUnmet config i t u e rs) (hrs' : Behind (i + (t ++ u).length) rs') :
    FirstUnmet config i t u e (rs ++ rs') := by
  obtain ⟨hmet, hr, hmark, hj, hothers⟩ := h
  rw [List.append_assoc, List.cons_append]
  refine .mk hmet hr hmark hj (List.forall_mem_append.mpr ⟨hothers, fun r hr' _ ↦ ?_⟩)
  exact Nat.le_trans (by simp) (hrs' r hr')

/-- The symbols with others in front of them. -/
theorem behind {a : List Symbol} (h : FirstUnmet config (i + a.length) t u e rs) :
    FirstUnmet config i (a ++ t) u e rs := by
  obtain ⟨hmet, hr, hmark, hj, hothers⟩ := h
  rw [Nat.add_assoc, ← List.length_append] at hj hothers
  refine .mk hmet hr ?_ hj hothers
  rw [List.append_assoc]
  exact hmark.behind

/-- The symbols with others behind them. -/
theorem before {w : List Symbol} (h : FirstUnmet config i t u e rs) :
    FirstUnmet config i t (u ++ w) e rs := by
  obtain ⟨hmet, hr, hmark, hj, hothers⟩ := h
  refine .mk hmet hr ?_ hj hothers
  rw [← List.append_assoc]
  exact hmark.before

end Requirement.FirstUnmet

open Requirement (FirstUnmet)

/-! ## Verdicts -/

section Verdict

variable {α β : Type} {p q : Phrase α} {breaks : Phrase Failure}
  {requirements : α → List (Requirement Extent)}

/-- Either the configuration meets the requirements, and the tree is derived, or the symbols lead to
the failure of the first requirement that is not met. -/
inductive Verdict (config : Config) (q : Phrase α) (breaks : Phrase Failure)
    (requirements : α → List (Requirement Extent)) : Phrase α
  | met {i : Nat} {x : α} {s : List Symbol} (hq : q i x s)
    (hmet : ∀ r ∈ requirements x, r.Met config) : Verdict config q breaks requirements i x s
  | unmet {i : Nat} {x : α} {e : Failure} {s t u : List Symbol} (hs : s = t ++ u)
    (he : breaks i e t) (hfirst : FirstUnmet config i t u e (requirements x)) :
    Verdict config q breaks requirements i x s

/-- What statements require is required behind where the first of them begins. -/
theorem Phrase.Statements.behind {xs : List α} (h : Statements p i xs s)
    (hp : ∀ ⦃i x s⦄, p i x s → Requirement.Behind i (requirements x)) :
    Requirement.Behind i (xs.flatMap requirements) := by
  induction h with
  | nil => nofun
  | empty _ _ ih => exact fun r hr ↦ Nat.le_of_succ_le (ih r hr)
  | cons hx _ ih =>
    exact List.forall_mem_append.mpr ⟨hp hx, fun r hr ↦ Nat.le_of_add_right_le (ih r hr)⟩

variable (hp : ∀ ⦃i x s⦄, p i x s → Requirement.Behind i (requirements x))
  (hverdict : ∀ ⦃i x s⦄, p i x s → Verdict config q breaks requirements i x s)

include hp hverdict

/-- The first statement that is not derived decides. -/
theorem Phrase.Statements.verdict {xs : List α} (h : Statements p i xs s) :
    Verdict config (Statements q) ((Statements q).Then breaks) (List.flatMap requirements)
      i xs s := by
  induction h with
  | nil => exact .met .nil nofun
  | @empty i semi xs t hsemi _ ih =>
    cases ih with
    | met hxs hmet => exact .met (.empty hsemi hxs) hmet
    | unmet hs he hfirst =>
      obtain ⟨hys, he⟩ := he
      rw [Nat.add_assoc, Nat.add_comm 1] at he
      exact .unmet (congrArg _ hs) (Then.mk (.empty hsemi hys) he) (hfirst.behind (a := [semi]))
  | @cons i x xs s t hx hxs ih =>
    cases hverdict hx with
    | met hx hmet =>
      cases ih with
      | met hxs hmet' => exact .met (.cons hx hxs) (List.forall_mem_append.mpr ⟨hmet, hmet'⟩)
      | unmet hs he hfirst =>
        obtain ⟨hys, he⟩ := he
        rw [Nat.add_assoc, ← List.length_append] at he
        have hthen := Then.mk (Statements.cons hx hys) he
        rw [List.append_assoc] at hthen
        exact .unmet (by simp [hs]) hthen (hfirst.behind.append_met hmet)
    | unmet hs he hfirst =>
      subst hs
      exact .unmet (List.append_assoc _ _ _) (.mk Statements.nil he)
        (hfirst.append (hxs.behind hp)).before

/-- A block is decided by its statements. -/
theorem Phrase.Block.verdict {xs : List α} (h : Block p i xs s) :
    Verdict config (Block q) (OpenBlock q breaks) (List.flatMap requirements) i xs s := by
  obtain @⟨_, l, r, _, t, hl, hxs, hr⟩ := h
  cases hxs.verdict hp hverdict with
  | met hxs hmet => exact .met (.mk hl hxs hr) hmet
  | @unmet _ _ e _ t u hs he hfirst =>
    exact .unmet (t := l :: t) (u := u ++ [r]) (by simp [hs]) (.mk hl he)
      (hfirst.behind (a := [l])).before

end Verdict

/-! ## Numbers -/

section Heads

/-- Among the symbols there is no minus sign. -/
def Signless (s : List Symbol) : Prop := ∀ a ∈ s, a.kind ≠ .minus

/-- What begins types has no sign. -/
theorem Signless.of_startsType (h : ∀ a ∈ s, startsType a) : Signless s := by
  intro a ha hk
  rcases kind_of_startsType (h a ha) with hk' | hk' | hk' <;> exact nomatch hk.symm.trans hk'

theorem dots_startsType {ws : List String} (h : Many (Behind .dot Name) i ws s) :
    ∀ a ∈ s, startsType a := by
  induction h with
  | nil => nofun
  | cons hw _ ih =>
    obtain ⟨hdot, ⟨hname⟩⟩ := hw
    refine List.forall_mem_cons.mpr ⟨startsType_of_kind_dot hdot, ?_⟩
    exact List.forall_mem_cons.mpr ⟨startsType_of_isName hname, ih⟩

theorem TypeRef.Derives.forall_startsType {ν : Type} {note : Extent → ν} {x : TypeRef ν}
    (h : x.Derives note i s) : ∀ a ∈ s, startsType a := by
  cases h with
  | primitive hs =>
    exact List.forall_mem_singleton.mpr (startsType_of_isName (by simp [Symbol.isName, hs]))
  | named hroot hs tail =>
    have hname := (List.forall_mem_cons (p := fun a ↦ startsType a)).mpr
      ⟨startsType_of_isName (Symbol.isName_of_kind hs), dots_startsType tail⟩
    cases hroot with
    | none => exact hname
    | some hdot => exact List.forall_mem_cons.mpr ⟨startsType_of_kind_dot hdot, hname⟩

theorem TypeRef.Derives.signless {ν : Type} {note : Extent → ν} {x : TypeRef ν}
    (h : x.Derives note i s) : Signless s :=
  .of_startsType h.forall_startsType

theorem Signless.cons {a : Symbol} {kind : Kind} (ha : a.kind = kind) (hk : kind ≠ .minus)
    (h : Signless s) : Signless (a :: s) :=
  List.forall_mem_cons.mpr ⟨ha ▸ hk, h⟩

theorem kind_of_labelOf? {l : Symbol} {label : Label} (h : labelOf? l = some label) :
    l.kind = .identifier :=
  Symbol.kind_of_isWord (Reader.isWord_of_labelOf? h)

end Heads

section Numbered

variable {name : String} {n : Int} {options : List (Setting Extent)} {a : List Symbol}

/-- The number of a statement that has the symbols `a` in front of the name and `w` behind the
options. -/
theorem Phrase.Numbered.verdict (h : Numbered Integer lax id j (name, n, options) s)
    (hj : j = i + a.length) (ha : Signless a) (w : List Symbol)
    (others : List (Requirement Extent))
    (hothers : ∀ r ∈ others, r.isNumber → i + (a ++ s).length ≤ r.loc.start) :
    Numbered Integer config id j (name, n, options) s ∧ (0 ≤ n ∨ config.allowNegative) ∨
      ∃ e t u, s = t ++ u ∧ Numbered.Breaks config j e t ∧
        FirstUnmet config i (a ++ t) (u ++ w) e
          (.number n ⟨i, i + (a ++ (s ++ w)).length⟩ :: others) := by
  obtain @⟨_, name, eq, n, options, s, t, hname, heq, ⟨hn, -⟩, ho⟩ := h
  by_cases hadmit : 0 ≤ n ∨ config.allowNegative
  · exact .inl ⟨.mk hname heq (.mk hn hadmit) ho, hadmit⟩
  · obtain ⟨hneg, hforbid⟩ := not_or.mp hadmit
    have hneg : n < 0 := Int.not_le.mp hneg
    have hforbid : config.allowNegative = false := Bool.eq_false_iff.mpr hforbid
    right
    cases hn with
    | plain h =>
      obtain ⟨-⟩ := h
      omega
    | @negative _ minus s n hm hs hfits =>
      refine ⟨_, [name, eq, minus, s], t, rfl,
        .mk hname heq (.mk (.negative hm hs hfits) hneg hforbid), ?_⟩
      have hkind : name.kind ≠ .minus := Symbol.kind_ne_of_isName hname nofun nofun
      have hfront : Signless (a ++ [name, eq]) :=
        List.forall_mem_append.mpr ⟨ha, List.forall_mem_cons.mpr
          ⟨hkind, List.forall_mem_singleton.mpr (heq ▸ nofun)⟩⟩
      have hmark := Requirement.Marked.number (i := i) (v := t ++ w) rfl hfront hm hs rfl
      refine .head (.number hneg hforbid) (.self ?_) ?_ ?_
      · simpa [hj, Nat.add_assoc] using hmark
      · simp [hj]
        omega
      · exact fun r hr hnumber ↦ Nat.le_trans (by simp) (hothers r hr hnumber)

end Numbered

/-! ## Fields -/

theorem Field.Breaks.exists_cons_cons {ν : Type} {note : Extent → ν} {e : Failure}
    (h : Field.Breaks config note i e s) : ∃ first next t, s = first :: next :: t := by
  refine exists_cons_cons_of_le ?_
  cases h with
  | labelled _ _ he | plain _ _ he =>
    obtain ⟨name, t, rfl, -⟩ := he.exists_cons
    simp
    omega

theorem Field.Derives.verdict {x : Field Extent} (h : x.Derives lax id i s) :
    Verdict config (Field.Derives config id) (Field.Breaks config id) (fun f ↦ [f.requirement])
      i x s := by
  cases h with
  | @labelled _ l semi label type name n options s t hl htype hn hsemi =>
    have hhead : Signless (l :: s) := .cons (kind_of_labelOf? hl) nofun htype.signless
    rcases hn.verdict (i := i) (by simp; omega) hhead [semi] [] nofun with
      ⟨hn, hmet⟩ | ⟨e, t, u, rfl, he, hfirst⟩
    · exact .met (.labelled hl htype hn hsemi) (List.forall_mem_singleton.mpr hmet)
    · exact .unmet (by simp) (.labelled hl htype he) hfirst
  | @plain _ first semi type name n options s t hl htype hn hsemi =>
    rcases hn.verdict (i := i) (by simp; omega) htype.signless [semi] [] nofun with
      ⟨hn, hmet⟩ | ⟨e, t, u, rfl, he, hfirst⟩
    · exact .met (.plain hl htype hn hsemi) (List.forall_mem_singleton.mpr hmet)
    · exact .unmet (by simp) (.plain hl htype he) hfirst

theorem MapField.Derives.verdict {x : MapField Extent} (h : x.Derives Integer lax id i s) :
    Verdict config (MapField.Derives Integer config id) (MapField.Breaks config id)
      (fun m ↦ [.number m.number m.loc]) i x s := by
  obtain @⟨_, word, less, key, comma, greater, semi, type, name, n, options, s, t, hword, hless,
    hkey, hcomma, htype, hgreater, hn, hsemi⟩ := h
  have hhead : Signless (word :: less :: key :: comma :: (s ++ [greater])) :=
    .cons (Symbol.kind_of_isWord hword) nofun (.cons hless nofun (.cons hkey nofun
      (.cons hcomma nofun (List.forall_mem_append.mpr
        ⟨htype.signless, Signless.cons hgreater nofun nofun⟩))))
  rcases hn.verdict (i := i) (by simp; omega) hhead [semi] [] nofun with
    ⟨hn, hmet⟩ | ⟨e, t, u, rfl, he, hfirst⟩
  · exact .met (.mk hword hless hkey hcomma htype hgreater hn hsemi)
      (List.forall_mem_singleton.mpr hmet)
  · refine .unmet (t := word :: less :: key :: comma :: (s ++ greater :: t)) (u := u ++ [semi])
      (by simp) (.mk hword hless hkey hcomma htype hgreater he) ?_
    simpa using hfirst

/-! ## Oneofs -/

/-- What an item of a oneof requires: a field its number, an option nothing. -/
def Grammar.OneOfItem.requirements : OneOfItem Extent → List (Requirement Extent)
  | .setting _ => []
  | .field f => [f.requirement]

/-- The requirements of the items are those of the fields. -/
theorem OneOfItem.flatMap_requirements (items : List (OneOfItem Extent)) :
    items.flatMap OneOfItem.requirements =
      (items.filterMap OneOfItem.field?).map Field.requirement := by
  induction items with
  | nil => rfl
  | cons x items ih =>
    rw [List.flatMap_cons, ih]
    cases x <;> rfl

theorem Field.Derives.loc_start {x : Field Extent} (h : x.Derives config id i s) :
    x.loc.start = i := by
  cases h <;> rfl

theorem Grammar.OneOfItem.Derives.verdict {x : OneOfItem Extent} (h : x.Derives lax id i s) :
    Verdict config (OneOfItem.Derives config id) (OneOfItem.Breaks config id)
      OneOfItem.requirements i x s := by
  cases h with
  | setting h => exact .met (.setting h) nofun
  | @field _ x first next s h hfirst =>
    cases h.verdict with
    | met h hmet => exact .met (.field h hfirst) hmet
    | unmet hs he hunmet =>
      obtain ⟨_, _, _, rfl⟩ := he.exists_cons_cons
      obtain ⟨rfl, rfl, -⟩ := by simpa using hs
      exact .unmet hs (.mk he hfirst) hunmet

theorem OneOf.Derives.verdict {x : OneOf Extent} (h : x.Derives lax id i s) :
    Verdict config (OneOf.Derives config id) (OneOf.Breaks config id)
      (fun o ↦ o.fields.map Field.requirement) i x s := by
  obtain @⟨_, word, name, items, s, hword, hname, hitems⟩ := h
  have hbehind ⦃i : Nat⦄ ⦃x : OneOfItem Extent⦄ ⦃s : List Symbol⦄ (h : x.Derives lax id i s) :
      Requirement.Behind i x.requirements := by
    cases h with
    | setting => nofun
    | field h => exact List.forall_mem_singleton.mpr (Nat.le_of_eq h.loc_start.symm)
  have hblock : Verdict config (Block (OneOfItem.Derives config id))
      (OpenBlock (OneOfItem.Derives config id) (OneOfItem.Breaks config id))
      (List.flatMap OneOfItem.requirements) (i + 2) items s :=
    hitems.verdict hbehind fun _ _ _ h ↦ h.verdict
  cases hblock with
  | met hitems hmet =>
    rw [OneOfItem.flatMap_requirements] at hmet
    exact .met (.mk hword hname hitems) hmet
  | unmet hs he hunmet =>
    rw [OneOfItem.flatMap_requirements] at hunmet
    exact .unmet (congrArg (word :: name :: ·) hs) (.mk hword hname he)
      (hunmet.behind (a := [word, name]))

/-! ## Blocks -/

section Members

variable {level depth : Nat} {b : Body}

theorem Member.Derives.behind {inner : Body → Phrase (List (Member Extent))} {x : Member Extent}
    (hrow : ∀ {b i xs s}, inner b i xs s →
      Row i (i + s.length) (xs.map .member) (xs.flatMap Member.nodes))
    (h : x.Derives Integer lax id inner b i s) : Requirement.Behind i (x.requirements level) := by
  intro r hr
  obtain ⟨n, hn, hloc⟩ := x.exists_node_of_requirement hr
  rw [← hloc]
  exact ((h.sits hrow).laid n hn).2.1

theorem Row.body_behind {xs : List (Member Extent)}
    (h : Row i j (xs.map .member) (xs.flatMap Member.nodes)) :
    Requirement.Behind i (Member.bodyRequirements level xs) := by
  intro r hr
  obtain ⟨n, hn, hloc⟩ := Member.exists_node_of_bodyRequirement hr
  rw [Member.bodyNodes_eq_flatMap] at hn
  rw [← hloc]
  exact (h.laid n hn).2.1

/-- What is to be said of the body of a block that has the symbols `a` in front. -/
def BodyVerdict (config : Config) (level depth : Nat)
    (inner : Body → Phrase (List (Member Extent))) : Prop :=
  ∀ ⦃b i j xs s a⦄, inner b j xs s → j = i + a.length → a ≠ [] →
    Body.Derives Integer config id depth b j xs s ∧
      (∀ r ∈ Requirement.nesting (level + 1) xs ⟨i, i + (a ++ s).length⟩ ::
        Member.bodyRequirements (level + 1) xs, r.Met config) ∨
    ∃ e t u, s = t ++ u ∧ Body.Breaks config id depth b j e t ∧
      FirstUnmet config i (a ++ t) u e (.nesting (level + 1) xs ⟨i, i + (a ++ s).length⟩ ::
        Member.bodyRequirements (level + 1) xs)

variable {inner : Body → Phrase (List (Member Extent))} {x : Member Extent}
  (hinner : BodyVerdict config level depth inner)

include hinner

theorem Member.DerivesMessage.verdict (h : x.DerivesMessage id inner i s) :
    Verdict config (DerivesMessage id (Body.Derives Integer config id depth))
      (BreaksMessage (Body.Breaks config id depth)) (Member.requirements level) i x s := by
  obtain @⟨_, word, name, xs, s, hword, hname, hbody⟩ := h
  rcases hinner (a := [word, name]) hbody rfl (by simp) with
    ⟨hbody, hmet⟩ | ⟨e, t, u, rfl, he, hunmet⟩
  · exact .met (.mk hword hname hbody) hmet
  · exact .unmet (t := word :: name :: t) rfl (.mk hword hname he) hunmet

omit hinner in
theorem Member.BreaksExtend.exists_cons_cons {ν : Type} {note : Extent → ν}
    {breaks : Body → Phrase Failure} {e : Failure} (h : BreaksExtend note breaks i e s) :
    ∃ word next t, s = word :: next :: t := by
  obtain ⟨-, htype, -⟩ := h
  obtain ⟨next, t, rfl, -⟩ := htype.exists_cons
  exact ⟨_, _, _, rfl⟩

theorem Member.DerivesExtend.verdict (h : x.DerivesExtend id inner i s) :
    Verdict config (DerivesExtend id (Body.Derives Integer config id depth))
      (BreaksExtend id (Body.Breaks config id depth)) (Member.requirements level) i x s := by
  obtain @⟨_, word, type, xs, s, t, hword, htype, hbody⟩ := h
  rcases hinner (i := i) (a := word :: s) hbody (by simp; omega) (by simp) with
    ⟨hbody, hmet⟩ | ⟨e, t, u, rfl, he, hunmet⟩
  · exact .met (.mk hword htype hbody) hmet
  · exact .unmet (t := word :: (s ++ t)) (by simp) (.mk hword htype he) hunmet

variable (hrow : ∀ {b i xs s}, inner b i xs s →
  Row i (i + s.length) (xs.map .member) (xs.flatMap Member.nodes))

include hrow

/-- The number of a group is in front of its body. -/
theorem Member.DerivesGroup.verdict (h : x.DerivesGroup Integer lax id inner i s) :
    Verdict config (DerivesGroup Integer config id (Body.Derives Integer config id depth))
      (BreaksGroup config id (Body.Breaks config id depth)) (Member.requirements level) i x s := by
  obtain @⟨_, l, word, label, name, n, options, xs, s, t, hl, hword, hn, hbody⟩ := h
  have hhead : Signless [l, word] :=
    .cons (kind_of_labelOf? hl) nofun (Signless.cons (Symbol.kind_of_isWord hword) nofun nofun)
  have hothers : ∀ r ∈ Requirement.nesting (level + 1) xs ⟨i, i + (l :: word :: (s ++ t)).length⟩ ::
      Member.bodyRequirements (level + 1) xs, r.isNumber →
        i + ([l, word] ++ s).length ≤ r.loc.start := by
    refine List.forall_mem_cons.mpr ⟨nofun, fun r hr _ ↦ ?_⟩
    have hbehind := (hrow hbody).body_behind r hr
    simp
    omega
  rcases hn.verdict (a := [l, word]) rfl hhead t _ hothers with
    ⟨hn, hmet⟩ | ⟨e, t', u, rfl, he, hunmet⟩
  · rcases hinner (i := i) (a := l :: word :: s) hbody (by simp; omega) (by simp) with
      ⟨hbody, hmet'⟩ | ⟨e, t, u, rfl, he, hunmet⟩
    · exact .met (.mk hl hword hn hbody) (List.forall_mem_cons.mpr ⟨hmet, hmet'⟩)
    · exact .unmet (t := l :: word :: (s ++ t)) (by simp) (.body hl hword hn he)
        (hunmet.cons_met hmet)
  · exact .unmet (t := l :: word :: t') (by simp) (.number hl hword he) hunmet

theorem Member.Derives.verdict (h : x.Derives Integer lax id inner b i s) :
    Verdict config (Member.Derives Integer config id (Body.Derives Integer config id depth) b)
      (Member.Breaks config id (Body.Breaks config id depth) b) (Member.requirements level)
      i x s := by
  cases h with
  | @field _ _ x first next s h hb =>
    cases h.verdict with
    | met h hmet => exact .met (.field h hb) hmet
    | unmet hs he hunmet =>
      obtain ⟨_, _, _, rfl⟩ := he.exists_cons_cons
      obtain ⟨rfl, rfl, -⟩ := by simpa using hs
      exact .unmet hs (.field he hb) hunmet
  | group h =>
    cases h.verdict hinner hrow with
    | met h hmet => exact .met (.group h) hmet
    | unmet hs he hunmet => exact .unmet hs (.group he) hunmet
  | message h =>
    cases h.verdict hinner with
    | met h hmet => exact .met (.message h) hmet
    | unmet hs he hunmet => exact .unmet hs (.message he) hunmet
  | extend h hnext =>
    cases h.verdict hinner with
    | met h hmet => exact .met (.extend h hnext) hmet
    | unmet hs he hunmet =>
      obtain ⟨_, _, _, rfl⟩ := he.exists_cons_cons
      obtain ⟨rfl, rfl, -⟩ := by simpa using hs
      exact .unmet hs (.extend he hnext) hunmet
  | oneOf h =>
    cases h.verdict with
    | met h hmet => exact .met (.oneOf h) hmet
    | unmet hs he hunmet => exact .unmet hs (.oneOf he) hunmet
  | mapField h =>
    cases h.verdict with
    | met h hmet => exact .met (.mapField h) hmet
    | unmet hs he hunmet => exact .unmet hs (.mapField he) hunmet
  | enumType h => exact .met (.enumType h) nofun
  | extensions h hnext => exact .met (.extensions h hnext) nofun
  | setting h => exact .met (.setting h) nofun
  | reserved h hnext => exact .met (.reserved h hnext) nofun

end Members

/-- So many bodies are around the body as the depth is less than the limit. -/
theorem Body.Derives.verdict {level depth depth' : Nat} (hlevel : level + depth = config.maxDepth) :
    BodyVerdict config level depth (Body.Derives Integer lax id depth') := by
  induction depth generalizing level depth' with
  | zero =>
    obtain rfl : level = config.maxDepth := hlevel
    intro b i j xs s a h hj ha
    subst hj
    have hmark := Requirement.marked_nesting (config.maxDepth + 1) h ha
    cases depth' with
    | zero => exact h.elim
    | succ depth' =>
      obtain @⟨_, l, r, _, t, hl, hxs, hr⟩ := h
      refine .inr ⟨_, [l], t ++ [r], rfl, ⟨rfl, l, rfl, hl⟩, ?_⟩
      refine .head .nesting (.self ?_) (by simp) fun r' hr' _ ↦ ?_
      · rw [List.append_assoc]
        exact hmark
      · rw [Member.bodyRequirements_eq_flatMap] at hr'
        rw [List.length_append, ← Nat.add_assoc]
        exact hxs.behind (fun _ _ _ hm ↦ hm.behind Body.Derives.row) r' hr'
  | succ depth ih =>
    intro b i j xs s a h hj ha
    cases depth' with
    | zero => exact h.elim
    | succ depth' =>
      have hinner : BodyVerdict config (level + 1) depth (Body.Derives Integer lax id depth') :=
        ih (by omega)
      have hbody : Verdict config (Body.Derives Integer config id (depth + 1) b)
          (Body.Breaks config id (depth + 1) b) (List.flatMap (Member.requirements (level + 1)))
          j xs s :=
        Block.verdict (fun _ _ _ hm ↦ hm.behind Body.Derives.row)
          (fun _ _ _ hm ↦ hm.verdict hinner Body.Derives.row) h
      have hmet : level + 1 ≤ config.maxDepth := by omega
      rw [Member.bodyRequirements_eq_flatMap]
      cases hbody with
      | met hbody hmet' => exact .inl ⟨hbody, List.forall_mem_cons.mpr ⟨hmet, hmet'⟩⟩
      | @unmet _ _ e _ t u hs he hunmet =>
        rw [hj] at hunmet
        exact .inr ⟨e, t, u, hs, he, hunmet.behind.cons_met hmet⟩

/-! ## Files -/

theorem Directive.Derives.behind {x : Directive Extent} (h : x.Derives Integer lax id i s) :
    Requirement.Behind i x.requirements := by
  cases x with
  | member m =>
    intro r hr
    obtain ⟨n, hn, hloc⟩ := m.exists_node_of_requirement hr
    rw [← hloc]
    exact (h.sits.laid n hn).2.1
  | importFile | package | service => nofun

theorem Directive.Derives.verdict {x : Directive Extent} (h : x.Derives Integer lax id i s) :
    Verdict config (Directive.Derives Integer config id) (Directive.Breaks config id)
      Directive.requirements i x s := by
  have hinner : BodyVerdict config 0 config.maxDepth
      (Body.Derives Integer lax id lax.maxDepth) :=
    Body.Derives.verdict (Nat.zero_add _)
  cases h with
  | message h =>
    cases h.verdict hinner with
    | met h hmet => exact .met (.message h) hmet
    | unmet hs he hunmet => exact .unmet hs (.message he) hunmet
  | extend h =>
    cases h.verdict hinner with
    | met h hmet => exact .met (.extend h) hmet
    | unmet hs he hunmet => exact .unmet hs (.extend he) hunmet
  | importFile h => exact .met (.importFile h) nofun
  | package h => exact .met (.package h) nofun
  | setting h => exact .met (.setting h) nofun
  | enumType h => exact .met (.enumType h) nofun
  | service h => exact .met (.service h) nofun

/-- **Whether a configuration meets the requirements decides how a schema is read with it.** -/
theorem Schema.Derives.verdict {x : Schema Extent} (h : x.Derives Integer lax id i s)
    (config : Config) :
    Verdict config (Schema.Derives Integer config id) (Schema.Breaks config id)
      Schema.requirements i x s := by
  obtain ⟨hv, hds⟩ := h
  have hstatements : Verdict config (Statements (Directive.Derives Integer config id))
      ((Statements (Directive.Derives Integer config id)).Then (Directive.Breaks config id))
      (List.flatMap Directive.requirements) _ _ _ :=
    hds.verdict (fun _ _ _ hd ↦ hd.behind) fun _ _ _ hd ↦ hd.verdict
  cases hstatements with
  | met hds hmet => exact .met (.mk hv hds) hmet
  | unmet hs he hunmet =>
    exact .unmet (by rw [hs, List.append_assoc]) (.mk hv he) hunmet.behind

end ProtoSchema
