import ProtoSchema.Proofs.Grammar.Bodies
import ProtoSchema.Proofs.Grammar.Excerpt

/-!
# Empty statements

A semicolon by itself is a statement of which nothing is kept.  Wherever a statement ends or a body
begins, more statements may stand, so a semicolon more changes nothing there, however deep in the
file.

The marks at which this happens are semicolons and braces, and a file has them nowhere else: what is
in front of the body of a statement is `Unbroken`, and a statement without a body `EndsOnce`.  So a
semicolon that is put in behind such a mark either stands behind a whole statement, or is one more
in a body (`Phrase.Absorbs`).

In a text the semicolon is put in between two bytes.  No token is broken by it, since it is put in
where a token ends, and the tokens behind it move.

## What is here

* `Padded` — symbols with a semicolon more, right behind one of the marks.  Where symbols consist of
  parts, `Padded.append` tells which part has it; a part without a mark cannot (`Padded.behind`).
* `EndsOnce` — the only such mark is the last symbol, as in all statements without a body.
* `Phrase.Absorbs` — a semicolon more stays in the phrase, or is behind all of it.
* `Phrase.Statements.padded`, `Phrase.Absorbs.block` — statements and blocks, and `Padded.absorbed`,
  a heading with a block behind it.
* `OneOf.Derives.absorbs` to `Directive.Derives.absorbs` — the statements with bodies.  The bodies
  of messages are by induction on the depth.
* `Schema.Derives.padded` — a file.
* `divides_padded` — the symbols of a text with a semicolon put in.
* `parse_insert_semicolon` — the text is read as the same schema, and `parse_insert_semicolon_group`
  is the case of the brace behind a group's number.
-/

set_option autoImplicit false

namespace ProtoSchema

open Grammar Phrase

variable {semi : Symbol} {i : Nat} {s t r : List Symbol}

/-! ## One symbol more -/

/-- The symbols with one more put in right behind a mark at which a statement ends or a body
begins. -/
inductive Padded (semi : Symbol) : List Symbol → List Symbol → Prop
  | here {a : Symbol} {s : List Symbol} (hg : a.Genuine) (ha : a.kind.isBoundary) :
    Padded semi (a :: s) (a :: semi :: s)
  | there {a : Symbol} {s r : List Symbol} (h : Padded semi s r) : Padded semi (a :: s) (a :: r)

namespace Padded

/-- Where two parts meet, the new symbol belongs to the first. -/
theorem append (h : Padded semi (s ++ t) r) :
    (∃ u, Padded semi s u ∧ r = u ++ t) ∨ ∃ u, Padded semi t u ∧ r = s ++ u := by
  induction s generalizing r with
  | nil => exact .inr ⟨r, h, rfl⟩
  | cons a s ih =>
    cases h with
    | here hg ha => exact .inl ⟨a :: semi :: s, .here hg ha, rfl⟩
    | there h =>
      rcases ih h with ⟨u, hu, rfl⟩ | ⟨u, hu, rfl⟩
      · exact .inl ⟨a :: u, .there hu, rfl⟩
      · exact .inr ⟨u, hu, rfl⟩

/-- A semicolon more needs a mark. -/
theorem not_unbroken (h : Padded semi s r) : ¬Unbroken s := by
  intro hs
  induction h with
  | here hg ha => exact hs _ List.mem_cons_self hg ha
  | there _ ih => exact ih (List.forall_mem_cons.mp hs).2

/-- In front there is no mark, so the semicolon is in what is behind. -/
theorem behind (h : Padded semi (s ++ t) r) (hs : Unbroken s) :
    ∃ u, Padded semi t u ∧ r = s ++ u := by
  rcases h.append with ⟨u, hu, -⟩ | hbehind
  · exact absurd hs hu.not_unbroken
  · exact hbehind

/-- Behind a single mark. -/
theorem of_singleton {a : Symbol} (h : Padded semi [a] r) : r = [a] ++ [semi] := by
  cases h with
  | here => rfl
  | there h => cases h

/-- Behind a mark anywhere. -/
theorem of_append {a : Symbol} (hg : a.Genuine) (ha : a.kind.isBoundary) (s t : List Symbol) :
    Padded semi (s ++ a :: t) (s ++ a :: semi :: t) := by
  induction s with
  | nil => exact .here hg ha
  | cons b s ih => exact .there ih

end Padded

/-! ## Statements without a body -/

/-- No such mark stands among the symbols, but for the last of them. -/
def EndsOnce (s : List Symbol) : Prop := ∃ t a, s = t ++ [a] ∧ Unbroken t

/-- A single symbol. -/
theorem EndsOnce.single (a : Symbol) : EndsOnce [a] := ⟨[], a, rfl, .nil⟩

/-- Symbols without a mark in front change nothing. -/
theorem Unbroken.endsOnce (h : Unbroken s) (ht : EndsOnce t) : EndsOnce (s ++ t) := by
  obtain ⟨u, a, rfl, hu⟩ := ht
  exact ⟨s ++ u, a, (List.append_assoc s u [a]).symm, h.append hu⟩

/-- In a statement without a body the semicolon can only stand behind all of it. -/
theorem EndsOnce.padded (h : EndsOnce s) (hr : Padded semi s r) : r = s ++ [semi] := by
  obtain ⟨t, a, rfl, ht⟩ := h
  obtain ⟨u, hu, rfl⟩ := hr.behind ht
  rw [hu.of_singleton, List.append_assoc]

section Statements

variable {ν : Type} {config : Config} {note : Extent → ν}

theorem Setting.Derives.endsOnce {x : Setting ν} (h : x.Derives note i s) : EndsOnce s := by
  obtain ⟨hword, hn, heq, hv, -⟩ := h
  refine (Unbroken.word hword).endsOnce (hn.unbroken.endsOnce ?_)
  exact (Unbroken.single heq (by decide)).endsOnce (hv.unbroken.endsOnce (.single _))

theorem Field.Derives.endsOnce {x : Field ν} (h : x.Derives config note i s) : EndsOnce s := by
  cases h with
  | labelled hl htype hn _ =>
    refine (Unbroken.label hl).endsOnce (htype.unbroken.endsOnce ?_)
    exact hn.unbroken.endsOnce (.single _)
  | plain _ htype hn _ => exact htype.unbroken.endsOnce (hn.unbroken.endsOnce (.single _))

theorem Field.DerivesValue.endsOnce {x : Field ν} (h : x.DerivesValue note i s) : EndsOnce s := by
  obtain ⟨hname, heq, hn, ho, -⟩ := h
  refine (Unbroken.name hname).endsOnce ((Unbroken.single heq (by decide)).endsOnce ?_)
  exact hn.unbroken.endsOnce (ho.unbroken.endsOnce (.single _))

theorem MapField.Derives.endsOnce {x : MapField ν} (h : x.Derives Integer config note i s) :
    EndsOnce s := by
  obtain ⟨hword, hless, hkey, hcomma, htype, hgreater, hn, -⟩ := h
  refine (Unbroken.word hword).endsOnce ((Unbroken.single hless (by decide)).endsOnce ?_)
  refine (Unbroken.single hkey (by decide)).endsOnce
    ((Unbroken.single hcomma (by decide)).endsOnce ?_)
  refine htype.unbroken.endsOnce ((Unbroken.single hgreater (by decide)).endsOnce ?_)
  exact hn.unbroken.endsOnce (.single _)

theorem NumberRange.Derives.unbroken {x : NumberRange} (h : x.Derives Integer i s) :
    Unbroken s := by
  cases h with
  | single hn => exact hn.unbroken
  | toMax hn hto hmax =>
    exact hn.unbroken.append ((Unbroken.word hto).append (Unbroken.word hmax))
  | span hn hto hm _ => exact hn.unbroken.append ((Unbroken.word hto).append hm.unbroken)

theorem Phrase.Text.unbroken {content : String} (h : Text i content s) : Unbroken s := by
  obtain ⟨hs, -⟩ := h
  exact .single hs (by decide)

theorem Extensions.Derives.endsOnce {x : Extensions ν} (h : x.Derives Integer note i s) :
    EndsOnce s := by
  obtain ⟨hword, hranges, ho, -⟩ := h
  have hu := hranges.unbroken fun _ _ _ h ↦ h.unbroken
  exact (Unbroken.word hword).endsOnce (hu.endsOnce (ho.unbroken.endsOnce (.single _)))

theorem Reserved.Derives.endsOnce {x : Reserved ν} (h : x.Derives Integer note i s) :
    EndsOnce s := by
  obtain ⟨hword, hitems, -⟩ := h
  refine (Unbroken.word hword).endsOnce (Unbroken.endsOnce ?_ (.single _))
  cases hitems with
  | names h => exact h.unbroken fun _ _ _ h ↦ h.unbroken
  | ranges h _ => exact h.unbroken fun _ _ _ h ↦ h.unbroken

theorem Grammar.OneOfItem.Derives.endsOnce {x : OneOfItem ν} (h : x.Derives config note i s) :
    EndsOnce s := by
  cases h with
  | setting h => exact h.endsOnce
  | field h _ => exact h.endsOnce

theorem Grammar.EnumItem.Derives.endsOnce {x : EnumItem ν} (h : x.Derives Integer note i s) :
    EndsOnce s := by
  cases h with
  | setting h => exact h.endsOnce
  | reserved h _ => exact h.endsOnce
  | value h => exact h.endsOnce

theorem Import.Derives.endsOnce {x : Import ν} (h : x.Derives note i s) : EndsOnce s := by
  obtain ⟨hword, hmodifier, hfile, -⟩ := h
  refine (Unbroken.word hword).endsOnce (Unbroken.endsOnce ?_ (hfile.unbroken.endsOnce (.single _)))
  cases hmodifier with
  | none => exact .nil
  | some hs => exact .word hs

theorem Package.Derives.endsOnce {x : Package ν} (h : x.Derives note i s) : EndsOnce s := by
  obtain ⟨hword, hname, -⟩ := h
  exact (Unbroken.word hword).endsOnce (hname.unbroken.endsOnce (.single _))

theorem VersionStatement.Derives.endsOnce {x : VersionStatement ν} (h : x.Derives note i s) :
    EndsOnce s := by
  obtain ⟨hword, heq, htext, -, -⟩ := h
  refine (Unbroken.word hword).endsOnce ((Unbroken.single heq (by decide)).endsOnce ?_)
  exact htext.unbroken.endsOnce (.single _)

end Statements

/-! ## Bodies -/

/-- A semicolon more in a phrase changes no more than the notes, unless it stands behind the
phrase. -/
def Phrase.Absorbs {α β : Type} (semi : Symbol) (f : α → β) (p : Phrase α) (q : Phrase β) : Prop :=
  ∀ ⦃i x s⦄, p i x s → ∀ ⦃r⦄, Padded semi s r → r = s ++ [semi] ∨ ∀ j, q j (f x) r

section Bodies

variable {ν α β : Type} {note : Extent → ν} {p : Phrase α} {q : Phrase β} {f : α → β} {xs : List α}

/-- What has no body leaves the semicolon to what is behind it. -/
theorem Phrase.Absorbs.of_endsOnce (hp : ∀ ⦃i x s⦄, p i x s → EndsOnce s) : Absorbs semi f p q :=
  fun _ _ _ h _ hr ↦ .inl ((hp h).padded hr)

variable (hsemi : semi.kind = .semicolon)
  (hpq : ∀ ⦃i x s⦄, p i x s → ∀ ⦃j⦄, Moves (fun _ ↦ ()) note noNote i j s → q j (f x) s)
  (habsorbs : Absorbs semi f p q)

include hsemi hpq habsorbs

/-- Among statements there may be a semicolon more anywhere. -/
theorem Phrase.Statements.padded (h : Statements p i xs s) (hr : Padded semi s r) (j : Nat) :
    Statements q j (xs.map f) r := by
  induction h generalizing j r with
  | nil => cases hr
  | empty hs hxs ih =>
    cases hr with
    | here => exact .empty hs (.empty hsemi (hxs.elsewhere hpq .noNote))
    | there hr => exact .empty hs (ih hr _)
  | cons hx hxs ih =>
    rcases hr.append with ⟨u, hu, rfl⟩ | ⟨u, hu, rfl⟩
    · rcases habsorbs hx hu with rfl | hx'
      · rw [List.append_assoc]
        exact .cons (hpq hx .noNote) (.empty hsemi (hxs.elsewhere hpq .noNote))
      · exact .cons (hx' j) (hxs.elsewhere hpq .noNote)
    · exact .cons (hpq hx .noNote) (ih hu _)

/-- A block takes a semicolon more, as all its statements do. -/
theorem Phrase.Absorbs.block : Absorbs semi (List.map f) (Block p) (Block q) := by
  intro i xs s h r hr
  obtain ⟨hl, hxs, hright⟩ := h
  cases hr with
  | here => exact .inr fun j ↦ .mk hl (.empty hsemi (hxs.elsewhere hpq .noNote)) hright
  | there hr =>
    rcases hr.append with ⟨u, hu, rfl⟩ | ⟨u, hu, rfl⟩
    · exact .inr fun j ↦ .mk hl (hxs.padded hsemi hpq habsorbs hu _) hright
    · rw [hu.of_singleton]
      exact .inl (by simp)

end Bodies

/-- Behind a head that has no such mark, a semicolon more is one more in the body. -/
theorem Padded.absorbed {α β : Type} {f : α → β} {p : Phrase α} {q : Phrase β}
    (habsorbs : Absorbs semi f p q) {x : α} (h : p i x t) (hs : Unbroken s)
    (hr : Padded semi (s ++ t) r) :
    r = s ++ t ++ [semi] ∨ ∃ u, r = s ++ u ∧ ∀ j, q j (f x) u := by
  obtain ⟨u, hu, rfl⟩ := hr.behind hs
  rcases habsorbs h hu with rfl | hx
  · exact .inl (List.append_assoc s t [semi]).symm
  · exact .inr ⟨u, rfl, hx⟩

section Nodes

variable {ν : Type} {config : Config} {note : Extent → ν} (hsemi : semi.kind = .semicolon)

include hsemi

theorem OneOf.Derives.absorbs :
    Absorbs semi (OneOf.map fun _ : ν ↦ ()) (OneOf.Derives config note)
      (OneOf.Derives config noNote) := by
  intro i x s h r hr
  obtain @⟨_, word, name, items, t, hword, hname, hitems⟩ := h
  have hblock : Absorbs semi (List.map (OneOfItem.map fun _ : ν ↦ ()))
      (Block (OneOfItem.Derives config note)) (Block (OneOfItem.Derives config noNote)) :=
    .block hsemi (fun _ _ _ h _ ↦ h.elsewhere id) (.of_endsOnce fun _ _ _ h ↦ h.endsOnce)
  have hhead : Unbroken [word, name] := (Unbroken.word hword).append (.name hname)
  rcases Padded.absorbed hblock hitems hhead hr with rfl | ⟨u, rfl, hu⟩
  · exact .inl rfl
  · exact .inr fun j ↦ .of_items hword hname (hu _) rfl

theorem EnumType.Derives.absorbs :
    Absorbs semi (EnumType.map fun _ : ν ↦ ()) (EnumType.Derives Integer note)
      (EnumType.Derives Integer noNote) := by
  intro i x s h r hr
  obtain @⟨_, word, name, items, t, hword, hname, hitems⟩ := h
  have hblock : Absorbs semi (List.map (EnumItem.map fun _ : ν ↦ ()))
      (Block (EnumItem.Derives Integer note)) (Block (EnumItem.Derives Integer noNote)) :=
    .block hsemi (fun _ _ _ h _ ↦ h.elsewhere) (.of_endsOnce fun _ _ _ h ↦ h.endsOnce)
  have hhead : Unbroken [word, name] := (Unbroken.word hword).append (.name hname)
  rcases Padded.absorbed hblock hitems hhead hr with rfl | ⟨u, rfl, hu⟩
  · exact .inl rfl
  · exact .inr fun j ↦ .of_items hword hname (hu _) rfl

section Members

variable {inner : Body → Phrase (List (Member ν))} {inner' : Body → Phrase (List (Member Unit))}
  (habsorbs : ∀ b, Absorbs semi (List.map (Member.map fun _ ↦ ())) (inner b) (inner' b))

omit hsemi
include habsorbs

theorem Member.DerivesMessage.absorbs :
    Absorbs semi (Member.map fun _ ↦ ()) (Member.DerivesMessage note inner)
      (Member.DerivesMessage noNote inner') := by
  intro i x s h r hr
  obtain @⟨_, word, name, xs, t, hword, hname, hbody⟩ := h
  have hhead : Unbroken [word, name] := (Unbroken.word hword).append (.name hname)
  rw [Member.map, Member.mapAll_eq_map]
  rcases Padded.absorbed (habsorbs _) hbody hhead hr with rfl | ⟨u, rfl, hu⟩
  · exact .inl rfl
  · exact .inr fun j ↦ .mk hword hname (hu _)

theorem Member.DerivesExtend.absorbs :
    Absorbs semi (Member.map fun _ ↦ ()) (Member.DerivesExtend note inner)
      (Member.DerivesExtend noNote inner') := by
  intro i x s h r hr
  obtain @⟨_, word, type, xs, v, t, hword, htype, hbody⟩ := h
  have hhead : Unbroken (word :: v) := (Unbroken.word hword).append htype.unbroken
  rw [Member.map, Member.mapAll_eq_map]
  rcases Padded.absorbed (habsorbs _) hbody hhead hr with rfl | ⟨u, rfl, hu⟩
  · exact .inl rfl
  · exact .inr fun j ↦ .mk hword (htype.elsewhere .noNote) (hu _)

theorem Member.DerivesGroup.absorbs :
    Absorbs semi (Member.map fun _ ↦ ()) (Member.DerivesGroup Integer config note inner)
      (Member.DerivesGroup Integer config noNote inner') := by
  intro i x s h r hr
  obtain @⟨_, l, word, label, name, n, options, xs, v, t, hl, hword, hn, hbody⟩ := h
  have hhead : Unbroken (l :: word :: v) :=
    (Unbroken.label hl).append ((Unbroken.word hword).append hn.unbroken)
  rw [Member.map, Member.mapAll_eq_map]
  rcases Padded.absorbed (habsorbs _) hbody hhead hr with rfl | ⟨u, rfl, hu⟩
  · exact .inl rfl
  · exact .inr fun j ↦ .mk hl hword (hn.elsewhere id .noNote) (hu _)

omit habsorbs in
theorem Member.DerivesExtend.unbroken_head {x : Member ν} {word next : Symbol}
    (h : x.DerivesExtend note inner i (word :: next :: s)) : Unbroken [word, next] := by
  generalize hs : word :: next :: s = t at h
  obtain ⟨hword, htype, -⟩ := h
  obtain ⟨first, u, rfl, hfirst⟩ := htype.exists_cons
  simp only [List.cons_append, List.cons.injEq] at hs
  obtain ⟨rfl, rfl, -⟩ := hs
  exact (Unbroken.word hword).append (.startsType hfirst)

include hsemi

theorem Member.Derives.absorbs (b : Body) :
    Absorbs semi (Member.map fun _ ↦ ()) (Member.Derives Integer config note inner b)
      (Member.Derives Integer config noNote inner' b) := by
  intro i x s h r hr
  cases h with
  | field h _ => exact .inl (h.endsOnce.padded hr)
  | group h => exact (DerivesGroup.absorbs habsorbs h hr).imp_right fun h j ↦ .group (h j)
  | message h => exact (DerivesMessage.absorbs habsorbs h hr).imp_right fun h j ↦ .message (h j)
  | enumType h => exact (EnumType.Derives.absorbs hsemi h hr).imp_right fun h j ↦ .enumType (h j)
  | @extend _ _ word next _ h hnext =>
    obtain ⟨u, -, rfl⟩ := Padded.behind (s := [word, next]) hr h.unbroken_head
    exact (DerivesExtend.absorbs habsorbs h hr).imp_right fun h j ↦ .extend (h j) hnext
  | extensions h _ => exact .inl (h.endsOnce.padded hr)
  | setting h => exact .inl (h.endsOnce.padded hr)
  | oneOf h => exact (OneOf.Derives.absorbs hsemi h hr).imp_right fun h j ↦ .oneOf (h j)
  | reserved h _ => exact .inl (h.endsOnce.padded hr)
  | mapField h => exact .inl (h.endsOnce.padded hr)

end Members

/-- The bodies of blocks, by induction on how deep they may be nested. -/
theorem Body.Derives.absorbs (depth : Nat) (b : Body) :
    Absorbs semi (List.map (Member.map fun _ : ν ↦ ())) (Body.Derives Integer config note depth b)
      (Body.Derives Integer config noNote depth b) := by
  induction depth generalizing b with
  | zero => exact fun _ _ _ h ↦ h.elim
  | succ depth ih =>
    refine .block hsemi (fun i m s h j hm ↦ h.elsewhere id (fun _ _ _ _ h _ hm ↦ ?_) hm)
      (Member.Derives.absorbs hsemi ih b)
    exact h.elsewhere id (Nat.le_refl _) hm

theorem Rpc.Derives.absorbs :
    Absorbs semi (Rpc.map fun _ : ν ↦ ()) (Rpc.Derives note) (Rpc.Derives noNote) := by
  intro i x s h r hr
  obtain @⟨_, word, name, returns, _, _, _, _, options, v, w, t, hword, hname, hin, hreturns, hout,
    hend⟩ := h
  have hhead : Unbroken (word :: name :: (v ++ returns :: w)) :=
    (Unbroken.word hword).append ((Unbroken.name hname).append
      (hin.unbroken.append ((Unbroken.word hreturns).append hout.unbroken)))
  have hsplit (t : List Symbol) : word :: name :: (v ++ returns :: (w ++ t)) =
      word :: name :: (v ++ returns :: w) ++ t := by simp
  have hends : Absorbs semi (List.map (Setting.map fun _ : ν ↦ ())) (Rpc.End note)
      (Rpc.End noNote) := by
    intro i xs s h r hr
    cases h with
    | semicolon => exact .inl hr.of_singleton
    | block h =>
      have hblock := Absorbs.block hsemi (fun _ _ _ h _ ↦ h.elsewhere)
        (.of_endsOnce fun _ _ _ (h : Setting.Derives note _ _ _) ↦ h.endsOnce) h hr
      exact hblock.imp_right fun h j ↦ .block (h j)
  rw [hsplit] at hr ⊢
  rcases Padded.absorbed hends hend hhead hr with rfl | ⟨u, rfl, hu⟩
  · exact .inl rfl
  · rw [← hsplit]
    exact .inr fun j ↦
      .mk hword hname (hin.elsewhere .noNote) hreturns (hout.elsewhere .noNote) (hu _)

theorem ServiceItem.Derives.absorbs :
    Absorbs semi (ServiceItem.map fun _ : ν ↦ ()) (ServiceItem.Derives note)
      (ServiceItem.Derives noNote) := by
  intro i x s h r hr
  cases h with
  | setting h => exact .inl (h.endsOnce.padded hr)
  | rpc h => exact (Rpc.Derives.absorbs hsemi h hr).imp_right fun h j ↦ .rpc (h j)

theorem Service.Derives.absorbs :
    Absorbs semi (Service.map fun _ : ν ↦ ()) (Service.Derives note) (Service.Derives noNote) := by
  intro i x s h r hr
  obtain @⟨_, word, name, items, t, hword, hname, hitems⟩ := h
  have hblock := Absorbs.block hsemi (fun _ _ _ h _ ↦ h.elsewhere)
    (@ServiceItem.Derives.absorbs semi ν note hsemi)
  have hhead : Unbroken [word, name] := (Unbroken.word hword).append (.name hname)
  rcases Padded.absorbed hblock hitems hhead hr with rfl | ⟨u, rfl, hu⟩
  · exact .inl rfl
  · exact .inr fun j ↦ .mk hword hname (hu _)

theorem Directive.Derives.absorbs :
    Absorbs semi (Directive.map fun _ : ν ↦ ()) (Directive.Derives Integer config note)
      (Directive.Derives Integer config noNote) := by
  have hbody (b : Body) : Absorbs semi (List.map (Member.map fun _ : ν ↦ ()))
      (Body.Derives Integer config note config.maxDepth b)
      (Body.Derives Integer config noNote config.maxDepth b) :=
    Body.Derives.absorbs hsemi config.maxDepth b
  intro i x s h r hr
  cases h with
  | importFile h => exact .inl (h.endsOnce.padded hr)
  | package h => exact .inl (h.endsOnce.padded hr)
  | setting h => exact .inl (h.endsOnce.padded hr)
  | message h => exact (Member.DerivesMessage.absorbs hbody h hr).imp_right fun h j ↦ .message (h j)
  | enumType h => exact (EnumType.Derives.absorbs hsemi h hr).imp_right fun h j ↦ .enumType (h j)
  | extend h => exact (Member.DerivesExtend.absorbs hbody h hr).imp_right fun h j ↦ .extend (h j)
  | service h => exact (Service.Derives.absorbs hsemi h hr).imp_right fun h j ↦ .service (h j)

/-- **A file with an empty statement more** derives the same schema, but for the notes. -/
theorem Schema.Derives.padded {x : Schema ν} (h : x.Derives Integer config note i s)
    (hr : Padded semi s r) (j : Nat) : x.erase.Derives Integer config noNote j r := by
  obtain @⟨_, v?, ds, v, t, hv, hds⟩ := h
  have hversion (j : Nat) := hv.elsewhere (j := j) .noNote
  have hpq ⦃i : Nat⦄ ⦃x : Directive ν⦄ ⦃s : List Symbol⦄ (h : x.Derives Integer config note i s) ⦃j⦄
      (hm : Moves (fun _ ↦ ()) note noNote i j s) :=
    h.elsewhere id (Nat.le_refl config.maxDepth) hm
  rcases hr.append with ⟨u, hu, rfl⟩ | ⟨u, hu, rfl⟩
  · have hu' : u = v ++ [semi] := by
      cases hv with
      | none => cases hu
      | some hv => exact hv.endsOnce.padded hu
    rw [hu', List.append_assoc]
    exact .mk (hversion j) (.empty hsemi (hds.elsewhere hpq .noNote))
  · exact .mk (hversion j) (hds.padded hsemi hpq (Directive.Derives.absorbs hsemi) hu _)

end Nodes

/-! ## Semicolons in a text -/

/-- Beginnings of a text with the same number of bytes are the same. -/
theorem eq_of_length_bytesOf {cs ds us vs : List Char} (h : cs ++ us = ds ++ vs)
    (hlen : (bytesOf cs).length = (bytesOf ds).length) : cs = ds := by
  have hnil (es : List Char) (hes : (bytesOf es).length = 0) : es = [] := by
    cases es with
    | nil => rfl
    | cons c es =>
      rw [bytesOf_cons, List.length_append, String.length_utf8EncodeChar] at hes
      have hpos := c.utf8Size_pos
      omega
  rcases List.append_eq_append_iff.mp h with ⟨es, rfl, -⟩ | ⟨es, rfl, -⟩
  · rw [bytesOf_append, List.length_append] at hlen
    rw [hnil es (by omega), List.append_nil]
  · rw [bytesOf_append, List.length_append] at hlen
    rw [hnil es (by omega), List.append_nil]

/-- A text with a semicolon more is divided into the same symbols and that semicolon. -/
theorem divides_padded {text : String} {front back : List Char} {ts us : List Token}
    {t stop : Token} (hscan : scan text = .ok (ts ++ t :: (us ++ [stop]))) (hk : t.kind.isBoundary)
    (htext : text.toList = front ++ back) (hfront : (bytesOf front).length = t.span.stop.offset) :
    Divides [] (front ++ ';' :: back) (ts.map Token.toSymbol ++
      t.toSymbol :: .mark .semicolon :: us.map Token.toSymbol) := by
  obtain ⟨part, rest, hcut, hstop, hdivides, hrest⟩ := exists_cut_of_scanFrom hscan hk
  have hsame : front ++ back = part ++ rest := by rw [← htext, hcut]
  have hlength : (bytesOf front).length = (bytesOf part).length := by
    rw [hfront, hstop, Mark.offset_start_after]
  obtain rfl := eq_of_length_bytesOf hsame hlength
  obtain rfl := List.append_cancel_left hsame
  have hsemi : Divides [] (';' :: back) (.mark .semicolon :: us.map Token.toSymbol) :=
    .piece (p := ⟨.semicolon, [], none⟩) rfl (divides_of_scanFrom hrest)
  have hwhole := (hdivides (';' :: back ++ [])).append hsemi
  rwa [List.map_append, List.append_assoc] at hwhole

/-- **Empty statements are neutral.**  If a semicolon is put into a text that is read, right behind
a semicolon or a brace, the text is read with it as the same schema. -/
theorem parse_insert_semicolon {text front back : String} {config : Config} {d : Document}
    {t : Token} (h : parse text config = .ok d) (ht : t ∈ d.tokens)
    (hk : t.kind = .semicolon ∨ t.kind = .leftBrace ∨ t.kind = .rightBrace)
    (htext : text = front ++ back) (hfront : front.utf8ByteSize = t.span.stop.offset) :
    ∃ d', parse (front ++ ";" ++ back) config = .ok d' ∧ d'.schema.erase = d.schema.erase := by
  have hboundary : t.kind.isBoundary := by
    rcases hk with hk | hk | hk <;> exact congrArg Kind.isBoundary hk
  obtain ⟨ts, stop, hscan, hstop, htiled, htokens, x, hx, hderives⟩ := exists_extents_of_parse h
  rw [htokens] at ht
  rcases List.mem_append.mp ht with ht | ht
  · obtain ⟨ts₁, ts₂, rfl⟩ := List.append_of_mem ht
    rw [List.append_assoc, List.cons_append] at hscan
    have hdivides := divides_padded hscan hboundary (by rw [htext, String.toList_append])
      (length_bytesOf_toList front ▸ hfront)
    have hcomment : t.kind ≠ .comment := Kind.ne_of_isBoundary hboundary (by decide)
    have hpadded : Padded (.mark .semicolon) (significant (ts₁ ++ t :: ts₂))
        (uncommented (ts₁.map Token.toSymbol ++
          t.toSymbol :: .mark .semicolon :: ts₂.map Token.toSymbol)) := by
      rw [significant_append, significant_cons hcomment, uncommented_append,
        uncommented_cons hcomment,
        uncommented_cons (s := .mark .semicolon) nofun, ← significant_eq, ← significant_eq]
      exact .of_append (htiled.standsIn t ht).genuine hboundary _ _
    have hagain := hderives.padded rfl hpadded 0
    have htext' : (front ++ ";" ++ back).toList = front.toList ++ ';' :: back.toList := by simp
    obtain ⟨d', hd', herase⟩ := exists_parse_of_divides (htext' ▸ hdivides) hagain
    exact ⟨d', hd', by rw [herase, hx, Schema.erase_map]⟩
  · have hend : t.kind = .eof := by rw [List.mem_singleton.mp ht, hstop]
    exact absurd hend (Kind.ne_of_isBoundary hboundary (by decide))

/-- Behind the brace of a group, with a comment in front of all. -/
theorem parse_insert_semicolon_group :
    ∃ text front back d t, text =
      "// é\nmessage M \x7b optional group G = 1 \x7b int32 x = 2; \x7d \x7d" ∧
      parse text {} = .ok d ∧ t ∈ d.tokens ∧
      (t.kind = .semicolon ∨ t.kind = .leftBrace ∨ t.kind = .rightBrace) ∧ text = front ++ back ∧
      front.utf8ByteSize = t.span.stop.offset ∧
      ∃ d', parse (front ++ ";" ++ back) {} = .ok d' ∧ d'.schema.erase = d.schema.erase := by
  obtain ⟨d, h⟩ := exists_ok_of_isOk
    (x := parse "// é\nmessage M \x7b optional group G = 1 \x7b int32 x = 2; \x7d \x7d" {})
    (by decide +kernel)
  have htoken : (parse "// é\nmessage M \x7b optional group G = 1 \x7b int32 x = 2; \x7d \x7d"
      {}).toOption.bind (fun d ↦ d.tokens[9]?) =
        some ⟨⟨.leftBrace, "\x7b", none⟩, ⟨⟨39, ⟨2, 33⟩⟩, ⟨40, ⟨2, 34⟩⟩⟩⟩ := by
    decide +kernel
  rw [h] at htoken
  have ht := List.mem_of_getElem? (l := d.tokens) htoken
  exact ⟨_, "// é\nmessage M \x7b optional group G = 1 \x7b", " int32 x = 2; \x7d \x7d", d, _, rfl,
    h, ht, .inr (.inl rfl), rfl, rfl,
    parse_insert_semicolon h ht (.inr (.inl rfl)) rfl rfl⟩

end ProtoSchema
