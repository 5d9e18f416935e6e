import ProtoSchema.Proofs.Grammar.Bodies
import ProtoSchema.Proofs.Grammar.Completeness.Parse

/-!
# What stands behind an equals sign

An equals sign is in front of the constant of an option, of a number, or of the text of a version.
Whichever it is, the next symbol is an identifier, a string, a number or the sign of one.  So
nothing is read in which the name of a primitive type stands there.

No line of the grammar ends with an equals sign, so each of them is looked at by itself (`Valued`),
and for what stands behind one it is known what it begins with (`Operand`).

The statement is about all the symbols of a file at once, and not about the rule for constants.
That is what makes it usable: a text is refused because of two symbols in it, without asking which
statement they might be part of.

## What is here

* `Kind.startsValue` — the kinds that can come behind an equals sign.
* `Valued` — behind each equals sign among the symbols one of them begins a value.  It is closed
  under appending, which `Valued.append` says, because an equals sign is never the last symbol.
* `Operand` — valued symbols that begin a value themselves, so that an equals sign can be put in
  front.
* `Phrase.Many.valued` to `Phrase.Block.valued` — rows.
* `FullName.Derives.valued` to `Schema.Derives.valued` — the lines of the grammar, one lemma for
  each, by cases on the derivation.
* `exists_parse_error_of_behind_equal` — a text with such a symbol behind an equals sign is refused,
  whatever else is in it.
-/

set_option autoImplicit false

namespace ProtoSchema

open Grammar Phrase

variable {i : Nat} {s : List Symbol}

/-- The kinds of the symbols that values begin with. -/
def Kind.startsValue (kind : Kind) : Bool :=
  kind == .identifier || kind == .string || kind == .number || kind == .minus || kind == .plus

/-- Behind each equals sign among the symbols one of them begins a value, if they are those of a
text.  So the last of them is no equals sign. -/
inductive Valued : List Symbol → Prop
  | nil : Valued []
  | cons {a : Symbol} {s : List Symbol} (ha : a.Genuine → a.kind ≠ .equal) (hs : Valued s) :
    Valued (a :: s)
  | equal {eq a : Symbol} {s : List Symbol} (ha : a.Genuine → a.kind.startsValue)
    (hs : Valued (a :: s)) : Valued (eq :: a :: s)

namespace Valued

variable {a : Symbol} {t : List Symbol}

/-- Valued symbols behind valued symbols are valued. -/
theorem append (hs : Valued s) (ht : Valued t) : Valued (s ++ t) := by
  induction hs with
  | nil => exact ht
  | cons ha _ ih => exact .cons ha ih
  | equal ha _ ih => exact .equal ha ih

/-- A symbol of another kind in front. -/
theorem kind {kind : Kind} (ha : a.kind = kind) (hk : kind ≠ .equal) (hs : Valued s) :
    Valued (a :: s) :=
  .cons (fun _ ↦ ha ▸ hk) hs

theorem name (ha : a.isName) (hs : Valued s) : Valued (a :: s) :=
  .cons (fun _ ↦ Symbol.kind_ne_of_isName ha (by decide) (by decide)) hs

theorem word {w : String} (ha : a.isWord w) (hs : Valued s) : Valued (a :: s) :=
  .kind (Symbol.kind_of_isWord ha) (by decide) hs

theorem label {label : Label} (ha : labelOf? a = some label) (hs : Valued s) : Valued (a :: s) :=
  .word (Reader.isWord_of_labelOf? ha) hs

theorem number {n : Number} (ha : a.number? = some n) : Valued [a] := by
  refine .cons (fun hg ↦ ?_) .nil
  rw [hg.kind_of_number? (Option.isSome_of_eq_some ha)]
  decide

theorem semicolon (ha : a.kind = .semicolon) : Valued [a] := .kind ha (by decide) .nil

/-- What an equals sign among the symbols of a text has behind it. -/
theorem startsValue {eq : Symbol} (h : Valued (s ++ eq :: a :: t)) (heq : eq.kind = .equal)
    (hg : eq.Genuine) (ha : a.Genuine) : a.kind.startsValue := by
  induction s with
  | nil =>
    cases h with
    | cons hne => exact absurd heq (hne hg)
    | equal hvalue => exact hvalue ha
  | cons b s ih =>
    -- whichever way `b` is passed, the symbols behind it are valued, and they are not taken apart
    generalize hs : s ++ eq :: a :: t = u at h ih
    rw [List.cons_append, hs] at h
    cases h with
    | cons _ h => exact ih h
    | equal _ h => exact ih h

end Valued

/-- Such symbols, the first of which begins a value itself. -/
structure Operand (s : List Symbol) : Prop where
  valued : Valued s
  starts : ∃ first t, s = first :: t ∧ (first.Genuine → first.kind.startsValue)

namespace Operand

variable {a : Symbol}

/-- An equals sign can stand in front of an operand. -/
theorem behind {eq : Symbol} (h : Operand s) : Valued (eq :: s) := by
  obtain ⟨hs, first, t, rfl, hfirst⟩ := h
  exact .equal hfirst hs

theorem kind {kind : Kind} (ha : a.kind = kind) (hk : kind.startsValue) (hs : Valued s) :
    Operand (a :: s) := by
  refine ⟨.kind ha ?_ hs, a, s, rfl, fun _ ↦ ha ▸ hk⟩
  rintro rfl
  cases hk

theorem word {w : String} (ha : a.isWord w) : Operand [a] :=
  .kind (Symbol.kind_of_isWord ha) rfl .nil

theorem sign {negative : Bool} (ha : a.kind = signKind negative) (hs : Valued s) :
    Operand (a :: s) :=
  .kind ha (by cases negative <;> rfl) hs

theorem number {n : Number} (ha : a.number? = some n) : Operand [a] := by
  refine ⟨.number ha, a, [], rfl, fun hg ↦ ?_⟩
  rw [hg.kind_of_number? (Option.isSome_of_eq_some ha)]
  rfl

end Operand

/-! ## Rows -/

section Rows

variable {α : Type} {p : Phrase α} {xs : List α} (hp : ∀ ⦃i x s⦄, p i x s → Valued s)

include hp

theorem Phrase.Behind.valued {kind : Kind} (hk : kind ≠ .equal) {x : α} (h : Behind kind p i x s) :
    Valued s := by
  obtain ⟨hs, hx⟩ := h
  exact .kind hs hk (hp hx)

/-- A row is valued if its items are. -/
theorem Phrase.Many.valued (h : Many p i xs s) : Valued s := by
  induction h with
  | nil => exact .nil
  | cons hx _ ih => exact (hp hx).append ih

theorem Phrase.Separated.valued (h : Separated p i xs s) : Valued s := by
  obtain ⟨hx, hxs⟩ := h
  exact (hp hx).append (hxs.valued fun _ _ _ h ↦ h.valued hp (by decide))

theorem Phrase.Statements.valued (h : Statements p i xs s) : Valued s := by
  induction h with
  | nil => exact .nil
  | empty hs _ ih => exact .kind hs (by decide) ih
  | cons hx _ ih => exact (hp hx).append ih

theorem Phrase.Block.valued (h : Block p i xs s) : Valued s := by
  obtain ⟨hl, hxs, hr⟩ := h
  exact .kind hl (by decide) ((hxs.valued hp).append (.kind hr (by decide) .nil))

end Rows

/-! ## Names and values -/

theorem dots_valued {ws : List String} (h : Many (Behind .dot Name) i ws s) : Valued s := by
  refine h.valued fun _ _ _ h ↦ h.valued (fun _ _ _ h ↦ ?_) (by decide)
  obtain ⟨hname⟩ := h
  exact .name hname .nil

theorem OptionalDot.valued (h : OptionalDot s) : Valued s := by
  cases h with
  | none => exact .nil
  | some hs => exact .kind hs (by decide) .nil

section Values

variable {ν : Type} {note : Extent → ν}

theorem FullName.Derives.valued {x : FullName ν} (h : x.Derives note i s) : Valued s := by
  obtain ⟨⟨hname⟩, tail⟩ := h
  exact .name hname (dots_valued tail)

theorem OptionName.Derives.valued {x : OptionName ν} (h : x.Derives note i s) : Valued s := by
  rcases h with ⟨⟨hname⟩, tail⟩ | ⟨⟨hl, hroot, hx, hr⟩, tail⟩
  · exact .name hname (dots_valued tail)
  · refine (Valued.kind hl (by decide) ?_).append (dots_valued tail)
    exact hroot.valued.append (hx.valued.append (.kind hr (by decide) .nil))

theorem TypeRef.Derives.valued {x : TypeRef ν} (h : x.Derives note i s) : Valued s := by
  cases h with
  | primitive hs => exact .kind hs (by decide) .nil
  | named hroot hs tail => exact hroot.valued.append (.kind hs (by decide) (dots_valued tail))

theorem Phrase.Text.operand {text : String} (h : Text i text s) : Operand s := by
  obtain ⟨hs, -⟩ := h
  exact .kind hs rfl .nil

/-- A literal begins with a word, a string, a number or a sign. -/
theorem Literal.Derives.operand {v : Literal} (h : v.Derives i s) : Operand s := by
  rcases h with hs | ht | ⟨-, hn⟩ | ⟨hsign, hn⟩ | ⟨hsign, hs⟩ | ⟨hsign, hs⟩
  · exact .word hs
  · exact ht.operand
  · exact .number hn
  · exact .sign hsign (.number hn)
  · exact .sign hsign (.word hs .nil)
  · exact .sign hsign (.word hs .nil)

/-- The name of a primitive type is no constant, and begins none either. -/
theorem Constant.Derives.operand {v : Constant ν} (h : v.Derives note i s) : Operand s := by
  cases h with
  | @name _ first t _ hs hn =>
    have hk : first.kind = .identifier := by
      simp only [startsNameValue, Symbol.is, Bool.and_eq_true, beq_iff_eq] at hs
      exact hs.1.1
    exact ⟨hn.valued, first, t, rfl, fun _ ↦ hk ▸ rfl⟩
  | literal hv => exact hv.operand

/-- An integer begins with a number or a sign. -/
theorem Phrase.Integer.operand {n : Int} (h : Integer i n s) : Operand s := by
  rcases h with ⟨⟨hs, -⟩, -⟩ | ⟨hm, hs, -⟩
  · exact .number hs
  · exact .kind hm rfl (.number hs)

theorem NumberRange.Derives.valued {x : NumberRange} (h : x.Derives Integer i s) : Valued s := by
  cases h with
  | single hn => exact hn.operand.valued
  | toMax hn hto hmax => exact hn.operand.valued.append (.word hto (.word hmax .nil))
  | span hn hto hm => exact hn.operand.valued.append (.word hto hm.operand.valued)

/-! ## Options and fields -/

theorem Setting.DerivesEntry.valued {x : Setting ν} (h : x.DerivesEntry note i s) : Valued s := by
  obtain ⟨hn, -, hv⟩ := h
  exact hn.valued.append hv.operand.behind

theorem Setting.Bracketed.valued {xs : List (Setting ν)} (h : Bracketed note i xs s) :
    Valued s := by
  cases h with
  | none => exact .nil
  | some hl hxs hr =>
    refine .kind hl (by decide) (.append ?_ (.kind hr (by decide) .nil))
    exact hxs.valued fun _ _ _ h ↦ h.valued

theorem Setting.Derives.valued {x : Setting ν} (h : x.Derives note i s) : Valued s := by
  obtain ⟨hword, hn, -, hv, hsemi⟩ := h
  refine .word hword (hn.valued.append ?_)
  exact hv.operand.behind.append (.semicolon hsemi)

variable {config : Config}

theorem Phrase.Numbered.valued {x : String × Int × List (Setting ν)}
    (h : Numbered Integer config note i x s) : Valued s := by
  obtain ⟨hname, -, ⟨hn, -⟩, ho⟩ := h
  exact .name hname (hn.operand.behind.append ho.valued)

theorem Field.Derives.valued {x : Field ν} (h : x.Derives config note i s) : Valued s := by
  cases h with
  | labelled hl htype hn hsemi =>
    exact .label hl (htype.valued.append (hn.valued.append (.semicolon hsemi)))
  | plain _ htype hn hsemi => exact htype.valued.append (hn.valued.append (.semicolon hsemi))

theorem MapField.Derives.valued {x : MapField ν} (h : x.Derives Integer config note i s) :
    Valued s := by
  obtain ⟨hword, hless, hkey, hcomma, htype, hgreater, hn, hsemi⟩ := h
  refine .word hword (.kind hless (by decide) ?_)
  refine .kind hkey (by decide) (.kind hcomma (by decide) ?_)
  exact htype.valued.append (.kind hgreater (by decide) (hn.valued.append (.semicolon hsemi)))

theorem Field.DerivesValue.valued {x : Field ν} (h : x.DerivesValue note i s) : Valued s := by
  obtain ⟨hname, -, hn, ho, hsemi⟩ := h
  exact .name hname (hn.operand.behind.append (ho.valued.append (.semicolon hsemi)))

/-! ## Statements -/

theorem Extensions.Derives.valued {x : Extensions ν} (h : x.Derives Integer note i s) :
    Valued s := by
  obtain ⟨hword, hr, ho, hsemi⟩ := h
  refine .word hword ((hr.valued fun _ _ _ h ↦ h.valued).append ?_)
  exact ho.valued.append (.semicolon hsemi)

theorem Reserved.Derives.valued {x : Reserved ν} (h : x.Derives Integer note i s) : Valued s := by
  obtain ⟨hword, hitems, hsemi⟩ := h
  refine .word hword (.append ?_ (.semicolon hsemi))
  cases hitems with
  | names h => exact h.valued fun _ _ _ h ↦ h.operand.valued
  | ranges h => exact h.valued fun _ _ _ h ↦ h.valued

theorem OneOf.Derives.valued {x : OneOf ν} (h : x.Derives config note i s) : Valued s := by
  obtain ⟨hword, hname, hitems⟩ := h
  refine .word hword (.name hname (hitems.valued fun _ _ _ h ↦ ?_))
  cases h with
  | setting h | field h => exact h.valued

theorem EnumType.Derives.valued {x : EnumType ν} (h : x.Derives Integer note i s) : Valued s := by
  obtain ⟨hword, hname, hitems⟩ := h
  refine .word hword (.name hname (hitems.valued fun _ _ _ h ↦ ?_))
  cases h with
  | setting h | reserved h | value h => exact h.valued

/-! ## Blocks -/

section Members

variable {inner : Body → Phrase (List (Member ν))}
  (hinner : ∀ {b : Body} {i : Nat} {xs : List (Member ν)} {s : List Symbol},
    inner b i xs s → Valued s)

include hinner

theorem Member.DerivesMessage.valued {x : Member ν} (h : x.DerivesMessage note inner i s) :
    Valued s := by
  obtain ⟨hword, hname, hbody⟩ := h
  exact .word hword (.name hname (hinner hbody))

theorem Member.DerivesGroup.valued {x : Member ν}
    (h : x.DerivesGroup Integer config note inner i s) : Valued s := by
  obtain ⟨hl, hword, hn, hbody⟩ := h
  exact .label hl (.word hword (hn.valued.append (hinner hbody)))

theorem Member.DerivesExtend.valued {x : Member ν} (h : x.DerivesExtend note inner i s) :
    Valued s := by
  obtain ⟨hword, htype, hbody⟩ := h
  exact .word hword (htype.valued.append (hinner hbody))

/-- In a member each equals sign is in front of a value, if it is so in bodies. -/
theorem Member.Derives.valued {b : Body} {x : Member ν}
    (h : Member.Derives Integer config note inner b i x s) : Valued s := by
  cases h with
  | field h | enumType h | extensions h | setting h | oneOf h | reserved h | mapField h =>
    exact h.valued
  | group h | message h | extend h => exact h.valued hinner

end Members

theorem Body.Derives.valued {depth : Nat} {b : Body} {xs : List (Member ν)}
    (h : Body.Derives Integer config note depth b i xs s) : Valued s := by
  induction depth generalizing b i xs s with
  | zero => exact h.elim
  | succ depth ih => exact Block.valued (fun _ _ _ h ↦ h.valued ih) h

/-! ## Services -/

theorem Rpc.Endpoint.valued {x : Bool × TypeRef ν} (h : Endpoint note i x s) : Valued s := by
  rcases h with ⟨hl, htype, -, hr⟩ | ⟨hl, hword, htype, hr⟩
  · exact .kind hl (by decide) (htype.valued.append (.kind hr (by decide) .nil))
  · exact .kind hl (by decide) (.word hword (htype.valued.append (.kind hr (by decide) .nil)))

theorem Rpc.Derives.valued {x : Rpc ν} (h : x.Derives note i s) : Valued s := by
  obtain ⟨hword, hname, hin, hreturns, hout, hend⟩ := h
  refine .word hword (.name hname (hin.valued.append (.word hreturns (hout.valued.append ?_))))
  cases hend with
  | semicolon hsemi => exact .semicolon hsemi
  | block h => exact h.valued fun _ _ _ h ↦ h.valued

theorem Service.Derives.valued {x : Service ν} (h : x.Derives note i s) : Valued s := by
  obtain ⟨hword, hname, hitems⟩ := h
  refine .word hword (.name hname (hitems.valued fun _ _ _ h ↦ ?_))
  cases h with
  | setting h | rpc h => exact h.valued

/-! ## Files -/

theorem Import.Derives.valued {x : Import ν} (h : x.Derives note i s) : Valued s := by
  obtain ⟨hword, hm, hfile, hsemi⟩ := h
  refine .word hword (.append ?_ (hfile.operand.valued.append (.semicolon hsemi)))
  cases hm with
  | none => exact .nil
  | some hs => exact .word hs .nil

theorem Package.Derives.valued {x : Package ν} (h : x.Derives note i s) : Valued s := by
  obtain ⟨hword, hname, hsemi⟩ := h
  exact .word hword (hname.valued.append (.semicolon hsemi))

theorem Directive.Derives.valued {x : Directive ν} (h : x.Derives Integer config note i s) :
    Valued s := by
  cases h with
  | importFile h | package h | setting h | enumType h | service h => exact h.valued
  | message h | extend h => exact h.valued fun h ↦ h.valued

theorem VersionStatement.Derives.valued {x : VersionStatement ν} (h : x.Derives note i s) :
    Valued s := by
  obtain ⟨hword, -, htext, -, hsemi⟩ := h
  exact .word hword (htext.operand.behind.append (.semicolon hsemi))

/-- In a file each equals sign is in front of a value. -/
theorem Schema.Derives.valued {x : Schema ν} (h : x.Derives Integer config note i s) :
    Valued s := by
  obtain ⟨hv, hds⟩ := h
  refine .append ?_ (hds.valued fun _ _ _ h ↦ h.valued)
  cases hv with
  | none => exact .nil
  | some h => exact h.valued

/-- **Nothing is read in which a symbol that begins no value stands behind an equals sign**, such as
the name of a primitive type. -/
theorem exists_parse_error_of_behind_equal {text : String} {ss u v : List Symbol} {eq a : Symbol}
    (htext : Divides [] text.toList ss) (hss : uncommented ss = u ++ eq :: a :: v)
    (heq : eq.kind = .equal) (ha : ¬a.kind.startsValue) :
    ∃ e, parse text config = .error (.syntactic e) := by
  obtain ⟨ts, hscan, rfl⟩ := scanFrom_of_divides htext .start
  cases hread : Document.ofTokens config (ts ++ [Token.endAt (Mark.start.after text.toList)]) with
  | error e => exact ⟨e, by simp only [parse, scan, hscan, hread]⟩
  | ok d =>
    -- what is read is derived from the same symbols, for there is only one scan
    obtain ⟨ts', stop, hscan', -, htiled, x, -, hx⟩ :=
      exists_tiled_of_parse noNote (parse_eq_ok_iff.mpr ⟨_, hscan, hread⟩)
    obtain ⟨rfl, -⟩ := List.append_inj' (Except.ok.inj (hscan'.symm.trans hscan)) rfl
    have hgenuine := fun b hb ↦ genuine_of_mem_significant htiled (s := b) hb
    rw [significant_eq, hss] at hx hgenuine
    exact absurd (hx.valued.startsValue heq (hgenuine eq (by simp)) (hgenuine a (by simp))) ha

end Values

end ProtoSchema
