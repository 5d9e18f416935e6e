import ProtoSchema.Proofs.Grammar.Layout
import ProtoSchema.Proofs.Grammar.Occurrence
import ProtoSchema.Proofs.Token.Genuine

/-!
# Bodies

A node with a body is made of a head, in which no brace opens, and of statements between braces.  So
the body begins at the first opening brace of the node and ends with the node, and each symbol of it
is one of exactly one statement or is a semicolon that stands for an empty one.

Oneofs and enums keep their statements sorted by what they are, so their lists are not in the order
of the statements, but they have the same members.

## What is here

* `Unbroken` — symbols among which no statement ends and no body begins, and `Unbraced`, the half of
  it about braces.  Both are said of genuine symbols only: a made-up symbol can have a number for
  its value and the kind of a brace, and it would be read as a number.
* `Unbroken.cons` to `Unbroken.number`, `Phrase.Many.unbroken` and `FullName.Derives.unbroken` to
  `Rpc.Endpoint.unbroken` — heads are unbroken, line by line.
* `Node.Spans` — the node is made of the symbols, whatever is inside of it.
* `Extent.covers`, `Phrase.Statements.covered` — a symbol of statements is covered by one of them or
  is a semicolon between them.
* `Node.Braced` — a node as a head and a body.  `perm_oneOf` and `perm_enum` are what makes it true
  of the nodes that sort their statements.
* `Node.Derives.braced` — every node that can have a body has one of this form, but for a call that
  ends with a semicolon.
* `Schema.Derives.statements` — the roots of a file, as statements.
-/

set_option autoImplicit false

namespace ProtoSchema

open Grammar Phrase

variable {i : Nat} {s : List Symbol}

/-! ## Heads -/

/-- No statement ends among the symbols and no body begins, if they are those of a text. -/
def Unbroken (s : List Symbol) : Prop := ∀ a ∈ s, a.Genuine → ¬a.kind.isBoundary

/-- No brace opens among the symbols, if they are those of a text. -/
def Unbraced (s : List Symbol) : Prop := ∀ a ∈ s, a.Genuine → a.kind ≠ .leftBrace

theorem Unbroken.nil : Unbroken [] := List.forall_mem_nil _

theorem Unbroken.cons {a : Symbol} (ha : ¬a.kind.isBoundary) (h : Unbroken s) : Unbroken (a :: s) :=
  List.forall_mem_cons.mpr ⟨fun _ ↦ ha, h⟩

/-- Unbroken symbols behind unbroken symbols are unbroken. -/
theorem Unbroken.append {t : List Symbol} (hs : Unbroken s) (ht : Unbroken t) : Unbroken (s ++ t) :=
  List.forall_mem_append.mpr ⟨hs, ht⟩

/-- A symbol of another kind. -/
theorem Unbroken.single {a : Symbol} {kind : Kind} (ha : a.kind = kind) (hk : ¬kind.isBoundary) :
    Unbroken [a] :=
  .cons (ha ▸ hk) .nil

theorem Unbroken.word {a : Symbol} {word : String} (ha : a.isWord word) : Unbroken [a] :=
  .single (Symbol.kind_of_isWord ha) (by decide)

theorem Unbroken.name {a : Symbol} (ha : a.isName) : Unbroken [a] := by
  simp only [Symbol.isName, Bool.or_eq_true, beq_iff_eq] at ha
  rcases ha with hk | hk <;> exact .single hk (by decide)

theorem Unbroken.label {a : Symbol} {label : Label} (ha : labelOf? a = some label) :
    Unbroken [a] := by
  have hk : a.kind = .identifier := by
    by_contra hne
    simp [labelOf?, Symbol.is, hne] at ha
  exact .single hk (by decide)

theorem Unbroken.startsType {a : Symbol} (ha : startsType a) : Unbroken [a] := by
  rcases kind_of_startsType ha with hk | hk | hk <;> exact .single hk (by decide)

theorem Unbroken.number {a : Symbol} {n : Number} (ha : a.number? = some n) : Unbroken [a] := by
  refine List.forall_mem_singleton.mpr fun hg ↦ ?_
  rw [hg.kind_of_number? (by simp [ha])]
  decide

/-- Where no statement ends and no body begins, no brace opens. -/
theorem Unbroken.unbraced (h : Unbroken s) : Unbraced s := by
  intro a ha hg hk
  exact h a ha hg (by rw [hk]; rfl)

section Rows

variable {α : Type} {p : Phrase α} {xs : List α} (hp : ∀ ⦃i x s⦄, p i x s → Unbroken s)

include hp

theorem Phrase.Behind.unbroken {kind : Kind} (hk : ¬kind.isBoundary) {x : α}
    (h : Behind kind p i x s) : Unbroken s := by
  obtain ⟨hs, hx⟩ := h
  exact .cons (hs ▸ hk) (hp hx)

/-- A row is unbroken if its items are. -/
theorem Phrase.Many.unbroken (h : Many p i xs s) : Unbroken s := by
  induction h with
  | nil => exact .nil
  | cons hx _ ih => exact (hp hx).append ih

theorem Phrase.Separated.unbroken (h : Separated p i xs s) : Unbroken s := by
  obtain ⟨hx, hxs⟩ := h
  exact (hp hx).append (hxs.unbroken fun _ _ _ h ↦ h.unbroken hp (by decide))

end Rows

theorem Phrase.Name.unbroken {w : String} (h : Name i w s) : Unbroken s := by
  obtain ⟨hs⟩ := h
  exact .name hs

theorem dots_unbroken {ws : List String} (h : Many (Behind .dot Name) i ws s) : Unbroken s :=
  h.unbroken fun _ _ _ h ↦ h.unbroken (fun _ _ _ h ↦ h.unbroken) (by decide)

theorem OptionalDot.unbroken (h : OptionalDot s) : Unbroken s := by
  cases h with
  | none => exact .nil
  | some hs => exact .single hs (by decide)

section Heads

variable {ν : Type} {note : Extent → ν}

theorem FullName.Derives.unbroken {x : FullName ν} (h : x.Derives note i s) : Unbroken s := by
  obtain ⟨head, tail⟩ := h
  exact head.unbroken.append (dots_unbroken tail)

theorem OptionName.Derives.unbroken {x : OptionName ν} (h : x.Derives note i s) : Unbroken s := by
  rcases h with ⟨head, tail⟩ | ⟨⟨hl, hroot, hx, hr⟩, tail⟩
  · exact head.unbroken.append (dots_unbroken tail)
  · refine (Unbroken.cons (by rw [hl]; decide) ?_).append (dots_unbroken tail)
    exact hroot.unbroken.append (hx.unbroken.append (.single hr (by decide)))

theorem TypeRef.Derives.unbroken {x : TypeRef ν} (h : x.Derives note i s) : Unbroken s := by
  cases h with
  | primitive hs => exact .single hs (by decide)
  | named hroot hs tail =>
    exact hroot.unbroken.append (.cons (by rw [hs]; decide) (dots_unbroken tail))

theorem Unbroken.sign {a : Symbol} {negative : Bool} (ha : a.kind = signKind negative) :
    Unbroken [a] :=
  .single ha (by cases negative <;> decide)

theorem Literal.Derives.unbroken {v : Literal} (h : v.Derives i s) : Unbroken s := by
  rcases h with hs | ⟨⟨hs, -⟩⟩ | ⟨-, hn⟩ | ⟨hsign, hn⟩ | ⟨hsign, hs⟩ | ⟨hsign, hs⟩
  · exact .word hs
  · exact .single hs (by decide)
  · exact .number hn
  · exact (Unbroken.sign hsign).append (.number hn)
  · exact (Unbroken.sign hsign).append (.word hs)
  · exact (Unbroken.sign hsign).append (.word hs)

theorem Constant.Derives.unbroken {v : Constant ν} (h : v.Derives note i s) : Unbroken s := by
  cases h with
  | name _ hn => exact hn.unbroken
  | literal hv => exact hv.unbroken

theorem Setting.DerivesEntry.unbroken {x : Setting ν} (h : x.DerivesEntry note i s) :
    Unbroken s := by
  obtain ⟨hn, heq, hv⟩ := h
  exact hn.unbroken.append (.cons (by rw [heq]; decide) hv.unbroken)

theorem Setting.Bracketed.unbroken {xs : List (Setting ν)} (h : Bracketed note i xs s) :
    Unbroken s := by
  cases h with
  | none => exact .nil
  | some hl hxs hr =>
    refine .cons (by rw [hl]; decide) (.append ?_ (.single hr (by decide)))
    exact hxs.unbroken fun _ _ _ h ↦ h.unbroken

theorem Phrase.Integer.unbroken {n : Int} (h : Integer i n s) : Unbroken s := by
  rcases h with ⟨⟨hs, -⟩, -⟩ | ⟨hm, hs, -⟩
  · exact .number hs
  · exact .cons (by rw [hm]; decide) (.number hs)

theorem Phrase.Numbered.unbroken {config : Config} {name : String} {n : Int}
    {options : List (Setting ν)} (h : Numbered Integer config note i (name, n, options) s) :
    Unbroken s := by
  obtain ⟨hname, heq, ⟨hn, -⟩, ho⟩ := h
  exact (Unbroken.name hname).append (.cons (by rw [heq]; decide) (hn.unbroken.append ho.unbroken))

theorem Rpc.Endpoint.unbroken {x : Bool × TypeRef ν} (h : Rpc.Endpoint note i x s) :
    Unbroken s := by
  rcases h with ⟨hl, htype, -, hr⟩ | ⟨hl, hword, htype, hr⟩
  · exact .cons (by rw [hl]; decide) (htype.unbroken.append (.single hr (by decide)))
  · exact .cons (by rw [hl]; decide) ((Unbroken.word hword).append
      (htype.unbroken.append (.single hr (by decide))))

end Heads

/-! ## Statements -/

/-- The node is made of the symbols. -/
def Node.Spans : Phrase (Node Extent) := fun i n s => n.loc = ⟨i, i + s.length⟩ ∧ 0 < s.length

theorem Node.Sits.spans {n : Node Extent} {all : List (Node Extent)} (h : n.Sits i s all) :
    n.Spans i s :=
  ⟨h.loc, h.pos⟩

/-- Whether the symbol with the given number is one of the extent. -/
def Extent.covers (e : Extent) (j : Nat) : Bool := e.start ≤ j && j < e.stop

theorem Extent.covers_iff {e : Extent} {j : Nat} : e.covers j ↔ e.start ≤ j ∧ j < e.stop := by
  simp [covers]

/-- In front of statements there is none of their symbols. -/
theorem Phrase.Statements.countP_eq_zero {ns : List (Node Extent)}
    (h : Statements Node.Spans i ns s) {j : Nat} (hj : j < i) : ns.countP (·.loc.covers j) = 0 := by
  induction h with
  | nil => rfl
  | empty _ _ ih => exact ih (Nat.lt_succ_of_lt hj)
  | @cons i n ns s t hn _ ih =>
    have hcovers : ¬n.loc.covers j := by
      rw [hn.1, Extent.covers_iff]
      simp only [not_and]
      omega
    rw [List.countP_cons, if_neg hcovers]
    exact ih (Nat.lt_add_right _ hj)

/-- A symbol of statements is one of exactly one of them, or a semicolon and of none. -/
theorem Phrase.Statements.covered {ns : List (Node Extent)} (h : Statements Node.Spans i ns s)
    {j : Nat} {a : Symbol} (hj : i ≤ j) (ha : s[j - i]? = some a) :
    ns.countP (·.loc.covers j) = 1 ∨ a.kind = .semicolon ∧ ns.countP (·.loc.covers j) = 0 := by
  induction h with
  | nil => simp at ha
  | @empty i semi ns t hsemi hns ih =>
    rcases Nat.eq_or_lt_of_le hj with rfl | hlt
    · rw [Nat.sub_self, List.getElem?_cons_zero, Option.some.injEq] at ha
      exact .inr ⟨ha ▸ hsemi, hns.countP_eq_zero (Nat.lt_succ_self _)⟩
    · have hsub : j - i = j - (i + 1) + 1 := by omega
      rw [hsub, List.getElem?_cons_succ] at ha
      exact ih hlt ha
  | @cons i n ns s t hn hns ih =>
    rcases Nat.lt_or_ge j (i + s.length) with hlt | hge
    · have hcovers : n.loc.covers j := by
        rw [hn.1, Extent.covers_iff]
        exact ⟨hj, hlt⟩
      left
      rw [List.countP_cons, if_pos hcovers, hns.countP_eq_zero hlt]
    · have hcovers : ¬n.loc.covers j := by
        rw [hn.1, Extent.covers_iff]
        exact fun h ↦ absurd h.2 (Nat.not_lt.mpr hge)
      rw [List.getElem?_append_right (by omega), Nat.sub_sub] at ha
      rw [List.countP_cons, if_neg hcovers]
      exact ih hge ha

/-! ## Nodes with bodies -/

/-- The node is made of a head and a body, and the statements of the body are those of the node. -/
inductive Node.Braced : Phrase (Node Extent)
  | mk {i : Nat} {n : Node Extent} {statements items : List (Node Extent)} {u t : List Symbol}
    (hloc : n.loc = ⟨i, i + (u ++ t).length⟩) (hne : u ≠ []) (hu : Unbraced u)
    (hbody : n.body? = some statements) (hitems : Block Node.Spans (i + u.length) items t)
    (hperm : items.Perm statements) : Braced i n (u ++ t)

/-- The statements of a oneof are its options and its fields, in another order. -/
theorem perm_oneOf (items : List (OneOfItem Extent)) :
    (items.map OneOfItem.node).Perm ((items.filterMap OneOfItem.setting?).map Setting.node ++
      (items.filterMap OneOfItem.field?).map Field.node) := by
  induction items with
  | nil => exact .nil
  | cons x items ih =>
    cases x with
    | setting => exact ih.cons _
    | field => exact (ih.cons _).trans List.perm_middle.symm

/-- The statements of an enum are its options, its values and what it reserves, in another order. -/
theorem perm_enum (items : List (EnumItem Extent)) :
    (items.map EnumItem.node).Perm ((items.filterMap EnumItem.setting?).map Setting.node ++
      (items.filterMap EnumItem.value?).map Field.node ++
        (items.filterMap EnumItem.reserved?).map Reserved.node) := by
  induction items with
  | nil => exact .nil
  | cons x items ih =>
    cases x with
    | setting => exact ih.cons _
    | value =>
      rw [List.append_assoc] at ih ⊢
      exact (ih.cons _).trans List.perm_middle.symm
    | reserved => exact (ih.cons _).trans List.perm_middle.symm

variable {config : Config}

/-- The body of a block is statements between braces, each made of its symbols. -/
theorem Body.Derives.block {depth : Nat} {b : Body} {xs : List (Member Extent)}
    (h : Body.Derives Integer config id depth b i xs s) :
    Block Node.Spans i (xs.map .member) s := by
  cases depth with
  | zero => exact h.elim
  | succ depth => exact Block.imp (fun _ _ _ hm ↦ (hm.sits Body.Derives.row).spans) h

/-- The head of most nodes is a keyword and a name. -/
theorem Node.Braced.named {n : Node Extent} {word name : Symbol} {keyword : String}
    {statements items : List (Node Extent)} {t : List Symbol} (hword : word.isWord keyword)
    (hname : name.isName) (hloc : n.loc = ⟨i, i + (word :: name :: t).length⟩)
    (hbody : n.body? = some statements) (hitems : Block Node.Spans (i + 2) items t)
    (hperm : items.Perm statements) : n.Braced i (word :: name :: t) :=
  .mk (u := [word, name]) hloc (by simp) ((Unbroken.word hword).append (.name hname)).unbraced hbody
    hitems hperm

/-- A call has a body unless it ends with a semicolon. -/
theorem Rpc.Derives.braced {x : Rpc Extent} (h : x.Derives id i s) :
    (Node.rpc x).Braced i s ∨ x.loc = ⟨i, i + s.length⟩ ∧ Unbraced s ∧
      ∃ t semi, s = t ++ [semi] ∧ semi.kind = .semicolon := by
  obtain @⟨_, word, name, returns, _, _, _, _, options, u, v, t, hword, hname, hin, hreturns, hout,
    hend⟩ := h
  have hhead : Unbraced (word :: name :: (u ++ returns :: v)) :=
    ((Unbroken.word hword).append ((Unbroken.name hname).append
      (hin.unbroken.append ((Unbroken.word hreturns).append hout.unbroken)))).unbraced
  have hsplit : word :: name :: (u ++ returns :: (v ++ t)) =
      word :: name :: (u ++ returns :: v) ++ t := by simp
  rw [hsplit]
  cases hend with
  | @semicolon _ semi hsemi =>
    exact .inr ⟨rfl, List.forall_mem_append.mpr ⟨hhead, by simp [hsemi]⟩, _, semi, rfl, hsemi⟩
  | block h =>
    refine .inl (.mk rfl (by simp) hhead rfl ?_ (.refl _))
    have hblock := h.imp (f := Setting.node) fun _ _ _ h ↦ h.sits.spans
    have hlen : i + 2 + u.length + 1 + v.length =
        i + (word :: name :: (u ++ returns :: v)).length := by simp; omega
    rwa [hlen] at hblock

/-- A node that can have a body has one, unless it is a call that ends with a semicolon. -/
theorem Node.Derives.braced {n : Node Extent} (h : n.Derives Integer config id i s)
    (hsome : n.body?.isSome) :
    n.Braced i s ∨ (∃ x, n = .rpc x) ∧ n.loc = ⟨i, i + s.length⟩ ∧ Unbraced s ∧
      ∃ t semi, s = t ++ [semi] ∧ semi.kind = .semicolon := by
  cases h with
  | message _ h =>
    obtain ⟨hword, hname, hbody⟩ := h
    exact .inl (.named hword hname rfl rfl hbody.block (.refl _))
  | group _ h =>
    obtain @⟨_, l, word, _, _, _, options, xs, u, t, hl, hword, hn, hbody⟩ := h
    have hblock := hbody.block
    rw [Nat.add_assoc, Nat.add_comm 2 u.length] at hblock
    have hhead : Unbraced (l :: word :: u) :=
      ((Unbroken.label hl).append ((Unbroken.word hword).append hn.unbroken)).unbraced
    exact .inl (.mk (u := l :: word :: u) rfl (by simp) hhead rfl hblock (.refl _))
  | extend _ h =>
    obtain @⟨_, word, type, xs, u, t, hword, htype, hbody⟩ := h
    have hblock := hbody.block
    rw [Nat.add_assoc, Nat.add_comm 1 u.length] at hblock
    have hhead : Unbraced (word :: u) := ((Unbroken.word hword).append htype.unbroken).unbraced
    exact .inl (.mk (u := word :: u) rfl (by simp) hhead rfl hblock (.refl _))
  | oneOf h =>
    obtain @⟨_, _, _, items, _, hword, hname, hitems⟩ := h
    refine .inl (.named hword hname rfl rfl (hitems.imp (f := OneOfItem.node) fun _ _ _ h ↦ ?_)
      (perm_oneOf items))
    cases h with
    | setting h | field h _ => exact h.sits.spans
  | enumType h =>
    obtain @⟨_, _, _, items, _, hword, hname, hitems⟩ := h
    refine .inl (.named hword hname rfl rfl (hitems.imp (f := EnumItem.node) fun _ _ _ h ↦ ?_)
      (perm_enum items))
    cases h with
    | setting h | reserved h _ | value h => exact h.sits.spans
  | service h =>
    obtain ⟨hword, hname, hitems⟩ := h
    refine .inl (.named hword hname rfl rfl (hitems.imp (f := ServiceItem.node) fun _ _ _ h ↦ ?_)
      (.refl _))
    cases h with
    | setting h | rpc h => exact h.sits.spans
  | rpc h => exact h.braced.imp_right fun hend ↦ ⟨⟨_, rfl⟩, hend⟩
  | _ => cases hsome

/-! ## Files -/

/-- The roots of a file are statements, each made of its symbols. -/
theorem Schema.Derives.statements {x : Schema Extent} (h : x.Derives Integer config id i s) :
    Statements Node.Spans i x.roots s := by
  obtain @⟨_, v?, ds, u, t, hv, hds⟩ := h
  have hstatements := hds.imp (f := Directive.node) fun _ _ _ h ↦ h.sits.spans
  cases hv with
  | none => exact hstatements
  | some h =>
    refine .cons ?_ hstatements
    obtain ⟨-, -, -, -, -⟩ := h
    exact ⟨rfl, by simp⟩

end ProtoSchema
