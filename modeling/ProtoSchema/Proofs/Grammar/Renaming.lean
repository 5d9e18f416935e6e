import ProtoSchema.Proofs.Grammar.Joining
import ProtoSchema.Proofs.Schema.Renaming

/-!
# Keywords as names

Words are keywords only where the grammar looks for them, and it never looks for one where a name is
declared.  So any other word may stand there, and the schema is the same but for that name.

There are two places where this is not plain to see.  An item of an enum may begin with its name,
and the symbol behind tells that it is one.  And the second symbol of a member, which can be its
name, is looked at for a dot, and for `group` if the first one is a label.  But a name is no dot,
and behind a label comes a type and not a name; `SameStart` keeps track of that.

The statement is made for one node of the tree and all words at once.  Another word makes the text
longer or shorter, and the places behind it move; so the new schema is compared with the old one
without its notes, and the token is replaced in the buffer and not in the text.

## What is here

* `Node.nameToken?`, `Node.nameIndex?` — the token and the symbol that are the name a node declares,
  found from its place as `Node.nameAt?` says.  `tokenBehind` passes over comments.
* `Phrase.Renames` — one symbol of a phrase is the name of a node, and with any other name there the
  symbols are a phrase of a tree with that name.
* `Phrase.Renames.within`, `Phrase.Renames.behind`, `Phrase.Statements.renames`,
  `Phrase.Block.renames` — a name in something larger.  Exactly one of several statements changes
  (`Once`).
* `SameStart` — what the first two symbols may become.
* `Field.Derives.renames` to `Directive.Derives.renames` — the lines of the grammar, each for its
  own name and for those of the nodes in it.
* `Schema.Derives.renames` — any node of a file.
* `Sentence.tokenBehind_place`, `Sentence.nameToken?_map` — from symbols to tokens.
* `parse_rename` — any node of a document, and `parse_rename_group`, a name behind the word `group`.
-/

set_option autoImplicit false

namespace ProtoSchema

open Grammar Phrase

variable {config : Config} {n : Node Extent} {i j : Nat} {s t : List Symbol}

/-- The number of the next token that is no comment. -/
def tokenBehind (tokens : List Token) (k : Nat) : Nat :=
  k + 1 + ((tokens.drop (k + 1)).takeWhile (·.is .comment)).length

/-- The number of the token that is the declared name of a node. -/
def Node.nameToken? (tokens : List Token) (n : Node Location) : Option Nat :=
  n.nameAt? Location.firstToken Location.lastToken (tokenBehind tokens)

/-- The number of the symbol that is the declared name of a node. -/
def Node.nameIndex? (n : Node Extent) : Option Nat :=
  n.nameAt? Extent.start (fun e ↦ e.stop - 1) (· + 1)

/-! ## Other words for a name -/

section Renames

variable {α β : Type} {p : Phrase α} {q : Phrase β} {R : String → α → α → Prop}
  {S : String → β → β → Prop} {x : α} {y : β}

/-- One of the symbols is the declared name of the node, and with any other name in its place the
symbols make up a tree that is changed as `R` says. -/
def Phrase.Renames (p : Phrase α) (R : String → α → α → Prop) (n : Node Extent) : Phrase α :=
  fun i x s => ∃ u a v, s = u ++ a :: v ∧ n.nameIndex? = some (i + u.length) ∧ a.isName ∧
    n.name? = some a.lexeme ∧ ∀ b, b.isName → ∃ y, R b.lexeme x y ∧ p i y (u ++ b :: v)

/-- The symbols with others in front of them and behind them. -/
theorem Phrase.Renames.within (h : p.Renames R n i x s) {l r : List Symbol} (ht : t = l ++ s ++ r)
    (hj : i = j + l.length) (hpq : ∀ w x' s', s'.length = s.length → R w x x' → p i x' s' →
      ∃ y', S w y y' ∧ q j y' (l ++ s' ++ r)) : q.Renames S n j y t := by
  obtain ⟨u, a, v, rfl, hindex, ha, hname, hb⟩ := h
  refine ⟨l ++ u, a, v ++ r, by simp [ht], ?_, ha, hname, fun b hbname ↦ ?_⟩
  · rw [hindex, hj, List.length_append, Nat.add_assoc]
  · obtain ⟨x', hR, hx'⟩ := hb b hbname
    simpa using hpq b.lexeme x' (u ++ b :: v) (by simp) hR hx'

/-- The same symbol, as the name in another sort of phrase. -/
theorem Phrase.Renames.imp (h : p.Renames R n i x s) (hpq : ∀ w x' s', R w x x' → p i x' s' →
    ∃ y', S w y y' ∧ q i y' s') : q.Renames S n i y s :=
  h.within (l := []) (r := []) (by simp) rfl fun w x' s' _ hR hx' ↦ by
    simpa using hpq w x' s' hR hx'

/-- The symbols with others in front of them. -/
theorem Phrase.Renames.behind (h : p.Renames R n i x s) (hj : i = j + t.length)
    (hpq : ∀ w x' s', s'.length = s.length → R w x x' → p i x' s' →
      ∃ y', S w y y' ∧ q j y' (t ++ s')) : q.Renames S n j y (t ++ s) :=
  h.within (r := []) (by simp) hj fun w x' s' hlen hR hx' ↦ by simpa using hpq w x' s' hlen hR hx'

variable {xs : List α} (hx : x ∈ xs) (hp : ∀ ⦃i s⦄, p i x s → p.Renames R n i x s)

include hx hp

/-- The statements of a body stay, but for the one that has the name. -/
theorem Phrase.Statements.renames (h : Statements p i xs s) :
    (Statements p).Renames (fun w ↦ Once (R w)) n i xs s := by
  induction h with
  | nil => cases hx
  | @empty i semi xs t hs _ ih =>
    exact (ih hx).behind (t := [semi]) rfl fun w xs' t' _ hR hxs' ↦ ⟨xs', hR, .empty hs hxs'⟩
  | @cons i y xs s t hfirst hxs ih =>
    rcases List.mem_cons.mp hx with rfl | hx
    · refine (hp hfirst).within (l := []) rfl rfl fun w x' s' hlen hR hx' ↦
        ⟨x' :: xs, .head hR xs, .cons hx' ?_⟩
      rwa [List.nil_append, hlen]
    · exact (ih hx).behind rfl fun w xs' t' _ hR hxs' ↦ ⟨y :: xs', hR.tail y, .cons hfirst hxs'⟩

/-- A name in a block. -/
theorem Phrase.Block.renames (h : Block p i xs s) :
    (Block p).Renames (fun w ↦ Once (R w)) n i xs s := by
  obtain @⟨_, l, r, _, t, hl, hxs, hr⟩ := h
  exact (hxs.renames hx hp).within (l := [l]) rfl rfl fun w xs' t' _ hR hxs' ↦
    ⟨xs', hR, .mk hl hxs' hr⟩

end Renames

/-! ## Fields -/

/-- The first symbol stays, and the second one as well unless it is a name, which is not behind a
label. -/
inductive SameStart : List Symbol → List Symbol → Prop
  | same {first next : Symbol} {s t : List Symbol} :
    SameStart (first :: next :: s) (first :: next :: t)
  | name {first a b : Symbol} {s t : List Symbol} (hl : labelOf? first = none) (ha : a.isName)
    (hb : b.isName) : SameStart (first :: a :: s) (first :: b :: t)

/-- What has a number begins with its name, which no part of it depends on. -/
theorem Phrase.Numbered.exists_rename {bare : Phrase Int} {name : String} {k : Int}
    {options : List (Setting Extent)} (h : Numbered bare config id i (name, k, options) s) :
    ∃ a v, s = a :: v ∧ a.isName ∧ name = a.lexeme ∧
      ∀ b, b.isName → Numbered bare config id i (b.lexeme, k, options) (b :: v) := by
  obtain ⟨hname, heq, hk, ho⟩ := h
  exact ⟨_, _, rfl, hname, rfl, fun b hb ↦ .mk hb heq hk ho⟩

/-- The number of the symbol behind a type. -/
theorem TypeRef.Derives.next_eq {x : TypeRef Extent} (h : x.Derives id i s) :
    x.loc.stop - 1 + 1 = i + s.length := by
  obtain ⟨first, t, rfl, -⟩ := h.exists_cons
  rw [h.loc_eq]
  rfl

theorem Field.Derives.renames {x : Field Extent} (h : x.Derives config id i s) :
    Renames (fun i y t ↦ y.Derives config id i t ∧ SameStart s t) (Field.Renamed · x.node)
      x.node i x s := by
  cases h with
  | @labelled _ l semi label type name k options s t hl htype hn hsemi =>
    obtain ⟨first, s, rfl, -⟩ := htype.exists_cons
    obtain ⟨a, v, rfl, ha, rfl, hrename⟩ := hn.exists_rename
    refine ⟨l :: first :: s, a, v ++ [semi], by simp, ?_, ha, rfl, fun b hb ↦
      ⟨_, .self _, ?_, .same⟩⟩
    · exact congrArg some (htype.next_eq.trans (by simp; omega))
    · simpa using Field.Derives.labelled hl htype (hrename b hb) hsemi
  | @plain _ first semi type name k options s t hl htype hn hsemi =>
    obtain ⟨a, v, rfl, ha, rfl, hrename⟩ := hn.exists_rename
    refine ⟨first :: s, a, v ++ [semi], by simp, ?_, ha, rfl, fun b hb ↦ ⟨_, .self _, ?_, ?_⟩⟩
    · exact congrArg some htype.next_eq
    · simpa using Field.Derives.plain hl htype (hrename b hb) hsemi
    · cases s with
      | nil => exact .name hl ha hb
      | cons => exact .same

theorem MapField.Derives.renames {x : MapField Extent} (h : x.Derives Integer config id i s) :
    (MapField.Derives Integer config id).Renames (fun w x y ↦ y = { x with name := w })
      (.member (.mapField x)) i x s := by
  obtain @⟨_, word, less, key, comma, greater, semi, type, name, k, options, s, t, hword, hless,
    hkey, hcomma, htype, hgreater, hn, hsemi⟩ := h
  obtain ⟨a, v, rfl, ha, rfl, hrename⟩ := hn.exists_rename
  refine ⟨word :: less :: key :: comma :: (s ++ [greater]), a, v ++ [semi], by simp, ?_, ha, rfl,
    fun b hb ↦ ⟨_, rfl, ?_⟩⟩
  · exact congrArg (fun k ↦ some (k + 1)) (htype.next_eq.trans (by simp; omega))
  · simpa using MapField.Derives.mk hword hless hkey hcomma htype hgreater (hrename b hb) hsemi

theorem Field.DerivesValue.renames {x : Field Extent} (h : x.DerivesValue id i s) :
    (Field.DerivesValue id).Renames (Field.Renamed · x.node) x.node i x s := by
  obtain ⟨hname, heq, hk, ho, hsemi⟩ := h
  exact ⟨[], _, _, rfl, rfl, hname, rfl, fun b hb ↦ ⟨_, .self _, .mk hb heq hk ho hsemi⟩⟩

/-! ## Oneofs and enums -/

section Items

/-- The field among the items of a oneof has another name. -/
inductive Grammar.OneOfItem.Renamed (w : String) (n : Node Extent) :
    OneOfItem Extent → OneOfItem Extent → Prop
  | field {x y : Field Extent} (h : x.Renamed w n y) : Renamed w n (.field x) (.field y)

/-- The value among the items of an enum has another name. -/
inductive Grammar.EnumItem.Renamed (w : String) (n : Node Extent) :
    EnumItem Extent → EnumItem Extent → Prop
  | value {x y : Field Extent} (h : x.Renamed w n y) : Renamed w n (.value x) (.value y)

theorem Grammar.OneOfItem.Derives.renames {x : Field Extent}
    (h : (OneOfItem.field x).Derives config id i s) :
    (OneOfItem.Derives config id).Renames (OneOfItem.Renamed · x.node) x.node i (.field x) s := by
  generalize hitem : OneOfItem.field x = item at h
  cases h with
  | setting => cases hitem
  | field h hfirst =>
    obtain rfl := OneOfItem.field.inj hitem
    refine h.renames.imp fun w y s' hR hy ↦ ⟨.field y, .field hR, ?_⟩
    obtain ⟨hy, hstart⟩ := hy
    cases hstart with
    | same => exact .field hy hfirst
    | name _ ha _ =>
      exact .field hy fun hword ↦ absurd (hfirst hword) (Symbol.kind_ne_of_isName ha nofun nofun)

theorem Grammar.EnumItem.Derives.renames {x : Field Extent}
    (h : (EnumItem.value x).Derives Integer id i s) :
    (EnumItem.Derives Integer id).Renames (EnumItem.Renamed · x.node) x.node i (.value x) s := by
  generalize hitem : EnumItem.value x = item at h
  cases h with
  | setting | reserved => cases hitem
  | value h =>
    obtain rfl := EnumItem.value.inj hitem
    exact h.renames.imp fun w y s' hR hy ↦ ⟨.value y, .value hR, .value hy⟩

variable (hname : n.name?.isSome)

include hname

theorem OneOf.Derives.renames {x : OneOf Extent} (h : x.Derives config id i s) (hn : n ∈ x.nodes) :
    (OneOf.Derives config id).Renames (OneOf.Renamed · n) n i x s := by
  obtain @⟨_, word, name, items, t, hword, hlexeme, hitems⟩ := h
  rcases OneOf.mem_nodes hname hn with rfl | ⟨y, hy, rfl⟩
  · exact ⟨[word], name, t, rfl, rfl, hlexeme, rfl, fun b hb ↦ ⟨_, .self _, .mk hword hb hitems⟩⟩
  · have hitem : OneOfItem.field y ∈ items := by
      obtain ⟨_ | _, hitem, hfield⟩ := List.mem_filterMap.mp hy
      · cases hfield
      · exact Option.some.inj hfield ▸ hitem
    have hrename := hitems.renames hitem fun _ _ h ↦ h.renames
    refine hrename.behind (t := [word, name]) rfl fun w items' t' hlen hR hitems' ↦ ?_
    have hsettings := hR.filterMap_eq (g := OneOfItem.setting?) fun _ _ ⟨_⟩ ↦ rfl
    have hderives := OneOf.Derives.mk hword hlexeme hitems'
    rw [← hsettings] at hderives
    refine ⟨_, .field (hR.filterMap fun _ _ ⟨h⟩ ↦ ⟨_, _, rfl, rfl, h⟩), ?_⟩
    simpa [hlen] using hderives

theorem EnumType.Derives.renames {x : EnumType Extent} (h : x.Derives Integer id i s)
    (hn : n ∈ x.nodes) : (EnumType.Derives Integer id).Renames (EnumType.Renamed · n) n i x s := by
  obtain @⟨_, word, name, items, t, hword, hlexeme, hitems⟩ := h
  rcases EnumType.mem_nodes hname hn with rfl | ⟨y, hy, rfl⟩
  · exact ⟨[word], name, t, rfl, rfl, hlexeme, rfl, fun b hb ↦ ⟨_, .self _, .mk hword hb hitems⟩⟩
  · have hitem : EnumItem.value y ∈ items := by
      obtain ⟨_ | _ | _, hitem, hvalue⟩ := List.mem_filterMap.mp hy
      · cases hvalue
      · exact Option.some.inj hvalue ▸ hitem
      · cases hvalue
    have hrename := hitems.renames hitem fun _ _ h ↦ h.renames
    refine hrename.behind (t := [word, name]) rfl fun w items' t' hlen hR hitems' ↦ ?_
    have hsettings := hR.filterMap_eq (g := EnumItem.setting?) fun _ _ ⟨_⟩ ↦ rfl
    have hreserved := hR.filterMap_eq (g := EnumItem.reserved?) fun _ _ ⟨_⟩ ↦ rfl
    have hderives := EnumType.Derives.mk hword hlexeme hitems'
    rw [← hsettings, ← hreserved] at hderives
    refine ⟨_, .value (hR.filterMap fun _ _ ⟨h⟩ ↦ ⟨_, _, rfl, rfl, h⟩), ?_⟩
    simpa [hlen] using hderives

end Items

/-! ## Blocks -/

/-- A member of a block changes, and the block changes with it. -/
theorem Once.inside {w : String} {header : Header Extent} {loc : Extent}
    {xs ys : List (Member Extent)} (h : Once (Member.Renamed w n) xs ys) :
    (Member.block header xs loc).Renamed w n (.block header ys loc) := by
  obtain ⟨h⟩ := h
  exact .inside h

/-- What can be a field in a body can be one with another second symbol, if the second one is a name
and the first one no label. -/
theorem Body.readsField_of_isName {b : Body} {first a : Symbol} (h : b.readsField first a)
    (hl : labelOf? first = none) (ha : a.isName) (next : Symbol) : b.readsField first next := by
  have hdot := Symbol.is_eq_false_iff.mpr (Reader.kind_ne_dot_of_isName ha)
  cases b with
  | message => simp_all [Body.readsField, startsGroup]
  | extension => simp [Body.readsField, startsGroup, hl]

section Members

variable {inner : Body → Phrase (List (Member Extent))} {x : Member Extent} (hname : n.name?.isSome)
  (hinner : ∀ ⦃b i xs s⦄, inner b i xs s → (∃ x ∈ xs, n ∈ x.nodes) →
    (inner b).Renames (fun w ↦ Once (Member.Renamed w n)) n i xs s)

include hname hinner

theorem Member.DerivesMessage.renames (h : x.DerivesMessage id inner i s) (hn : n ∈ x.nodes) :
    (Member.DerivesMessage id inner).Renames (Member.Renamed · n) n i x s := by
  obtain @⟨_, word, name, xs, t, hword, hlexeme, hbody⟩ := h
  rcases Member.mem_nodes_block hname hn with rfl | hx
  · exact ⟨[word], name, t, rfl, rfl, hlexeme, rfl, fun b hb ↦
      ⟨_, .message _ _ _, .mk hword hb hbody⟩⟩
  · refine (hinner hbody hx).behind (t := [word, name]) rfl fun w xs' t' hlen hR hbody' ↦ ?_
    have hderives : DerivesMessage id inner i _ _ := .mk hword hlexeme hbody'
    exact ⟨_, hR.inside, by simpa [hlen] using hderives⟩

theorem Member.DerivesGroup.renames (h : x.DerivesGroup Integer config id inner i s)
    (hn : n ∈ x.nodes) :
    (Member.DerivesGroup Integer config id inner).Renames (Member.Renamed · n) n i x s := by
  obtain @⟨_, l, word, label, name, k, options, xs, v, t, hl, hword, hnumbered, hbody⟩ := h
  rcases Member.mem_nodes_block hname hn with rfl | hx
  · obtain ⟨a, v, rfl, ha, rfl, hrename⟩ := hnumbered.exists_rename
    refine ⟨[l, word], a, v ++ t, rfl, rfl, ha, rfl, fun b hb ↦ ⟨_, .group _ _ _ _ _ _, ?_⟩⟩
    exact .mk hl hword (hrename b hb) hbody
  · refine (hinner hbody hx).behind (t := l :: word :: v) (by simp; omega)
      fun w xs' t' hlen hR hbody' ↦ ?_
    have hderives := DerivesGroup.mk hl hword hnumbered hbody'
    exact ⟨_, hR.inside, by simpa [hlen] using hderives⟩

theorem Member.DerivesExtend.renames (h : x.DerivesExtend id inner i s) (hn : n ∈ x.nodes) :
    Renames (fun i y t ↦ y.DerivesExtend id inner i t ∧ SameStart s t) (Member.Renamed · n) n i x
      s := by
  obtain @⟨_, word, type, xs, v, t, hword, htype, hbody⟩ := h
  have hx := (Member.mem_nodes_block hname hn).resolve_left (by rintro rfl; cases hname)
  refine (hinner hbody hx).behind (t := word :: v) (by simp; omega) fun w xs' t' hlen hR hbody' ↦ ?_
  have hderives : DerivesExtend id inner i _ _ := .mk hword htype hbody'
  refine ⟨_, hR.inside, by simpa [hlen] using hderives, ?_⟩
  obtain ⟨first, v, rfl, -⟩ := htype.exists_cons
  exact .same

theorem Member.Derives.renames {b : Body} (h : x.Derives Integer config id inner b i s)
    (hn : n ∈ x.nodes) :
    (Member.Derives Integer config id inner b).Renames (Member.Renamed · n) n i x s := by
  cases h with
  | field h hb =>
    obtain rfl := Field.eq_of_mem hname hn
    refine h.renames.imp fun w y s' hR hy ↦ ⟨.field y, .field hR, ?_⟩
    obtain ⟨hy, hstart⟩ := hy
    cases hstart with
    | same => exact .field hy hb
    | name hl ha _ => exact .field hy (Body.readsField_of_isName hb hl ha _)
  | group h => exact (h.renames hname hinner hn).imp fun w y s' hR hy ↦ ⟨y, hR, .group hy⟩
  | message h => exact (h.renames hname hinner hn).imp fun w y s' hR hy ↦ ⟨y, hR, .message hy⟩
  | enumType h =>
    exact (h.renames hname hn).imp fun w y s' hR hy ↦ ⟨.enumType y, .enumType hR, .enumType hy⟩
  | extend h hnext =>
    refine (h.renames hname hinner hn).imp fun w y s' hR hy ↦ ⟨y, hR, ?_⟩
    obtain ⟨hy, hstart⟩ := hy
    cases hstart with
    | same => exact .extend hy hnext
    | name _ _ hb => exact .extend hy (Symbol.kind_ne_of_isName hb nofun nofun)
  | extensions => exact absurd hn (Extensions.not_mem_nodes hname)
  | setting => exact absurd hn (Setting.not_mem_nodes hname)
  | oneOf h => exact (h.renames hname hn).imp fun w y s' hR hy ↦ ⟨.oneOf y, .oneOf hR, .oneOf hy⟩
  | reserved =>
    obtain rfl := List.mem_singleton.mp hn
    cases hname
  | mapField h =>
    obtain rfl := MapField.eq_of_mem hname hn
    exact h.renames.imp fun w y s' hR hy ↦ ⟨.mapField y, hR ▸ .mapField _, .mapField hy⟩

end Members

section Files

variable (hname : n.name?.isSome)

include hname

/-- A name in the body of a block, by induction on the depth. -/
theorem Body.Derives.renames {depth : Nat} {b : Body} {xs : List (Member Extent)}
    (h : Body.Derives Integer config id depth b i xs s) (hx : ∃ x ∈ xs, n ∈ x.nodes) :
    (Body.Derives Integer config id depth b).Renames (fun w ↦ Once (Member.Renamed w n)) n i xs
      s := by
  induction depth generalizing b i xs s with
  | zero => exact h.elim
  | succ depth ih =>
    obtain ⟨x, hx, hn⟩ := hx
    have hmember ⦃i s⦄
        (h : x.Derives Integer config id (Body.Derives Integer config id depth) b i s) :=
      h.renames hname (fun _ _ _ _ h ↦ ih h) hn
    exact Block.renames hx hmember h

/-! ## Services and files -/

omit hname in
theorem Rpc.Derives.renames {x : Rpc Extent} (h : x.Derives id i s) :
    (Rpc.Derives id).Renames (fun w x y ↦ y = { x with name := w }) (.rpc x) i x s := by
  obtain ⟨hword, hlexeme, hin, hreturns, hout, hend⟩ := h
  exact ⟨[_], _, _, rfl, rfl, hlexeme, rfl, fun b hb ↦
    ⟨_, rfl, .mk hword hb hin hreturns hout hend⟩⟩

theorem ServiceItem.Derives.renames {x : ServiceItem Extent} (h : x.Derives id i s)
    (hn : n ∈ x.nodes) :
    (ServiceItem.Derives id).Renames (ServiceItem.Renamed · n) n i x s := by
  obtain ⟨r, rfl, rfl⟩ := ServiceItem.eq_of_mem hname hn
  obtain - | h := h
  exact h.renames.imp fun w y s' hR hy ↦ ⟨.rpc y, hR ▸ .rpc r, .rpc hy⟩

theorem Service.Derives.renames {x : Service Extent} (h : x.Derives id i s) (hn : n ∈ x.nodes) :
    (Service.Derives id).Renames (Service.Renamed · n) n i x s := by
  obtain @⟨_, word, name, items, t, hword, hlexeme, hitems⟩ := h
  rcases List.mem_cons.mp hn with rfl | hn
  · exact ⟨[word], name, t, rfl, rfl, hlexeme, rfl, fun b hb ↦ ⟨_, .self _, .mk hword hb hitems⟩⟩
  · obtain ⟨item, hitem, hn⟩ := List.mem_flatMap.mp hn
    have hrename := hitems.renames hitem fun _ _ h ↦ h.renames hname hn
    refine hrename.behind (t := [word, name]) rfl fun w items' t' hlen hR hitems' ↦ ?_
    have hderives := Service.Derives.mk hword hlexeme hitems'
    exact ⟨_, .item hR, by simpa [hlen] using hderives⟩

theorem Directive.Derives.renames {x : Directive Extent} (h : x.Derives Integer config id i s)
    (hn : n ∈ x.nodes) :
    (Directive.Derives Integer config id).Renames (Directive.Renamed · n) n i x s := by
  cases h with
  | importFile =>
    obtain rfl := List.mem_singleton.mp hn
    cases hname
  | package =>
    simp only [Directive.nodes, List.mem_cons, List.not_mem_nil, or_false] at hn
    rcases hn with rfl | rfl <;> cases hname
  | setting => exact absurd hn (Setting.not_mem_nodes hname)
  | message h =>
    exact (h.renames hname (fun _ _ _ _ h ↦ h.renames hname) hn).imp
      fun w y s' hR hy ↦ ⟨.member y, .member hR, .message hy⟩
  | enumType h =>
    exact (h.renames hname hn).imp
      fun w y s' hR hy ↦ ⟨.member (.enumType y), .member (.enumType hR), .enumType hy⟩
  | extend h =>
    exact (h.renames hname (fun _ _ _ _ h ↦ h.renames hname) hn).imp
      fun w y s' hR hy ↦ ⟨.member y, .member hR, .extend hy.1⟩
  | service h =>
    exact (h.renames hname hn).imp fun w y s' hR hy ↦ ⟨.service y, .service hR, .service hy⟩

/-- **Any name may stand for the name of any node.** -/
theorem Schema.Derives.renames {x : Schema Extent} (h : x.Derives Integer config id i s)
    (hn : n ∈ x.nodes) :
    (Schema.Derives Integer config id).Renames (Schema.Renamed · n) n i x s := by
  obtain @⟨_, v?, ds, v, t, hv, hds⟩ := h
  rcases List.mem_append.mp hn with hn | hn
  · obtain ⟨version, -, rfl⟩ := List.mem_map.mp hn
    cases hname
  · obtain ⟨y, hy, hn⟩ := List.mem_flatMap.mp hn
    have hrename := hds.renames hy fun _ _ h ↦ h.renames hname hn
    exact hrename.behind rfl fun w ds' t' _ hR hds' ↦ ⟨⟨v?, ds'⟩, .mk hR, .mk hv hds'⟩

end Files

/-! ## Tokens -/

/-- Comments are passed over. -/
theorem tokenBehind_eq {ts comments us : List Token} {t next : Token}
    (hcomments : ∀ c ∈ comments, c.is .comment) (hnext : next.kind ≠ .comment) :
    tokenBehind (ts ++ t :: (comments ++ next :: us)) ts.length = (ts ++ t :: comments).length := by
  have hlast : (next :: us).takeWhile (·.is .comment) = [] :=
    List.takeWhile_cons_of_neg (by simpa [Symbol.is] using hnext)
  rw [tokenBehind, List.drop_length_add_append, List.drop_succ_cons, List.drop_zero,
    List.takeWhile_append_of_pos hcomments, hlast, List.append_nil, List.length_append,
    List.length_cons]
  omega

/-- The next symbol is the next token that is no comment. -/
theorem Sentence.tokenBehind_place {ts : List Token} (hts : ∀ t ∈ ts, t.kind ≠ .eof)
    (more : List Token) {k : Nat} (hk : k + 1 < (significant ts).length) :
    tokenBehind (ts ++ more) ((ofBuffer (ts ++ more)).place k).index =
      ((ofBuffer (ts ++ more)).place (k + 1)).index := by
  obtain ⟨ts₁, t, rest, rfl, rfl, hcomment, hplace⟩ :=
    exists_place_eq hts (Nat.lt_of_succ_lt hk)
  rw [significant_append, significant_cons hcomment, List.length_append, List.length_cons] at hk
  obtain ⟨s, v, hsplit⟩ := List.exists_cons_of_length_pos (l := significant rest) (by omega)
  obtain ⟨comments, next, ts₂, rfl, hcomments, -, hnext, -⟩ := exists_token (u := []) hsplit
  have hall : ∀ c ∈ comments, c.is .comment := by
    simpa [significant, List.filter_eq_nil_iff] using hcomments
  have hbuffer : ts₁ ++ t :: (comments ++ next :: ts₂) ++ more =
      ts₁ ++ t :: comments ++ next :: (ts₂ ++ more) := by simp
  have hfront : (significant (ts₁ ++ t :: comments)).length = (significant ts₁).length + 1 := by
    rw [significant_append, significant_cons hcomment, hcomments, List.length_append,
      List.length_singleton]
  have hbefore : ∀ c ∈ ts₁ ++ t :: comments, c.kind ≠ .eof := fun c hc ↦
    hts c (by simpa using List.mem_append_left (next :: ts₂) hc)
  rw [hplace, hbuffer, ← hfront, place_eq hbefore hnext, List.append_assoc, List.cons_append,
    tokenBehind_eq hall hnext]

/-- The token of a name is that of its symbol. -/
theorem Sentence.nameToken?_map {ts : List Token} (hts : ∀ t ∈ ts, t.kind ≠ .eof)
    (more : List Token) {k : Nat} (h : n.nameIndex? = some k) (hk : k < (significant ts).length) :
    (n.map (ofBuffer (ts ++ more)).locate).nameToken? (ts ++ more) =
      some ((ofBuffer (ts ++ more)).place k).index :=
  Node.nameAt?_map (fun j ↦ ((ofBuffer (ts ++ more)).place j).index) h (fun _ ↦ rfl) (fun _ ↦ rfl)
    Nat.lt_succ_self fun _ hj ↦ tokenBehind_place hts more (Nat.lt_of_le_of_lt hj hk)

/-- **Keywords never leak into names.**  Each declared name is one token of those that the text is
scanned into, and if that token is replaced by any other word they are still read, as the same
schema with the other name. -/
theorem parse_rename {text name : String} {config : Config} {d : Document} {n : Node Location}
    (h : parse text config = .ok d) (hn : n ∈ d.schema.nodes) (hname : n.name? = some name) :
    scan text = .ok d.tokens ∧
      ∃ k old, n.nameToken? d.tokens = some k ∧ d.tokens[k]? = some old ∧ old.isName ∧
        old.lexeme = name ∧ ∀ t : Token, t.isName →
          ∃ d' y, Document.ofTokens config (d.tokens.set k t) = .ok d' ∧
            d.schema.Renamed t.lexeme n y ∧ d'.schema.erase = y.erase := by
  obtain ⟨ts, stop, hscan, hstop, htiled, htokens, x, hx, hderives⟩ := exists_extents_of_parse h
  have hts := htiled.kind_ne_eof
  rw [hx, Schema.nodes_map] at hn
  obtain ⟨n, hmem, rfl⟩ := List.mem_map.mp hn
  rw [Node.name?_map] at hname
  obtain ⟨u, a, v, hsplit, hindex, ha, hlexeme, hrename⟩ :=
    hderives.renames (Option.isSome_of_mem hname) hmem
  have htoken := Sentence.nameToken?_map hts [stop] hindex (by simp [hsplit])
  obtain ⟨ts₁, old, ts₂, rfl, rfl, rfl, hcomment, rfl⟩ := exists_token hsplit
  obtain rfl : old.lexeme = name := Option.some.inj (hlexeme.symm.trans hname)
  have hplace : (Sentence.ofBuffer (ts₁ ++ old :: ts₂ ++ [stop])).place
      (0 + (significant ts₁).length) = ⟨old, ts₁.length⟩ := by
    rw [Nat.zero_add, List.append_assoc, List.cons_append]
    exact Sentence.place_eq (fun t ht ↦ hts t (List.mem_append_left _ ht)) hcomment
  rw [htokens]
  rw [hplace] at htoken
  refine ⟨hscan, ts₁.length, old, htoken, by simp, ha, rfl, fun t ht ↦ ?_⟩
  obtain ⟨y, hrenamed, hy⟩ := hrename t.toSymbol ht
  rw [← significant_cons (Symbol.kind_ne_of_isName ht nofun nofun), ← significant_append] at hy
  have hts' : ∀ c ∈ ts₁ ++ t :: ts₂, c.kind ≠ .eof := by
    simp only [List.forall_mem_append, List.forall_mem_cons] at hts ⊢
    exact ⟨hts.1, Symbol.kind_ne_of_isName ht nofun nofun, hts.2.2⟩
  obtain ⟨d', hread, y, rfl, herase⟩ := Document.exists_ofTokens hts' hstop hy
  have hset : (ts₁ ++ old :: ts₂ ++ [stop]).set ts₁.length t = ts₁ ++ t :: ts₂ ++ [stop] := by simp
  rw [hset]
  exact ⟨d', _, hread, hx ▸ hrenamed.map _, by rw [herase, Schema.erase_map, Schema.erase_map]⟩

/-- The name of a group, between comments. -/
theorem parse_rename_group :
    ∃ text d n, text = "message M \x7b repeated /* a */ group // é\n G = 1 \x7b \x7d \x7d" ∧
      parse text {} = .ok d ∧ n ∈ d.schema.nodes ∧ n.name? = some "G" ∧ scan text = .ok d.tokens ∧
      ∃ k old, n.nameToken? d.tokens = some k ∧ d.tokens[k]? = some old ∧ old.isName ∧
        old.lexeme = "G" ∧ ∀ t : Token, t.isName →
          ∃ d' y, Document.ofTokens {} (d.tokens.set k t) = .ok d' ∧
            d.schema.Renamed t.lexeme n y ∧ d'.schema.erase = y.erase := by
  obtain ⟨d, h⟩ := exists_ok_of_isOk
    (x := parse "message M \x7b repeated /* a */ group // é\n G = 1 \x7b \x7d \x7d" {})
    (by decide +kernel)
  have hnames : (parse "message M \x7b repeated /* a */ group // é\n G = 1 \x7b \x7d \x7d"
      {}).toOption.map (fun d ↦ d.schema.nodes.filterMap Node.name?) = some ["M", "G"] := by
    decide +kernel
  rw [h] at hnames
  have hall : d.schema.nodes.filterMap Node.name? = ["M", "G"] := Option.some.inj hnames
  have hmem : "G" ∈ d.schema.nodes.filterMap Node.name? := hall ▸ by decide
  obtain ⟨n, hn, hname⟩ := List.mem_filterMap.mp hmem
  exact ⟨_, d, n, rfl, h, hn, hname, parse_rename h hn hname⟩

end ProtoSchema
