import ProtoSchema.Proofs.Grammar.Derivation
import ProtoSchema.Proofs.Schema.Parts

/-!
# Where nodes stand

A schema that is derived from symbols has nodes at any depth, and each of them is itself derived
from some of the symbols, which stand in a row.  So what holds of the derivation of one node holds
of all nodes of a schema, and needs no induction on the depth of its own.

The names of packages and options, references to types and the values of options are nodes as well,
since they have places of their own in the tree.

## What is here

* `Node.Derives` — a node of any sort, with the line of the grammar that it is derived by.
* `NodesOccur` — each node of a list is derived from some of the symbols.  Lists are put together by
  `NodesOccur.append` and `NodesOccur.flatMap`, and moved into more symbols by `NodesOccur.within`.
* `Constant.Derives.nodesOccur` to `Directive.Derives.nodesOccur` — the nodes of each line of the
  grammar, in the order of `ProtoSchema.Proofs.Grammar.Derivation`.
* `Schema.Derives.nodesOccur` — all nodes of a file.
* `Schema.Derives.directive_occurs`, `Schema.Derives.member_occurs` — the statements of a file, and
  the members of the bodies of messages and groups, with how many blocks may be nested in a member.
-/

set_option autoImplicit false

namespace ProtoSchema

open Grammar Phrase

variable {ν : Type}

/-! ## Nodes -/

section

variable (bare : Phrase Int) (config : Config) (note : Extent → ν)

/-- A node of any sort, and what it is made of.  A field can be a value of an enum, and a setting an
entry of a bracketed list. -/
inductive Node.Derives : Phrase (Node ν)
  | version {i : Nat} {x : VersionStatement ν} {s : List Symbol} (h : x.Derives note i s) :
    Derives i (.version x) s
  | importFile {i : Nat} {x : Import ν} {s : List Symbol} (h : x.Derives note i s) :
    Derives i (.importFile x) s
  | package {i : Nat} {x : Package ν} {s : List Symbol} (h : x.Derives note i s) :
    Derives i (.package x) s
  | service {i : Nat} {x : Service ν} {s : List Symbol} (h : x.Derives note i s) :
    Derives i (.service x) s
  | rpc {i : Nat} {x : Rpc ν} {s : List Symbol} (h : x.Derives note i s) : Derives i (.rpc x) s
  | field {i : Nat} {x : Field ν} {s : List Symbol} (h : x.Derives config note i s) :
    Derives i x.node s
  | value {i : Nat} {x : Field ν} {s : List Symbol} (h : x.DerivesValue note i s) :
    Derives i x.node s
  | mapField {i : Nat} {x : MapField ν} {s : List Symbol} (h : x.Derives bare config note i s) :
    Derives i (.member (.mapField x)) s
  | oneOf {i : Nat} {x : OneOf ν} {s : List Symbol} (h : x.Derives config note i s) :
    Derives i (.member (.oneOf x)) s
  | enumType {i : Nat} {x : EnumType ν} {s : List Symbol} (h : x.Derives bare note i s) :
    Derives i (.member (.enumType x)) s
  | extensions {i : Nat} {x : Extensions ν} {s : List Symbol} (h : x.Derives bare note i s) :
    Derives i (.member (.extensions x)) s
  | reserved {i : Nat} {x : Reserved ν} {s : List Symbol} (h : x.Derives bare note i s) :
    Derives i x.node s
  | setting {i : Nat} {x : Setting ν} {s : List Symbol} (h : x.Derives note i s) :
    Derives i x.node s
  | entry {i : Nat} {x : Setting ν} {s : List Symbol} (h : x.DerivesEntry note i s) :
    Derives i x.node s
  | message {depth i : Nat} {x : Member ν} {s : List Symbol} (hdepth : depth ≤ config.maxDepth)
    (h : x.DerivesMessage note (Body.Derives bare config note depth) i s) :
    Derives i (.member x) s
  | group {depth i : Nat} {x : Member ν} {s : List Symbol} (hdepth : depth ≤ config.maxDepth)
    (h : x.DerivesGroup bare config note (Body.Derives bare config note depth) i s) :
    Derives i (.member x) s
  | extend {depth i : Nat} {x : Member ν} {s : List Symbol} (hdepth : depth ≤ config.maxDepth)
    (h : x.DerivesExtend note (Body.Derives bare config note depth) i s) : Derives i (.member x) s
  | fullName {i : Nat} {x : FullName ν} {s : List Symbol} (h : x.Derives note i s) :
    Derives i (.fullName x) s
  | optionName {i : Nat} {x : OptionName ν} {s : List Symbol} (h : x.Derives note i s) :
    Derives i (.optionName x) s
  | typeRef {i : Nat} {x : TypeRef ν} {s : List Symbol} (h : x.Derives note i s) :
    Derives i (.typeRef x) s
  | constant {i : Nat} {x : Constant ν} {s : List Symbol} (h : x.Derives note i s) :
    Derives i (.constant x) s
  | literal {i : Nat} {v : Literal} {s : List Symbol} (h : v.Derives i s) :
    Derives i (.literal v (note ⟨i, i + s.length⟩)) s

/-- Each node of the list is made of some of the symbols. -/
def NodesOccur (i : Nat) (s : List Symbol) (ns : List (Node ν)) : Prop :=
  ∀ n ∈ ns, (Node.Derives bare config note).Occurs i n s

end

variable {bare : Phrase Int} {config : Config} {note : Extent → ν} {i j : Nat} {s t : List Symbol}

/-! ## Lists of nodes -/

namespace NodesOccur

variable {α : Type} {p : Phrase α} {nodes : α → List (Node ν)} {xs : List α} {n : Node ν}
  {ns ms : List (Node ν)}

/-- There is nothing to show of no nodes. -/
theorem nil : NodesOccur bare config note i s [] := nofun

/-- The nodes of two lists. -/
theorem append (hns : NodesOccur bare config note i s ns)
    (hms : NodesOccur bare config note i s ms) : NodesOccur bare config note i s (ns ++ ms) :=
  List.forall_mem_append.mpr ⟨hns, hms⟩

/-- A node and others of the same symbols. -/
theorem cons (hn : Node.Derives bare config note i n s) (h : NodesOccur bare config note i s ns) :
    NodesOccur bare config note i s (n :: ns) :=
  List.forall_mem_cons.mpr ⟨.self hn, h⟩

/-- One node that is made of all the symbols. -/
theorem single (hn : Node.Derives bare config note i n s) : NodesOccur bare config note i s [n] :=
  cons hn nil

/-- The symbols with others in front of them and behind them. -/
theorem within (h : NodesOccur bare config note i s ns) {u w : List Symbol} (ht : t = u ++ s ++ w)
    (hj : i = j + u.length) : NodesOccur bare config note j t ns :=
  fun n hn ↦ (h n hn).within ht hj

/-- The nodes of all the phrases that stand somewhere in the symbols. -/
theorem flatMap (hp : ∀ ⦃i x s⦄, p i x s → NodesOccur bare config note i s (nodes x))
    (h : ∀ x ∈ xs, p.Occurs i x s) : NodesOccur bare config note i s (xs.flatMap nodes) := by
  intro n hn
  obtain ⟨x, hx, hn⟩ := List.mem_flatMap.mp hn
  obtain ⟨u, v, w, rfl, hv⟩ := h x hx
  exact (hp hv n hn).within rfl rfl

end NodesOccur

/-! ## Options -/

theorem Constant.Derives.nodesOccur {x : Constant ν} (h : x.Derives note i s) :
    NodesOccur bare config note i s x.nodes := by
  refine .cons (.constant h) ?_
  cases h with
  | name _ hn => exact .single (.fullName hn)
  | literal hv => exact .single (.literal hv)

theorem Setting.Derives.nodesOccur {x : Setting ν} (h : x.Derives note i s) :
    NodesOccur bare config note i s x.nodes := by
  refine .cons (.setting h) ?_
  obtain @⟨_, word, eq, semi, s, t, n, v, -, hn, -, hv, -⟩ := h
  refine .append (.within (.single (.optionName hn)) (u := [word]) rfl rfl) ?_
  exact hv.nodesOccur.within (u := word :: (s ++ [eq])) (w := [semi]) (by simp) (by simp; omega)

theorem Setting.DerivesEntry.nodesOccur {x : Setting ν} (h : x.DerivesEntry note i s) :
    NodesOccur bare config note i s x.nodes := by
  refine .cons (.entry h) ?_
  obtain @⟨_, eq, s, t, n, v, hn, -, hv⟩ := h
  refine .append (.within (.single (.optionName hn)) (u := []) rfl rfl) ?_
  exact hv.nodesOccur.within (u := s ++ [eq]) (w := []) (by simp) (by simp; omega)

theorem Setting.Bracketed.nodesOccur {xs : List (Setting ν)} (h : Bracketed note i xs s) :
    NodesOccur bare config note i s (xs.flatMap Setting.nodes) := by
  cases h with
  | none => exact .nil
  | @some _ l r _ t _ hxs _ =>
    refine .within ?_ (u := [l]) (w := [r]) rfl rfl
    exact .flatMap (fun _ _ _ h ↦ h.nodesOccur) fun _ hx ↦ hxs.occurs hx

/-! ## Fields -/

theorem Phrase.Numbered.nodesOccur {number : Phrase Int} {name : String} {n : Int}
    {options : List (Setting ν)} (h : Numbered number config note i (name, n, options) s) :
    NodesOccur bare config note i s (options.flatMap Setting.nodes) := by
  obtain @⟨_, name, eq, _, _, s, t, -, -, -, ho⟩ := h
  exact ho.nodesOccur.within (u := name :: eq :: s) (w := []) (by simp) (by simp; omega)

theorem Field.Derives.nodesOccur {x : Field ν} (h : x.Derives config note i s) :
    NodesOccur bare config note i s x.nodes := by
  rw [Field.nodes, List.cons_append]
  refine .cons (.field h) ?_
  cases h with
  | @labelled _ l semi _ type _ _ options s t _ htype hn _ =>
    refine .append (.within (.single (.typeRef htype)) (u := [l]) rfl rfl) ?_
    exact hn.nodesOccur.within (u := l :: s) (w := [semi]) (by simp) (by simp; omega)
  | @plain _ first semi type _ _ options s t _ htype hn _ =>
    refine .append
      (.within (.single (.typeRef htype)) (u := []) (w := t ++ [semi]) (by simp) rfl) ?_
    exact hn.nodesOccur.within (u := first :: s) (w := [semi]) (by simp) (by simp; omega)

theorem Field.DerivesValue.nodesOccur {x : Field ν} (h : x.DerivesValue note i s) :
    NodesOccur bare config note i s x.nodes := by
  rw [Field.nodes, List.cons_append]
  refine .cons (.value h) ?_
  obtain @⟨_, name, eq, semi, _, _, s, t, -, -, -, ho, -⟩ := h
  exact ho.nodesOccur.within (u := name :: eq :: s) (w := [semi]) (by simp) (by simp; omega)

theorem MapField.Derives.nodesOccur {x : MapField ν} (h : x.Derives bare config note i s) :
    NodesOccur bare config note i s x.nodes := by
  refine .cons (.mapField h) ?_
  obtain @⟨_, word, less, key, comma, greater, semi, _, _, _, _, s, t, -, -, -, -, htype, -,
    hn, -⟩ := h
  refine .append (.within (.single (.typeRef htype)) (u := [word, less, key, comma]) rfl rfl) ?_
  exact hn.nodesOccur.within (u := word :: less :: key :: comma :: (s ++ [greater])) (w := [semi])
    (by simp) (by simp; omega)

/-! ## Members -/

theorem Extensions.Derives.nodesOccur {x : Extensions ν} (h : x.Derives bare note i s) :
    NodesOccur bare config note i s x.nodes := by
  refine .cons (.extensions h) ?_
  obtain @⟨_, word, semi, _, _, s, t, -, -, ho, -⟩ := h
  exact ho.nodesOccur.within (u := word :: s) (w := [semi]) (by simp) (by simp; omega)

theorem OneOf.Derives.nodesOccur {x : OneOf ν} (h : x.Derives config note i s) :
    NodesOccur bare config note i s x.nodes := by
  rw [OneOf.nodes, List.cons_append]
  refine .cons (.oneOf h) ?_
  obtain @⟨_, word, name, items, t, -, -, hitems⟩ := h
  refine NodesOccur.within (s := t) ?_ (u := [word, name]) (w := []) (by simp) rfl
  have hsettings := hitems.occurs_filterMap (f := OneOfItem.setting?) (q := Setting.Derives note)
    fun _ item _ h x hx ↦ by
      cases h with
      | setting h => exact Option.some.inj hx ▸ h
      | field => cases hx
  have hfields := hitems.occurs_filterMap (f := OneOfItem.field?) (q := Field.Derives config note)
    fun _ item _ h x hx ↦ by
      cases h with
      | setting => cases hx
      | field h => exact Option.some.inj hx ▸ h
  exact .append (.flatMap (fun _ _ _ h ↦ h.nodesOccur) hsettings)
    (.flatMap (fun _ _ _ h ↦ h.nodesOccur) hfields)

theorem EnumType.Derives.nodesOccur {x : EnumType ν} (h : x.Derives bare note i s) :
    NodesOccur bare config note i s x.nodes := by
  rw [EnumType.nodes, List.cons_append, List.cons_append]
  refine .cons (.enumType h) ?_
  obtain @⟨_, word, name, items, t, -, -, hitems⟩ := h
  refine NodesOccur.within (s := t) ?_ (u := [word, name]) (w := []) (by simp) rfl
  have hsettings := hitems.occurs_filterMap (f := EnumItem.setting?) (q := Setting.Derives note)
    fun _ item _ h x hx ↦ by
      cases h with
      | setting h => exact Option.some.inj hx ▸ h
      | reserved | value => cases hx
  have hvalues := hitems.occurs_filterMap (f := EnumItem.value?) (q := Field.DerivesValue note)
    fun _ item _ h x hx ↦ by
      cases h with
      | value h => exact Option.some.inj hx ▸ h
      | setting | reserved => cases hx
  have hreserved := hitems.occurs_filterMap (f := EnumItem.reserved?)
    (q := Reserved.Derives bare note) fun _ item _ h x hx ↦ by
      cases h with
      | reserved h => exact Option.some.inj hx ▸ h
      | setting | value => cases hx
  exact .append (.append (.flatMap (fun _ _ _ h ↦ h.nodesOccur) hsettings)
    (.flatMap (fun _ _ _ h ↦ h.nodesOccur) hvalues))
    (.flatMap (fun _ _ _ h ↦ .single (.reserved h)) hreserved)

section Members

variable {depth : Nat} (hdepth : depth ≤ config.maxDepth)
  (hinner : ∀ ⦃b i xs s⦄, Body.Derives bare config note depth b i xs s →
    NodesOccur bare config note i s (xs.flatMap Member.nodes))

include hdepth hinner

theorem Member.DerivesMessage.nodesOccur {x : Member ν}
    (h : x.DerivesMessage note (Body.Derives bare config note depth) i s) :
    NodesOccur bare config note i s x.nodes := by
  have hderives := Node.Derives.message hdepth h
  obtain @⟨_, word, name, xs, t, -, -, hbody⟩ := h
  rw [Member.nodes, Member.bodyNodes_eq_flatMap]
  exact .cons hderives ((hinner hbody).within (u := [word, name]) (w := []) (by simp) rfl)

theorem Member.DerivesGroup.nodesOccur {x : Member ν}
    (h : x.DerivesGroup bare config note (Body.Derives bare config note depth) i s) :
    NodesOccur bare config note i s x.nodes := by
  have hderives := Node.Derives.group hdepth h
  obtain @⟨_, l, word, _, _, _, options, xs, u, t, -, -, hn, hbody⟩ := h
  rw [Member.nodes, Member.bodyNodes_eq_flatMap]
  refine .cons hderives (.append (hn.nodesOccur.within (u := [l, word]) rfl rfl) ?_)
  exact (hinner hbody).within (u := l :: word :: u) (w := []) (by simp) (by simp; omega)

theorem Member.DerivesExtend.nodesOccur {x : Member ν}
    (h : x.DerivesExtend note (Body.Derives bare config note depth) i s) :
    NodesOccur bare config note i s x.nodes := by
  have hderives := Node.Derives.extend hdepth h
  obtain @⟨_, word, type, xs, u, t, -, htype, hbody⟩ := h
  rw [Member.nodes, Member.bodyNodes_eq_flatMap]
  refine .cons hderives (.append (.within (.single (.typeRef htype)) (u := [word]) rfl rfl) ?_)
  exact (hinner hbody).within (u := word :: u) (w := []) (by simp) (by simp; omega)

theorem Member.Derives.nodesOccur {x : Member ν} {b : Body}
    (h : x.Derives bare config note (Body.Derives bare config note depth) b i s) :
    NodesOccur bare config note i s x.nodes := by
  cases h with
  | field h _ => exact h.nodesOccur
  | group h => exact h.nodesOccur hdepth hinner
  | message h => exact h.nodesOccur hdepth hinner
  | enumType h => exact h.nodesOccur
  | extend h _ => exact h.nodesOccur hdepth hinner
  | extensions h _ => exact h.nodesOccur
  | setting h => exact h.nodesOccur
  | oneOf h => exact h.nodesOccur
  | reserved h _ => exact .single (.reserved h)
  | mapField h => exact h.nodesOccur

end Members

/-- The nodes of a body, by induction on how many blocks may be nested in it. -/
theorem Body.Derives.nodesOccur {depth : Nat} (hdepth : depth ≤ config.maxDepth) {b : Body}
    {xs : List (Member ν)} (h : Body.Derives bare config note depth b i xs s) :
    NodesOccur bare config note i s (xs.flatMap Member.nodes) := by
  induction depth generalizing b i xs s with
  | zero => exact h.elim
  | succ depth ih =>
    have hle : depth ≤ config.maxDepth := Nat.le_of_succ_le hdepth
    exact .flatMap (fun _ _ _ hm ↦ hm.nodesOccur hle fun _ _ _ _ h ↦ ih hle h)
      fun _ hx ↦ Block.occurs h hx

/-! ## Services -/

theorem Rpc.End.nodesOccur {xs : List (Setting ν)} (h : Rpc.End note i xs s) :
    NodesOccur bare config note i s (xs.flatMap Setting.nodes) := by
  cases h with
  | semicolon => exact .nil
  | block h => exact .flatMap (fun _ _ _ h ↦ h.nodesOccur) fun _ hx ↦ h.occurs hx

theorem Rpc.Endpoint.occurs {x : Bool × TypeRef ν} (h : Rpc.Endpoint note i x s) :
    (TypeRef.Derives note).Occurs i x.2 s := by
  cases h with
  | @plain _ l first r _ s _ htype _ _ =>
    exact (Occurs.self htype).within (u := [l]) (w := [r]) rfl rfl
  | @stream _ l word r _ s _ _ htype _ =>
    exact (Occurs.self htype).within (u := [l, word]) (w := [r]) rfl rfl

theorem Rpc.Derives.nodesOccur {x : Rpc ν} (h : x.Derives note i s) :
    NodesOccur bare config note i s x.nodes := by
  refine .cons (.rpc h) ?_
  obtain @⟨_, word, name, returns, _, _, _, _, _, s, t, u, -, -, hin, -, hout, hend⟩ := h
  have hinput : (TypeRef.Derives note).Occurs i _ (word :: name :: (s ++ returns :: (t ++ u))) :=
    hin.occurs.within (u := [word, name]) (w := returns :: (t ++ u)) (by simp) rfl
  have houtput : (TypeRef.Derives note).Occurs i _ (word :: name :: (s ++ returns :: (t ++ u))) :=
    hout.occurs.within (u := word :: name :: (s ++ [returns])) (w := u) (by simp) (by simp; omega)
  refine List.forall_mem_cons.mpr ⟨hinput.imp fun _ _ ↦ .typeRef,
    List.forall_mem_cons.mpr ⟨houtput.imp fun _ _ ↦ .typeRef, ?_⟩⟩
  exact hend.nodesOccur.within (u := word :: name :: (s ++ returns :: t)) (w := []) (by simp)
    (by simp; omega)

theorem ServiceItem.Derives.nodesOccur {x : ServiceItem ν} (h : x.Derives note i s) :
    NodesOccur bare config note i s x.nodes := by
  cases h with
  | setting h => exact h.nodesOccur
  | rpc h => exact h.nodesOccur

theorem Service.Derives.nodesOccur {x : Service ν} (h : x.Derives note i s) :
    NodesOccur bare config note i s x.nodes := by
  refine .cons (.service h) ?_
  obtain @⟨_, word, name, items, t, -, -, hitems⟩ := h
  refine NodesOccur.within (s := t) ?_ (u := [word, name]) (w := []) (by simp) rfl
  exact .flatMap (fun _ _ _ h ↦ h.nodesOccur) fun _ hx ↦ hitems.occurs hx

/-! ## Files -/

theorem Package.Derives.nodesOccur {x : Package ν} (h : x.Derives note i s) :
    NodesOccur bare config note i s [.package x, .fullName x.name] := by
  refine .cons (.package h) ?_
  obtain @⟨_, word, semi, _, t, -, hname, -⟩ := h
  exact .within (.single (.fullName hname)) (u := [word]) rfl rfl

theorem Directive.Derives.nodesOccur {x : Directive ν} (h : x.Derives bare config note i s) :
    NodesOccur bare config note i s x.nodes := by
  have hdepth := Nat.le_refl config.maxDepth
  have hinner ⦃b i xs s⦄ (h : Body.Derives bare config note config.maxDepth b i xs s) :=
    h.nodesOccur hdepth
  cases h with
  | importFile h => exact .single (.importFile h)
  | package h => exact h.nodesOccur
  | setting h => exact h.nodesOccur
  | message h => exact h.nodesOccur hdepth hinner
  | enumType h => exact h.nodesOccur
  | extend h => exact h.nodesOccur hdepth hinner
  | service h => exact h.nodesOccur

/-- **Every node of a schema is made of symbols in a row.** -/
theorem Schema.Derives.nodesOccur {x : Schema ν} (h : x.Derives bare config note i s) :
    NodesOccur bare config note i s x.nodes := by
  obtain @⟨_, v?, ds, u, t, hv, hds⟩ := h
  refine .append ?_ (.within (s := t) ?_ (u := u) (w := []) (by simp) rfl)
  · cases hv with
    | none => exact .nil
    | some h => exact .within (.single (.version h)) (u := []) rfl rfl
  · exact .flatMap (fun _ _ _ h ↦ h.nodesOccur) fun _ hx ↦ hds.occurs hx

/-- Where the statements of a file stand. -/
theorem Schema.Derives.directive_occurs {x : Schema ν} (h : x.Derives bare config note i s)
    {y : Directive ν} (hy : y ∈ x.directives) :
    (Directive.Derives bare config note).Occurs i y s := by
  obtain @⟨_, v?, ds, u, t, -, hds⟩ := h
  exact (hds.occurs hy).within (u := u) (w := []) (by simp) rfl

/-- Where the members of a message or a group stand, and how many blocks may be nested in them. -/
theorem Node.Derives.member_occurs {header : Header ν} {body : List (Member ν)} {loc : ν}
    (h : (Node.member (.block header body loc)).Derives bare config note i s)
    (hheader : ∀ extendee, header ≠ .extend extendee) {e : Member ν} (he : e ∈ body) :
    ∃ depth < config.maxDepth, (Member.Derives bare config note
      (Body.Derives bare config note depth) .message).Occurs i e s := by
  have hinner {depth j : Nat} {t : List Symbol} (hdepth : depth ≤ config.maxDepth)
      (h : Body.Derives bare config note depth .message j body t) :
      ∃ depth < config.maxDepth, (Member.Derives bare config note
        (Body.Derives bare config note depth) .message).Occurs j e t := by
    cases depth with
    | zero => exact h.elim
    | succ depth => exact ⟨depth, hdepth, Block.occurs h he⟩
  generalize hn : Node.member (.block header body loc) = n at h
  cases h with
  | message hdepth h =>
    obtain @⟨_, word, name, xs, t, -, -, hbody⟩ := h
    obtain ⟨rfl, rfl, rfl⟩ := Member.block.inj (Node.member.inj hn)
    obtain ⟨depth, hlt, hoccurs⟩ := hinner hdepth hbody
    exact ⟨depth, hlt, hoccurs.within (u := [word, name]) (w := []) (by simp) rfl⟩
  | group hdepth h =>
    obtain @⟨_, l, word, _, _, _, options, xs, u, t, -, -, -, hbody⟩ := h
    obtain ⟨rfl, rfl, rfl⟩ := Member.block.inj (Node.member.inj hn)
    obtain ⟨depth, hlt, hoccurs⟩ := hinner hdepth hbody
    exact ⟨depth, hlt, hoccurs.within (u := l :: word :: u) (w := []) (by simp) (by simp; omega)⟩
  | extend hdepth h =>
    obtain @⟨_, word, type, xs, u, t, -, -, hbody⟩ := h
    exact absurd (Member.block.inj (Node.member.inj hn)).1 (hheader type)
  | _ => cases hn

/-- Where the members of a message or a group of a file stand, at every depth. -/
theorem Schema.Derives.member_occurs {x : Schema ν} (h : x.Derives bare config note i s)
    {header : Header ν} {body : List (Member ν)} {loc : ν}
    (hblock : .member (.block header body loc) ∈ x.nodes)
    (hheader : ∀ extendee, header ≠ .extend extendee) {e : Member ν} (he : e ∈ body) :
    ∃ depth < config.maxDepth, (Member.Derives bare config note
      (Body.Derives bare config note depth) .message).Occurs i e s := by
  obtain ⟨u, v, w, rfl, hv⟩ := h.nodesOccur _ hblock
  obtain ⟨depth, hdepth, hoccurs⟩ := hv.member_occurs hheader he
  exact ⟨depth, hdepth, hoccurs.within rfl rfl⟩

end ProtoSchema
