import ProtoSchema.Proofs.Schema.Parts

/-!
# Other names

Messages, groups, enums, oneofs, fields, map fields, enum values, services and calls declare names.
`Schema.Renamed` is the relation between a schema and the same schema with another name for one of
its nodes.  The node is given with its note, so that one which is declared twice in the same words
is still told from the other; all else in the two trees is the same, notes included.

## What is here

* `Node.name?` — the name that a node declares, if it declares one.
* `Node.nameAt?` — the number of the symbol that the name is, computed from the notes of the node
  and of its parts.  The functions `first` and `last` read a symbol off a note, and `next` goes one
  symbol further; they are parameters because there are two sorts of notes.
* `Once` — one item of a list is changed and no other.
* `Field.Renamed` to `Schema.Renamed` — one node of a tree has another name.  Each is an inductive
  relation with a constructor for the node itself and one for every list it may be found in.
* `Schema.Renamed.map` — the relation does not depend on what the notes are.
* `Field.eq_of_mem` to `Member.mem_nodes_block` — where in a statement a node that declares a name
  can be.  A proof that is given such a node of a schema finds its way to it by these.

The relation is used in `Proofs/Grammar/Renaming.lean`, which puts another word in the place of the
name in the text and reads the result.
-/

set_option autoImplicit false

namespace ProtoSchema

variable {ν μ : Type}

/-! ## Declared names -/

/-- The name that a node declares. -/
def Node.name? : Node ν → Option String
  | .service x => some x.name
  | .rpc x => some x.name
  | .member (.field x) => some x.name
  | .member (.mapField x) => some x.name
  | .member (.oneOf x) => some x.name
  | .member (.enumType x) => some x.name
  | .member (.block (.message name) _ _) => some name
  | .member (.block (.group _ name _ _) _ _) => some name
  | _ => none

/-- Where the declared name of a node stands, from the notes: a field has its name behind its type,
and most other nodes behind the word that they begin with.  `first` and `last` are what a note says
of the first and the last word of a node, and `next` leads from a word to the one behind it. -/
def Node.nameAt? (first last : ν → Nat) (next : Nat → Nat) : Node ν → Option Nat
  | .service x => some (next (first x.loc))
  | .rpc x => some (next (first x.loc))
  | .member (.field x) =>
    match x.type? with
    | some type => some (next (last type.loc))
    | none => some (first x.loc)
  -- Between the type and the name is the mark that ends the pair of types.
  | .member (.mapField x) => some (next (next (last x.valueType.loc)))
  | .member (.oneOf x) => some (next (first x.loc))
  | .member (.enumType x) => some (next (first x.loc))
  | .member (.block (.message _) _ loc) => some (next (first loc))
  -- The first two words are the label and `group`.
  | .member (.block (.group _ _ _ _) _ loc) => some (next (next (first loc)))
  | _ => none

/-- Changing the notes changes no name. -/
theorem Node.name?_map (f : ν → μ) (n : Node ν) : (n.map f).name? = n.name? := by
  cases n with
  | member m =>
    cases m with
    | block header => cases header <;> rfl
    | _ => rfl
  | _ => rfl

/-- Where the name stands when the notes are changed, and the numbers with them. -/
theorem Node.nameAt?_map {f : ν → μ} {first last : ν → Nat} {first' last' : μ → Nat}
    {next next' : Nat → Nat} (place : Nat → Nat) {n : Node ν} {k : Nat}
    (h : n.nameAt? first last next = some k)
    (hfirst : ∀ x, first' (f x) = place (first x)) (hlast : ∀ x, last' (f x) = place (last x))
    (hle : ∀ j, j < next j) (hnext : ∀ j < k, next' (place j) = place (next j)) :
    (n.map f).nameAt? first' last' next' = some (place k) := by
  have once {j : Nat} (hj : next j = k) : next' (place j) = place k := by
    rw [hnext j (hj ▸ hle j), hj]
  have twice {j : Nat} (hj : next (next j) = k) : next' (next' (place j)) = place k := by
    rw [hnext j (hj ▸ Nat.lt_trans (hle j) (hle _)), once hj]
  have second {x : ν} (hx : next (first x) = k) : next' (first' (f x)) = place k := by
    rw [hfirst, once hx]
  cases n with
  | member m =>
    cases m with
    | field x =>
      cases hx : x.type? with
      | none =>
        simp only [nameAt?, hx, Option.some.injEq] at h
        simp [Node.map, Member.map, nameAt?, Field.map, hx, hfirst, h]
      | some type =>
        simp only [nameAt?, hx, Option.some.injEq] at h
        simp [Node.map, Member.map, nameAt?, Field.map, hx, TypeRef.map, hlast, once h]
    | mapField x =>
      simp only [nameAt?, Option.some.injEq] at h
      simp [Node.map, Member.map, nameAt?, MapField.map, TypeRef.map, hlast, twice h]
    | oneOf | enumType => exact congrArg some (second (Option.some.inj h))
    | block header body loc =>
      cases header with
      | message => exact congrArg some (second (Option.some.inj h))
      | group =>
        simp only [nameAt?, Option.some.injEq] at h
        simp [Node.map, Member.map, Header.map, nameAt?, hfirst, twice h]
      | extend => cases h
    | _ => cases h
  | service | rpc => exact congrArg some (second (Option.some.inj h))
  | _ => cases h

/-! ## One name changed -/

/-- One item of a list is changed, as `R` says, and the others stay. -/
inductive Once {α : Type} (R : α → α → Prop) : List α → List α → Prop
  | mk {before after : List α} {a b : α} (h : R a b) :
    Once R (before ++ a :: after) (before ++ b :: after)

section

variable (w : String)

/-- The field, which is the node, has the name `w` instead of its own. -/
inductive Field.Renamed : Node ν → Field ν → Field ν → Prop
  | self (x : Field ν) : Renamed x.node x { x with name := w }

/-- The oneof or one of its fields has the name `w`, whichever the node is; and so on for what else
has nodes below it. -/
inductive OneOf.Renamed : Node ν → OneOf ν → OneOf ν → Prop
  | self (x : OneOf ν) : Renamed (.member (.oneOf x)) x { x with name := w }
  | field {n : Node ν} {x : OneOf ν} {fields : List (Field ν)}
    (h : Once (Field.Renamed w n) x.fields fields) : Renamed n x { x with fields := fields }

/-- The enum or one of its values has the name `w`. -/
inductive EnumType.Renamed : Node ν → EnumType ν → EnumType ν → Prop
  | self (x : EnumType ν) : Renamed (.member (.enumType x)) x { x with name := w }
  | value {n : Node ν} {x : EnumType ν} {values : List (Field ν)}
    (h : Once (Field.Renamed w n) x.values values) : Renamed n x { x with values := values }

/-- The member, or a node below it, has the name `w`.  A block can have the node in its body. -/
inductive Member.Renamed : Node ν → Member ν → Member ν → Prop
  | field {n : Node ν} {x y : Field ν} (h : x.Renamed w n y) : Renamed n (.field x) (.field y)
  | mapField (x : MapField ν) :
    Renamed (.member (.mapField x)) (.mapField x) (.mapField { x with name := w })
  | oneOf {n : Node ν} {x y : OneOf ν} (h : x.Renamed w n y) : Renamed n (.oneOf x) (.oneOf y)
  | enumType {n : Node ν} {x y : EnumType ν} (h : x.Renamed w n y) :
    Renamed n (.enumType x) (.enumType y)
  | message (name : String) (body : List (Member ν)) (loc : ν) :
    Renamed (.member (.block (.message name) body loc)) (.block (.message name) body loc)
      (.block (.message w) body loc)
  | group (label : Label) (name : String) (number : Int) (options : List (Setting ν))
    (body : List (Member ν)) (loc : ν) :
    Renamed (.member (.block (.group label name number options) body loc))
      (.block (.group label name number options) body loc)
      (.block (.group label w number options) body loc)
  | inside {n : Node ν} {header : Header ν} {before after : List (Member ν)} {x y : Member ν}
    {loc : ν} (h : Renamed n x y) :
    Renamed n (.block header (before ++ x :: after) loc) (.block header (before ++ y :: after) loc)

/-- The call has the name `w`; an option of a service declares none. -/
inductive ServiceItem.Renamed : Node ν → ServiceItem ν → ServiceItem ν → Prop
  | rpc (x : Rpc ν) : Renamed (.rpc x) (.rpc x) (.rpc { x with name := w })

/-- The service or one of its calls has the name `w`. -/
inductive Service.Renamed : Node ν → Service ν → Service ν → Prop
  | self (x : Service ν) : Renamed (.service x) x { x with name := w }
  | item {n : Node ν} {x : Service ν} {items : List (ServiceItem ν)}
    (h : Once (ServiceItem.Renamed w n) x.items items) : Renamed n x { x with items := items }

/-- The statement, or a node below it, has the name `w`.  Imports and packages declare none. -/
inductive Directive.Renamed : Node ν → Directive ν → Directive ν → Prop
  | service {n : Node ν} {x y : Service ν} (h : x.Renamed w n y) :
    Renamed n (.service x) (.service y)
  | member {n : Node ν} {x y : Member ν} (h : x.Renamed w n y) : Renamed n (.member x) (.member y)

/-- One node of the schema has the name `w` instead of its own. -/
inductive Schema.Renamed : Node ν → Schema ν → Schema ν → Prop
  | mk {n : Node ν} {x : Schema ν} {directives : List (Directive ν)}
    (h : Once (Directive.Renamed w n) x.directives directives) :
    Renamed n x { x with directives := directives }

end

namespace Once

variable {α β : Type} {R : α → α → Prop} {S : β → β → Prop} {xs ys : List α}

theorem head {a b : α} (h : R a b) (xs : List α) : Once R (a :: xs) (b :: xs) :=
  @Once.mk α R [] xs a b h

theorem tail (a : α) (h : Once R xs ys) : Once R (a :: xs) (a :: ys) := by
  obtain @⟨before, after, b, c, h⟩ := h
  exact @Once.mk α R (a :: before) after b c h

/-- A list that is mapped is still changed in one place. -/
theorem map {g : α → β} (hR : ∀ ⦃a b⦄, R a b → S (g a) (g b)) (h : Once R xs ys) :
    Once S (xs.map g) (ys.map g) := by
  obtain ⟨h⟩ := h
  simpa using Once.mk (hR h)

/-- So is one of which only some items are kept, if the changed one is kept. -/
theorem filterMap {g : α → Option β}
    (hR : ∀ ⦃a b⦄, R a b → ∃ c d, g a = some c ∧ g b = some d ∧ S c d) (h : Once R xs ys) :
    Once S (xs.filterMap g) (ys.filterMap g) := by
  obtain ⟨h⟩ := h
  obtain ⟨c, d, hc, hd, h⟩ := hR h
  simpa [hc, hd] using Once.mk h

/-- What the change does not show in. -/
theorem filterMap_eq {g : α → Option β} (hR : ∀ ⦃a b⦄, R a b → g a = g b) (h : Once R xs ys) :
    xs.filterMap g = ys.filterMap g := by
  obtain ⟨h⟩ := h
  simp [List.filterMap_cons, hR h]

end Once

/-! ## Changing the notes as well -/

section

variable {w : String} {n : Node ν} (f : ν → μ)

theorem Field.Renamed.map {x y : Field ν} (h : x.Renamed w n y) :
    (x.map f).Renamed w (n.map f) (y.map f) := by
  obtain ⟨x⟩ := h
  exact .self (x.map f)

theorem OneOf.Renamed.map {x y : OneOf ν} (h : x.Renamed w n y) :
    (x.map f).Renamed w (n.map f) (y.map f) := by
  cases h with
  | self => exact .self (x.map f)
  | field h => exact .field (x := x.map f) (h.map fun _ _ h ↦ h.map f)

theorem EnumType.Renamed.map {x y : EnumType ν} (h : x.Renamed w n y) :
    (x.map f).Renamed w (n.map f) (y.map f) := by
  cases h with
  | self => exact .self (x.map f)
  | value h => exact .value (x := x.map f) (h.map fun _ _ h ↦ h.map f)

/-- The same change, with other notes; by induction on how deep the node is. -/
theorem Member.Renamed.map {x y : Member ν} (h : x.Renamed w n y) :
    (x.map f).Renamed w (n.map f) (y.map f) := by
  induction h with
  | field h => exact .field (h.map f)
  | mapField x => exact .mapField (x.map f)
  | oneOf h => exact .oneOf (h.map f)
  | enumType h => exact .enumType (h.map f)
  | message => exact .message _ _ _
  | group => exact .group _ _ _ _ _ _
  | inside _ ih =>
    simp only [Member.map, Member.mapAll_eq_map, List.map_append, List.map_cons]
    exact .inside ih

theorem ServiceItem.Renamed.map {x y : ServiceItem ν} (h : x.Renamed w n y) :
    (x.map f).Renamed w (n.map f) (y.map f) := by
  obtain ⟨x⟩ := h
  exact .rpc (x.map f)

theorem Service.Renamed.map {x y : Service ν} (h : x.Renamed w n y) :
    (x.map f).Renamed w (n.map f) (y.map f) := by
  cases h with
  | self => exact .self (x.map f)
  | item h => exact .item (x := x.map f) (h.map fun _ _ h ↦ h.map f)

theorem Directive.Renamed.map {x y : Directive ν} (h : x.Renamed w n y) :
    (x.map f).Renamed w (n.map f) (y.map f) := by
  cases h with
  | service h => exact .service (h.map f)
  | member h => exact .member (h.map f)

/-- The same change in a schema with other notes. -/
theorem Schema.Renamed.map {x y : Schema ν} (h : x.Renamed w n y) :
    (x.map f).Renamed w (n.map f) (y.map f) := by
  obtain ⟨h⟩ := h
  exact .mk (x := x.map f) (h.map fun _ _ h ↦ h.map f)

end

/-! ## Which nodes declare names

The nodes below a setting and the type references declare none, so a node with a name is the tree
itself or stands in one of its statements. -/

section

variable {n : Node ν}

variable (hname : n.name?.isSome)

include hname

/-- Nothing in an option declares a name. -/
theorem Setting.not_mem_nodes {x : Setting ν} : n ∉ x.nodes := by
  cases hx : x.value <;>
    simp only [Setting.nodes, Constant.nodes, hx, List.mem_cons, List.not_mem_nil, or_false] <;>
    rintro (rfl | rfl | rfl | rfl) <;> cases hname

theorem Setting.not_mem_flatMap {xs : List (Setting ν)} : n ∉ xs.flatMap Setting.nodes := by
  intro hn
  obtain ⟨x, -, hn⟩ := List.mem_flatMap.mp hn
  exact Setting.not_mem_nodes hname hn

/-- Of the nodes of a field only the field declares a name. -/
theorem Field.eq_of_mem {x : Field ν} (hn : n ∈ x.nodes) : n = x.node := by
  simp only [Field.nodes, List.cons_append, List.mem_cons, List.mem_append,
    Setting.not_mem_flatMap hname, or_false] at hn
  refine hn.resolve_right fun hn ↦ ?_
  obtain ⟨type, -, rfl⟩ := List.mem_map.mp hn
  cases hname

theorem MapField.eq_of_mem {x : MapField ν} (hn : n ∈ x.nodes) : n = .member (.mapField x) := by
  simp only [MapField.nodes, List.mem_cons, Setting.not_mem_flatMap hname, or_false] at hn
  refine hn.resolve_right ?_
  rintro rfl
  cases hname

theorem Extensions.not_mem_nodes {x : Extensions ν} : n ∉ x.nodes := by
  simp only [Extensions.nodes, List.mem_cons, Setting.not_mem_flatMap hname, or_false]
  rintro rfl
  cases hname

theorem Header.not_mem_nodes {x : Header ν} : n ∉ x.nodes := by
  cases x with
  | message => exact List.not_mem_nil
  | group => exact Setting.not_mem_flatMap hname
  | extend =>
    rw [Header.nodes, List.mem_singleton]
    rintro rfl
    cases hname

/-- In a oneof the oneof and its fields declare names. -/
theorem OneOf.mem_nodes {x : OneOf ν} (hn : n ∈ x.nodes) :
    n = .member (.oneOf x) ∨ ∃ y ∈ x.fields, n = y.node := by
  simp only [OneOf.nodes, List.cons_append, List.mem_cons, List.mem_append,
    Setting.not_mem_flatMap hname, false_or, List.mem_flatMap] at hn
  exact hn.imp_right fun ⟨y, hy, hn⟩ ↦ ⟨y, hy, Field.eq_of_mem hname hn⟩

/-- In an enum the enum and its values declare names. -/
theorem EnumType.mem_nodes {x : EnumType ν} (hn : n ∈ x.nodes) :
    n = .member (.enumType x) ∨ ∃ y ∈ x.values, n = y.node := by
  have hreserved : n ∉ x.reserved.flatMap Reserved.nodes := by
    intro hn
    obtain ⟨y, -, hn⟩ := List.mem_flatMap.mp hn
    obtain rfl := List.mem_singleton.mp hn
    cases hname
  simp only [EnumType.nodes, List.cons_append, List.mem_cons, List.mem_append,
    Setting.not_mem_flatMap hname, hreserved, false_or, or_false, List.mem_flatMap] at hn
  exact hn.imp_right fun ⟨y, hy, hn⟩ ↦ ⟨y, hy, Field.eq_of_mem hname hn⟩

/-- In a block, the block declares a name, or a node of its body does. -/
theorem Member.mem_nodes_block {header : Header ν} {body : List (Member ν)} {loc : ν}
    (hn : n ∈ (Member.block header body loc).nodes) :
    n = .member (.block header body loc) ∨ ∃ x ∈ body, n ∈ x.nodes := by
  simpa only [Member.nodes, List.cons_append, List.mem_cons, List.mem_append,
    Header.not_mem_nodes hname, false_or, Member.bodyNodes_eq_flatMap, List.mem_flatMap] using hn

theorem ServiceItem.eq_of_mem {x : ServiceItem ν} (hn : n ∈ x.nodes) :
    ∃ r, x = .rpc r ∧ n = .rpc r := by
  cases x with
  | setting s => exact absurd hn (Setting.not_mem_nodes hname)
  | rpc r =>
    refine ⟨r, rfl, ?_⟩
    simp only [ServiceItem.nodes, Rpc.nodes, List.mem_cons, Setting.not_mem_flatMap hname,
      or_false] at hn
    refine hn.resolve_right ?_
    rintro (rfl | rfl) <;> cases hname

end

end ProtoSchema
