import ProtoSchema.Schema.Map
import ProtoSchema.Schema.Node

/-!
# The parts of a node

`Node.parts` are the nodes directly below a node, in lists as the tree keeps them: the one list of
most nodes is in the order in which its parts are written, and an enum or a oneof has a list for
each sort of item.  Changing the notes of a schema changes the notes of its nodes and of their
parts.

The lists matter where places are concerned.  The tree forgets how options and fields of a oneof
were mixed in the text, so nothing can be said of an option and a field but that they do not
overlap; within one list the order of the tree is the order of the text.  `Node.Nests` says just
this, for any two relations that "inside" and "before" may stand for.

## What is here

* `Setting.node` to `Directive.node` — statements as nodes.
* `Schema.roots`, `Node.parts` — the tree, one level at a time.
* `Node.Nests` — how the notes of the parts of a node lie to each other and to that of the node.
* `Node.body?` — the statements of a body, whatever body it is.
* `HasParts` and `Schema.hasParts` — the list `Schema.nodes` holds with each node its parts, so a
  walk from the roots never leaves it.  With `Schema.roots_subset` that makes `Schema.nodes` the
  list of all nodes, which is worth knowing since it is what theorems quantify over.
* `Node.map`, `Node.parts_map`, `Schema.nodes_map` — changing notes commutes with all of this.  The
  lemmas are used to move a fact from the tree of the grammar, with extents, to that of a document,
  with places.
-/

set_option autoImplicit false

namespace ProtoSchema

variable {ν μ : Type}

/-- An option as a node. -/
abbrev Setting.node (s : Setting ν) : Node ν := .member (.setting s)

/-- A field as a node. -/
abbrev Field.node (f : Field ν) : Node ν := .member (.field f)

/-- A statement that reserves numbers or names as a node. -/
abbrev Reserved.node (r : Reserved ν) : Node ν := .member (.reserved r)

/-- A statement of a service as a node. -/
def ServiceItem.node : ServiceItem ν → Node ν
  | .setting s => s.node
  | .rpc r => .rpc r

/-- A statement at the top of a file as a node. -/
def Directive.node : Directive ν → Node ν
  | .importFile i => .importFile i
  | .package p => .package p
  | .service s => .service s
  | .member m => .member m

/-- The nodes that are below no other. -/
def Schema.roots (s : Schema ν) : List (Node ν) :=
  s.version?.toList.map .version ++ s.directives.map Directive.node

/-- The nodes in a header: the options of a group, or what is extended. -/
def Header.parts : Header ν → List (Node ν)
  | .message _ => []
  | .group _ _ _ options => options.map Setting.node
  | .extend extendee => [.typeRef extendee]

/-- The nodes directly below a member.  Those in the header of a block come before those in its
body. -/
def Member.parts : Member ν → List (List (Node ν))
  | .field f => [f.type?.toList.map .typeRef ++ f.options.map Setting.node]
  | .mapField m => [.typeRef m.valueType :: m.options.map Setting.node]
  | .oneOf o => [o.options.map Setting.node, o.fields.map Field.node]
  | .enumType e =>
    [e.options.map Setting.node, e.values.map Field.node, e.reserved.map Reserved.node]
  | .extensions e => [e.options.map Setting.node]
  | .reserved _ => []
  | .setting s => [[.optionName s.name, .constant s.value]]
  | .block header body _ => [header.parts ++ body.map .member]

/-- The nodes directly below a node. -/
def Node.parts : Node ν → List (List (Node ν))
  | .package p => [[.fullName p.name]]
  | .service s => [s.items.map ServiceItem.node]
  | .rpc r => [.typeRef r.input :: .typeRef r.output :: r.options.map Setting.node]
  | .member m => m.parts
  | .constant (.name n) => [[.fullName n]]
  | .constant (.literal value loc) => [[.literal value loc]]
  | _ => []

/-- The notes of the parts of a node lie inside the note of the node; those of one list follow one
another, and no two of any lists overlap. -/
structure Node.Nests (inside before : ν → ν → Prop) (n : Node ν) : Prop where
  inside : ∀ c ∈ n.parts.flatten, inside c.loc n.loc
  increasing : ∀ cs ∈ n.parts, cs.Pairwise fun a b => before a.loc b.loc
  apart : n.parts.flatten.Pairwise fun a b => before a.loc b.loc ∨ before b.loc a.loc

/-- The statements in the body of a node, if it is one that can have a body.  A oneof or an enum
keeps them sorted, and a call that ends in a semicolon has none. -/
def Node.body? : Node ν → Option (List (Node ν))
  | .service x => some (x.items.map ServiceItem.node)
  | .rpc x => some (x.options.map Setting.node)
  | .member (.oneOf x) => some (x.options.map Setting.node ++ x.fields.map Field.node)
  | .member (.enumType x) =>
    some (x.options.map Setting.node ++ x.values.map Field.node ++ x.reserved.map Reserved.node)
  | .member (.block _ body _) => some (body.map .member)
  | _ => none

/-! ## The parts of the nodes are nodes -/

/-- With each node the list has the parts of the node. -/
def HasParts (ns : List (Node ν)) : Prop := ∀ n ∈ ns, n.parts.flatten ⊆ ns

/-- A node can be put in front of a list that has its parts. -/
theorem HasParts.cons {n : Node ν} {ns : List (Node ν)} (hn : n.parts.flatten ⊆ ns)
    (h : HasParts ns) : HasParts (n :: ns) := by
  intro m hm c hc
  rcases List.mem_cons.mp hm with rfl | hm
  · exact List.mem_cons_of_mem _ (hn hc)
  · exact List.mem_cons_of_mem _ (h m hm hc)

theorem HasParts.append {ns ms : List (Node ν)} (hns : HasParts ns) (hms : HasParts ms) :
    HasParts (ns ++ ms) := by
  intro n hn c hc
  rcases List.mem_append.mp hn with hn | hn
  · exact List.mem_append_left _ (hns n hn hc)
  · exact List.mem_append_right _ (hms n hn hc)

theorem HasParts.flatMap {α : Type} {nodes : α → List (Node ν)} {xs : List α}
    (h : ∀ x ∈ xs, HasParts (nodes x)) : HasParts (xs.flatMap nodes) := by
  intro n hn c hc
  obtain ⟨x, hx, hn⟩ := List.mem_flatMap.mp hn
  exact List.mem_flatMap.mpr ⟨x, hx, h x hx n hn hc⟩

theorem map_subset_flatMap {α : Type} {node : α → Node ν} {nodes : α → List (Node ν)} {xs : List α}
    (h : ∀ x, node x ∈ nodes x) : xs.map node ⊆ xs.flatMap nodes := by
  intro n hn
  obtain ⟨x, hx, rfl⟩ := List.mem_map.mp hn
  exact List.mem_flatMap.mpr ⟨x, hx, h x⟩

theorem Setting.node_mem_nodes (s : Setting ν) : s.node ∈ s.nodes := List.mem_cons_self

/-- The nodes of an option are all that there are in it. -/
theorem Setting.hasParts (s : Setting ν) : HasParts s.nodes := by
  cases hv : s.value <;>
    simp [HasParts, Setting.nodes, Constant.nodes, Node.parts, Member.parts, hv]

theorem settings_hasParts (xs : List (Setting ν)) : HasParts (xs.flatMap Setting.nodes) :=
  .flatMap fun s _ ↦ s.hasParts

theorem settings_subset (xs : List (Setting ν)) :
    xs.map Setting.node ⊆ xs.flatMap Setting.nodes :=
  map_subset_flatMap Setting.node_mem_nodes

theorem leaf_hasParts {n : Node ν} (h : n.parts = []) : HasParts [n] := by simp [HasParts, h]

theorem Field.node_mem_nodes (f : Field ν) : f.node ∈ f.nodes := by simp [Field.nodes]

theorem Field.hasParts (f : Field ν) : HasParts f.nodes := by
  refine .cons ?_ (.append ?_ (settings_hasParts f.options))
  · simp only [Node.parts, Member.parts, List.flatten_singleton]
    exact List.append_subset.mpr ⟨List.subset_append_left _ _,
      List.Subset.trans (settings_subset f.options) (List.subset_append_right _ _)⟩
  · cases f.type? <;> simp [HasParts, Node.parts]

theorem fields_subset (xs : List (Field ν)) : xs.map Field.node ⊆ xs.flatMap Field.nodes :=
  map_subset_flatMap Field.node_mem_nodes

theorem OneOf.hasParts (o : OneOf ν) : HasParts o.nodes := by
  refine .cons ?_ (.append (settings_hasParts o.options) (.flatMap fun f _ ↦ f.hasParts))
  simp only [Node.parts, Member.parts, List.flatten_cons, List.flatten_nil, List.append_nil]
  exact List.append_subset.mpr
    ⟨List.Subset.trans (settings_subset o.options) (List.subset_append_left _ _),
      List.Subset.trans (fields_subset o.fields) (List.subset_append_right _ _)⟩

theorem EnumType.hasParts (e : EnumType ν) : HasParts e.nodes := by
  have hreserved : e.reserved.map Reserved.node ⊆ e.reserved.flatMap Reserved.nodes :=
    map_subset_flatMap fun _ ↦ List.mem_cons_self
  refine .cons ?_ (.append (.append (settings_hasParts e.options) (.flatMap fun f _ ↦ f.hasParts))
    (.flatMap fun _ _ ↦ leaf_hasParts rfl))
  simp only [Node.parts, Member.parts, List.flatten_cons, List.flatten_nil, List.append_nil]
  refine List.append_subset.mpr ⟨?_, List.append_subset.mpr ⟨?_, ?_⟩⟩
  · exact List.Subset.trans (settings_subset e.options)
      (List.Subset.trans (List.subset_append_left _ _) (List.subset_append_left _ _))
  · exact List.Subset.trans (fields_subset e.values)
      (List.Subset.trans (List.subset_append_right _ _) (List.subset_append_left _ _))
  · exact List.Subset.trans hreserved (List.subset_append_right _ _)

theorem Header.parts_subset (h : Header ν) : h.parts ⊆ h.nodes := by
  cases h with
  | message => exact List.Subset.refl _
  | group _ _ _ options => exact settings_subset options
  | extend => exact List.Subset.refl _

theorem Header.hasParts (h : Header ν) : HasParts h.nodes := by
  cases h with
  | message => simp [HasParts, Header.nodes]
  | group _ _ _ options => exact settings_hasParts options
  | extend => exact leaf_hasParts rfl

theorem Member.node_mem_nodes (m : Member ν) : .member m ∈ m.nodes := by
  cases m <;> simp [Member.nodes, Field.nodes, MapField.nodes, OneOf.nodes, EnumType.nodes,
    Extensions.nodes, Reserved.nodes, Setting.nodes]

mutual

/-- The nodes of a member are all that there are in it, by recursion on the member. -/
theorem Member.hasParts : ∀ m : Member ν, HasParts m.nodes
  | .field f => f.hasParts
  | .mapField m => by
    refine .cons ?_ (.cons (List.nil_subset _) (settings_hasParts m.options))
    simpa [Node.parts, Member.parts] using
      List.Subset.trans (settings_subset m.options) (List.subset_cons_self _ _)
  | .oneOf o => o.hasParts
  | .enumType e => e.hasParts
  | .extensions e => by
    refine .cons ?_ (settings_hasParts e.options)
    simpa [Node.parts, Member.parts] using settings_subset e.options
  | .reserved _ => leaf_hasParts rfl
  | .setting s => s.hasParts
  | .block header body loc => by
    have hbody : body.map .member ⊆ Member.bodyNodes body :=
      Member.bodyNodes_eq_flatMap body ▸ map_subset_flatMap Member.node_mem_nodes
    refine .cons ?_ (.append header.hasParts (Member.bodyHasParts body))
    simp only [Node.parts, Member.parts, List.flatten_singleton]
    exact List.append_subset.mpr
      ⟨List.Subset.trans header.parts_subset (List.subset_append_left _ _),
        List.Subset.trans hbody (List.subset_append_right _ _)⟩

theorem Member.bodyHasParts : ∀ ms : List (Member ν), HasParts (Member.bodyNodes ms)
  | [] => by simp [HasParts, Member.bodyNodes]
  | m :: ms => .append (Member.hasParts m) (Member.bodyHasParts ms)

end

theorem ServiceItem.hasParts (x : ServiceItem ν) : HasParts x.nodes := by
  cases x with
  | setting s => exact s.hasParts
  | rpc r =>
    refine .cons ?_ (.cons (List.nil_subset _)
      (.cons (List.nil_subset _) (settings_hasParts r.options)))
    simp only [Node.parts, List.flatten_singleton]
    exact List.cons_subset_cons _ (List.cons_subset_cons _ (settings_subset r.options))

theorem ServiceItem.node_mem_nodes (x : ServiceItem ν) : x.node ∈ x.nodes := by
  cases x <;> exact List.mem_cons_self

theorem Directive.hasParts (x : Directive ν) : HasParts x.nodes := by
  cases x with
  | importFile => exact leaf_hasParts rfl
  | package => exact .cons (List.Subset.refl _) (leaf_hasParts rfl)
  | member m => exact m.hasParts
  | service s =>
    refine .cons ?_ (.flatMap fun x _ ↦ x.hasParts)
    simp only [Node.parts, List.flatten_singleton]
    exact map_subset_flatMap ServiceItem.node_mem_nodes

theorem Directive.node_mem_nodes (x : Directive ν) : x.node ∈ x.nodes := by
  cases x with
  | member m => exact m.node_mem_nodes
  | _ => exact List.mem_cons_self

/-- The nodes of a schema are all that there are. -/
theorem Schema.hasParts (s : Schema ν) : HasParts s.nodes := by
  refine .append ?_ (.flatMap fun x _ ↦ x.hasParts)
  cases s.version? <;> simp [HasParts, Node.parts]

/-- What is below no other node is a node all the same. -/
theorem Schema.roots_subset (s : Schema ν) : s.roots ⊆ s.nodes :=
  List.append_subset.mpr ⟨List.subset_append_left _ _,
    List.Subset.trans (map_subset_flatMap Directive.node_mem_nodes) (List.subset_append_right _ _)⟩

/-! ## Notes -/

/-- The node with its notes changed. -/
def Node.map (f : ν → μ) : Node ν → Node μ
  | .version v => .version (v.map f)
  | .importFile i => .importFile (i.map f)
  | .package p => .package (p.map f)
  | .service s => .service (s.map f)
  | .rpc r => .rpc (r.map f)
  | .member m => .member (m.map f)
  | .fullName n => .fullName (n.map f)
  | .optionName n => .optionName (n.map f)
  | .typeRef t => .typeRef (t.map f)
  | .constant c => .constant (c.map f)
  | .literal value loc => .literal value (f loc)

variable (f : ν → μ)

/-- The note of a node is changed like any other. -/
@[simp]
theorem Node.loc_map (n : Node ν) : (n.map f).loc = f n.loc := by
  cases n with
  | member m => cases m <;> rfl
  | constant c => cases c <;> rfl
  | _ => rfl

theorem Header.parts_map (h : Header ν) : (h.map f).parts = h.parts.map (Node.map f) := by
  cases h <;> simp [Header.map, Header.parts, Node.map, Member.map]

theorem ServiceItem.node_map (x : ServiceItem ν) : (x.map f).node = x.node.map f := by
  cases x <;> rfl

theorem Directive.node_map (x : Directive ν) : (x.map f).node = x.node.map f := by
  cases x <;> rfl

theorem Member.loc_map (m : Member ν) : (m.map f).loc = f m.loc := Node.loc_map f (.member m)

theorem Directive.loc_node (x : Directive ν) : x.node.loc = x.loc := by
  cases x <;> rfl

theorem Directive.loc_map (x : Directive ν) : (x.map f).loc = f x.loc := by
  rw [← Directive.loc_node, Directive.node_map, Node.loc_map, Directive.loc_node]

theorem Member.parts_map (m : Member ν) :
    (m.map f).parts = m.parts.map (List.map (Node.map f)) := by
  cases m with
  | field x =>
    cases htype : x.type? <;>
      simp [Member.map, Field.map, Member.parts, Node.map, htype, Function.comp_def]
  | block header body loc =>
    simp [Member.map, Member.mapAll_eq_map, Member.parts, Node.map, Header.parts_map,
      Function.comp_def]
  | _ =>
    simp [Member.map, MapField.map, OneOf.map, EnumType.map, Extensions.map, Setting.map,
      Member.parts, Node.map, Function.comp_def]

/-- The parts of a node whose notes are changed are its parts with their notes changed. -/
theorem Node.parts_map (n : Node ν) : (n.map f).parts = n.parts.map (List.map (Node.map f)) := by
  cases n with
  | member m => exact m.parts_map f
  | constant c => cases c <;> rfl
  | service x =>
    simp [Node.map, Service.map, Node.parts, ServiceItem.node_map, Function.comp_def]
  | rpc x => simp [Node.map, Rpc.map, Node.parts, Member.map, Function.comp_def]
  | _ => rfl

theorem Node.body?_map (n : Node ν) : (n.map f).body? = n.body?.map (List.map (Node.map f)) := by
  cases n with
  | member m =>
    cases m <;> simp [Node.map, Member.map, Node.body?, OneOf.map, EnumType.map,
      Member.mapAll_eq_map, Function.comp_def]
  | service x => simp [Node.map, Service.map, Node.body?, ServiceItem.node_map, Function.comp_def]
  | rpc x => simp [Node.map, Rpc.map, Node.body?, Member.map, Function.comp_def]
  | _ => rfl

theorem Schema.roots_map (s : Schema ν) : (s.map f).roots = s.roots.map (Node.map f) := by
  cases hv : s.version? <;>
    simp [Schema.map, Schema.roots, hv, Node.map, Directive.node_map, Function.comp_def]

/-! ## The nodes with other notes -/

/-- The nodes of several things commute with the change of notes if those of one of them do. -/
theorem map_flatMap_nodes {α β : Type} {g : α → β} {nodes : α → List (Node ν)}
    {nodes' : β → List (Node μ)} (h : ∀ a, nodes' (g a) = (nodes a).map (Node.map f))
    (xs : List α) :
    (xs.map g).flatMap nodes' = (xs.flatMap nodes).map (Node.map f) := by
  rw [List.flatMap_map, List.map_flatMap]
  exact congrArg (List.flatMap · xs) (funext h)

theorem Setting.nodes_map (s : Setting ν) : (s.map f).nodes = s.nodes.map (Node.map f) := by
  cases hv : s.value <;>
    simp [Setting.map, Setting.nodes, Constant.map, Constant.nodes, Node.map, Member.map, hv]

theorem Field.nodes_map (x : Field ν) : (x.map f).nodes = x.nodes.map (Node.map f) := by
  cases ht : x.type? <;>
    simp [Field.map, Field.nodes, Node.map, Member.map, ht,
      map_flatMap_nodes f (Setting.nodes_map f)]

theorem Reserved.nodes_map (x : Reserved ν) : (x.map f).nodes = x.nodes.map (Node.map f) := rfl

theorem Header.nodes_map (h : Header ν) : (h.map f).nodes = h.nodes.map (Node.map f) := by
  cases h <;> simp [Header.map, Header.nodes, Node.map, map_flatMap_nodes f (Setting.nodes_map f)]

mutual

theorem Member.nodes_map : ∀ m : Member ν, (m.map f).nodes = m.nodes.map (Node.map f)
  | .field x => x.nodes_map f
  | .mapField x => by
    simp [Member.map, MapField.map, Member.nodes, MapField.nodes, Node.map,
      map_flatMap_nodes f (Setting.nodes_map f)]
  | .oneOf x => by
    simp [Member.map, OneOf.map, Member.nodes, OneOf.nodes, Node.map,
      map_flatMap_nodes f (Setting.nodes_map f), map_flatMap_nodes f (Field.nodes_map f)]
  | .enumType x => by
    simp [Member.map, EnumType.map, Member.nodes, EnumType.nodes, Node.map,
      map_flatMap_nodes f (Setting.nodes_map f), map_flatMap_nodes f (Field.nodes_map f),
      map_flatMap_nodes f (Reserved.nodes_map f)]
  | .extensions x => by
    simp [Member.map, Extensions.map, Member.nodes, Extensions.nodes, Node.map,
      map_flatMap_nodes f (Setting.nodes_map f)]
  | .reserved _ => rfl
  | .setting x => x.nodes_map f
  | .block header body loc => by
    simp [Member.map, Member.nodes, Node.map, Header.nodes_map, Member.bodyNodes_map body]

theorem Member.bodyNodes_map : ∀ ms : List (Member ν),
    Member.bodyNodes (Member.mapAll f ms) = (Member.bodyNodes ms).map (Node.map f)
  | [] => rfl
  | m :: ms => by
    simp [Member.mapAll, Member.bodyNodes, Member.nodes_map m, Member.bodyNodes_map ms]

end

theorem ServiceItem.nodes_map (x : ServiceItem ν) : (x.map f).nodes = x.nodes.map (Node.map f) := by
  cases x with
  | setting s => exact s.nodes_map f
  | rpc r =>
    simp [ServiceItem.map, Rpc.map, ServiceItem.nodes, Rpc.nodes, Node.map,
      map_flatMap_nodes f (Setting.nodes_map f)]

theorem Directive.nodes_map (x : Directive ν) : (x.map f).nodes = x.nodes.map (Node.map f) := by
  cases x with
  | importFile | package => rfl
  | member m => exact m.nodes_map f
  | service s =>
    simp [Directive.map, Service.map, Directive.nodes, Service.nodes, Node.map,
      map_flatMap_nodes f (ServiceItem.nodes_map f)]

/-- The nodes of a schema whose notes are changed are its nodes with their notes changed. -/
theorem Schema.nodes_map (s : Schema ν) : (s.map f).nodes = s.nodes.map (Node.map f) := by
  cases hv : s.version? <;>
    simp [Schema.map, Schema.nodes, hv, Node.map, map_flatMap_nodes f (Directive.nodes_map f)]

end ProtoSchema
