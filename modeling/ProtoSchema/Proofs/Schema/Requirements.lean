import ProtoSchema.Parse.Rule
import ProtoSchema.Proofs.Schema.Parts

/-!
# What a schema requires of a configuration

A configuration can forbid that the numbers of fields are negative, and it says how many blocks may
be nested in each other.  So there are two sorts of things in a schema that not every configuration
allows, numbers and bodies.  `Schema.requirements` lists them in the order in which they are
written: the number of a group comes before its body, and a body before what is inside of it.

The order is the point.  Reading stops at the first requirement that is not met, so the first such
entry of the list is the one that is reported; and since the list is in the order of the text, "the
first" can be said of the list and of the text alike.

## What is here

* `Requirement` — a number or a body, with the note of the statement that it belongs to.
* `Requirement.Met`, `Requirement.Breaks` — what a configuration makes of it.  `Breaks` gives the
  violation as well, and it holds of the outermost body that is too deep and of no body inside.
* `Schema.requirements` — the list, by recursion on the tree with the level as a parameter.
* `Schema.depth` and `Schema.depth_le_iff` — how deep blocks are nested, as a number that can be
  compared with a limit, and the same said of the list.
* `Schema.requirements_map` — the list with other notes.
* `Schema.exists_node_of_requirement` — each requirement is about a node of the schema, so its note
  is a place in the text.
-/

set_option autoImplicit false

namespace ProtoSchema

variable {ν μ : Type}

/-- Something in a schema that a configuration may not allow. -/
inductive Requirement (ν : Type) where
  /-- The number of a field, of a map field or of a group, and the note of that statement. -/
  | number (n : Int) (loc : ν)
  /-- The body of a block, and the note of the block.  So many bodies are nested in each other
  there, this one being the innermost. -/
  | nesting (level : Nat) (body : List (Member ν)) (loc : ν)

namespace Requirement

/-- The note of the statement that it belongs to. -/
def loc : Requirement ν → ν
  | number _ loc => loc
  | nesting _ _ loc => loc

/-- Whether it is about the number of a field. -/
def isNumber : Requirement ν → Bool
  | number .. => true
  | nesting .. => false

/-- The configuration allows it. -/
def Met (config : Config) : Requirement ν → Prop
  | number n _ => 0 ≤ n ∨ config.allowNegative
  | nesting level _ _ => level ≤ config.maxDepth

/-- The configuration does not allow it, and this is how it is violated.  Of the bodies that are too
deep only those are meant that no other one of them is around. -/
inductive Breaks (config : Config) : Requirement ν → Violation → Prop
  | number {n : Int} {loc : ν} (hn : n < 0) (ha : config.allowNegative = false) :
    Breaks config (.number n loc) (.negativeFieldNumber n)
  | nesting {body : List (Member ν)} {loc : ν} :
    Breaks config (.nesting (config.maxDepth + 1) body loc) (.nestingTooDeep config.maxDepth)

/-- The same requirement with its notes changed. -/
def map (f : ν → μ) : Requirement ν → Requirement μ
  | number n loc => number n (f loc)
  | nesting level body loc => nesting level (body.map (Member.map f)) (f loc)

@[simp]
theorem loc_map (f : ν → μ) (r : Requirement ν) : (r.map f).loc = f r.loc := by cases r <;> rfl

@[simp]
theorem isNumber_map (f : ν → μ) (r : Requirement ν) : (r.map f).isNumber = r.isNumber := by
  cases r <;> rfl

/-- Whether it is met does not depend on the notes. -/
@[simp]
theorem met_map {config : Config} (f : ν → μ) (r : Requirement ν) :
    (r.map f).Met config ↔ r.Met config := by
  cases r <;> rfl

theorem Breaks.map {config : Config} {r : Requirement ν} {v : Violation} (h : r.Breaks config v)
    (f : ν → μ) : (r.map f).Breaks config v := by
  cases h with
  | number hn ha => exact .number hn ha
  | nesting => exact .nesting

end Requirement

/-! ## The requirements of a schema -/

/-- What a field requires: that its number is allowed. -/
def Field.requirement (f : Field ν) : Requirement ν := .number f.number f.loc

/-- What a header requires; only that of a group has a number. -/
def Header.requirements (loc : ν) : Header ν → List (Requirement ν)
  | group _ _ number _ => [.number number loc]
  | _ => []

mutual

/-- The requirements of a member that is in `level` bodies. -/
def Member.requirements (level : Nat) : Member ν → List (Requirement ν)
  | .field f => [f.requirement]
  | .mapField m => [.number m.number m.loc]
  | .oneOf o => o.fields.map Field.requirement
  | .block header body loc =>
    header.requirements loc ++ .nesting (level + 1) body loc ::
      Member.bodyRequirements (level + 1) body
  | _ => []

/-- The requirements of the members of a body that is in `level` bodies, itself included. -/
def Member.bodyRequirements (level : Nat) : List (Member ν) → List (Requirement ν)
  | [] => []
  | m :: ms => m.requirements level ++ Member.bodyRequirements level ms

end

/-- The requirements of a statement at the top, which is in no body. -/
def Directive.requirements : Directive ν → List (Requirement ν)
  | member m => m.requirements 0
  | _ => []

/-- The requirements of a schema, in the order of the text. -/
def Schema.requirements (s : Schema ν) : List (Requirement ν) :=
  s.directives.flatMap Directive.requirements

theorem Member.bodyRequirements_eq_flatMap (level : Nat) (ms : List (Member ν)) :
    Member.bodyRequirements level ms = ms.flatMap (Member.requirements level) := by
  induction ms with
  | nil => rfl
  | cons m ms ih => rw [Member.bodyRequirements, ih, List.flatMap_cons]

/-! ## Depth -/

mutual

/-- How many bodies are nested in each other. -/
def Member.depth : Member ν → Nat
  | .block _ body _ => Member.bodyDepth body + 1
  | _ => 0

/-- The largest depth of the members of a body. -/
def Member.bodyDepth : List (Member ν) → Nat
  | [] => 0
  | m :: ms => max m.depth (Member.bodyDepth ms)

end

/-- How many bodies are nested in each other in the statement. -/
def Directive.depth : Directive ν → Nat
  | member m => m.depth
  | _ => 0

/-- The largest number of bodies of blocks that are nested in each other. -/
def Schema.depth (s : Schema ν) : Nat := (s.directives.map Directive.depth).foldr max 0

/-- If it is about a body, the body is at most so deep. -/
def Requirement.Within (limit : Nat) : Requirement ν → Prop
  | number .. => True
  | nesting level _ _ => level ≤ limit

theorem Header.within {limit : Nat} {header : Header ν} {loc : ν} :
    ∀ r ∈ header.requirements loc, r.Within limit := by
  cases header <;> simp [Header.requirements, Requirement.Within]

mutual

/-- The bodies of a member are at most so deep if and only if its depth says so, counted from the
level that the member is at. -/
theorem Member.within_iff {level limit : Nat} (hle : level ≤ limit) :
    ∀ m : Member ν, (∀ r ∈ m.requirements level, r.Within limit) ↔ level + m.depth ≤ limit
  | .block header body loc => by
    rw [Member.requirements, List.forall_mem_append, List.forall_mem_cons, Member.depth,
      and_iff_right Header.within]
    show level + 1 ≤ limit ∧ _ ↔ _
    by_cases hlt : level + 1 ≤ limit
    · rw [and_iff_right hlt, Member.bodyWithin_iff hlt body, Nat.add_assoc, Nat.add_comm 1]
    · exact iff_of_false (fun h ↦ hlt h.1) (by omega)
  | .field _ | .mapField _ | .oneOf _ => by
    refine iff_of_true ?_ hle
    simp [Member.requirements, Field.requirement, Requirement.Within]
  | .enumType _ | .extensions _ | .reserved _ | .setting _ => iff_of_true nofun hle

theorem Member.bodyWithin_iff {level limit : Nat} (hle : level ≤ limit) :
    ∀ ms : List (Member ν),
      (∀ r ∈ Member.bodyRequirements level ms, r.Within limit) ↔ level + bodyDepth ms ≤ limit
  | [] => iff_of_true nofun hle
  | m :: ms => by
    rw [Member.bodyRequirements, List.forall_mem_append, Member.within_iff hle m,
      Member.bodyWithin_iff hle ms, Member.bodyDepth]
    omega

end

/-- Blocks are nested at most so deep if no body is deeper. -/
theorem Schema.depth_le_iff {limit : Nat} (s : Schema ν) :
    s.depth ≤ limit ↔ ∀ r ∈ s.requirements, r.Within limit := by
  rw [Schema.depth, Schema.requirements]
  induction s.directives with
  | nil => simp
  | cons d ds ih =>
    have hd : (∀ r ∈ d.requirements, r.Within limit) ↔ d.depth ≤ limit := by
      cases d with
      | member m =>
        rw [Directive.requirements, Member.within_iff (Nat.zero_le limit) m, Nat.zero_add]
        rfl
      | _ => exact iff_of_true nofun (Nat.zero_le limit)
    rw [List.map_cons, List.foldr_cons, Nat.max_le, ih, List.flatMap_cons, List.forall_mem_append,
      hd]

/-! ## Notes -/

theorem Header.requirements_map (f : ν → μ) (loc : ν) (h : Header ν) :
    (h.map f).requirements (f loc) = (h.requirements loc).map (Requirement.map f) := by
  cases h <;> rfl

mutual

theorem Member.requirements_map (f : ν → μ) (level : Nat) : ∀ m : Member ν,
    (m.map f).requirements level = (m.requirements level).map (Requirement.map f)
  | .block header body loc => by
    rw [Member.map, Member.requirements, Member.requirements, Header.requirements_map,
      Member.bodyRequirements_map f _ body, Member.mapAll_eq_map, List.map_append, List.map_cons]
    rfl
  | .oneOf o => by
    simp [Member.map, Member.requirements, OneOf.map, Field.map, Field.requirement,
      Requirement.map, Function.comp_def]
  | .field _ | .mapField _ | .enumType _ | .extensions _ | .reserved _ | .setting _ => rfl

theorem Member.bodyRequirements_map (f : ν → μ) (level : Nat) : ∀ ms : List (Member ν),
    Member.bodyRequirements level (Member.mapAll f ms) =
      (Member.bodyRequirements level ms).map (Requirement.map f)
  | [] => rfl
  | m :: ms => by
    simp [Member.mapAll, Member.bodyRequirements, Member.requirements_map f level m,
      Member.bodyRequirements_map f level ms]

end

/-- The requirements of a schema with other notes. -/
theorem Schema.requirements_map (f : ν → μ) (s : Schema ν) :
    (s.map f).requirements = s.requirements.map (Requirement.map f) := by
  have hd (d : Directive ν) : (d.map f).requirements = d.requirements.map (Requirement.map f) := by
    cases d with
    | member m => exact m.requirements_map f 0
    | _ => rfl
  rw [Schema.requirements, Schema.requirements, Schema.map, List.flatMap_map, List.map_flatMap]
  exact congrArg (List.flatMap · s.directives) (funext hd)

/-! ## Requirements and nodes -/

mutual

/-- The note of a requirement is that of a node. -/
theorem Member.exists_node_of_requirement {level : Nat} {r : Requirement ν} : ∀ {m : Member ν},
    r ∈ m.requirements level → ∃ n ∈ m.nodes, n.loc = r.loc
  | .field f, h | .mapField f, h => by
    rw [List.mem_singleton.mp h]
    exact ⟨_, Member.node_mem_nodes _, rfl⟩
  | .oneOf o, h => by
    obtain ⟨f, hf, rfl⟩ := List.mem_map.mp h
    refine ⟨f.node, List.mem_cons_of_mem _ (List.mem_append_right _ ?_), rfl⟩
    exact List.mem_flatMap.mpr ⟨f, hf, f.node_mem_nodes⟩
  | .block header body loc, h => by
    rcases List.mem_append.mp h with h | h
    · refine ⟨_, Member.node_mem_nodes _, ?_⟩
      cases header with
      | group => rw [List.mem_singleton.mp h]; rfl
      | message | extend => cases h
    · rcases List.mem_cons.mp h with rfl | h
      · exact ⟨_, Member.node_mem_nodes _, rfl⟩
      · obtain ⟨n, hn, hloc⟩ := Member.exists_node_of_bodyRequirement h
        exact ⟨n, List.mem_cons_of_mem _ (List.mem_append_right _ hn), hloc⟩

theorem Member.exists_node_of_bodyRequirement {level : Nat} {r : Requirement ν} :
    ∀ {ms : List (Member ν)}, r ∈ Member.bodyRequirements level ms →
      ∃ n ∈ Member.bodyNodes ms, n.loc = r.loc
  | m :: ms, h => by
    rcases List.mem_append.mp h with h | h
    · obtain ⟨n, hn, hloc⟩ := Member.exists_node_of_requirement h
      exact ⟨n, List.mem_append_left _ hn, hloc⟩
    · obtain ⟨n, hn, hloc⟩ := Member.exists_node_of_bodyRequirement h
      exact ⟨n, List.mem_append_right _ hn, hloc⟩

end

/-- The note of a requirement is that of a node of the schema. -/
theorem Schema.exists_node_of_requirement {s : Schema ν} {r : Requirement ν}
    (h : r ∈ s.requirements) : ∃ n ∈ s.nodes, n.loc = r.loc := by
  obtain ⟨d, hd, hr⟩ := List.mem_flatMap.mp h
  cases d with
  | member m =>
    obtain ⟨n, hn, hloc⟩ := m.exists_node_of_requirement hr
    exact ⟨n, List.mem_append_right _ (List.mem_flatMap.mpr ⟨_, hd, hn⟩), hloc⟩
  | importFile | package | service => cases hr

end ProtoSchema
