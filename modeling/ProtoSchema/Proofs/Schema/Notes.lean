import ProtoSchema.Schema.Map

/-!
# Changing notes twice

Changing the notes of a tree and changing them again comes to one change.  The lemmas follow the
tree from the leaves to the file, one for each type of node, and most of them are definitional or a
single call of `simp` with the lemmas of the parts.

## What is here

* `OptionName.map_map` to `Header.map_map` — names, values, and statements without members.  Where a
  type stands in lists only, the lemma is stated of the composition of the two maps, which is the
  form in which `List.map_map` leaves it: see `Setting.map_comp_map`.
* `Member.map_map` and `Member.mapAll_mapAll` — the mutual recursion.
* `Schema.map_map` — the file.
* `Schema.erase_map` — what all of this is for.  A document keeps a schema whose notes are places,
  and the grammar makes one whose notes are extents.  Erasing either gives the same tree, so what is
  proved of the one holds of the other.
-/

set_option autoImplicit false

namespace ProtoSchema

variable {ν μ ξ : Type} (f : ν → μ) (g : μ → ξ)

theorem OptionName.map_map (x : OptionName ν) : (x.map f).map g = x.map (g ∘ f) := rfl

theorem TypeRef.map_map (x : TypeRef ν) : (x.map f).map g = x.map (g ∘ f) := rfl

theorem Constant.map_map (x : Constant ν) : (x.map f).map g = x.map (g ∘ f) := by
  cases x <;> rfl

@[simp]
theorem Setting.map_comp_map : Setting.map g ∘ Setting.map f = Setting.map (g ∘ f) := by
  funext x
  simp [Setting.map, OptionName.map_map, Constant.map_map]

@[simp]
theorem TypeRef.map_comp_map : TypeRef.map g ∘ TypeRef.map f = TypeRef.map (g ∘ f) := rfl

@[simp]
theorem Field.map_comp_map : Field.map g ∘ Field.map f = Field.map (g ∘ f) := by
  funext x
  simp [Field.map]

@[simp]
theorem Reserved.map_comp_map : Reserved.map g ∘ Reserved.map f = Reserved.map (g ∘ f) := rfl

theorem OneOf.map_map (x : OneOf ν) : (x.map f).map g = x.map (g ∘ f) := by simp [OneOf.map]

theorem EnumType.map_map (x : EnumType ν) : (x.map f).map g = x.map (g ∘ f) := by
  simp [EnumType.map]

theorem MapField.map_map (x : MapField ν) : (x.map f).map g = x.map (g ∘ f) := by
  simp [MapField.map, TypeRef.map_map]

theorem Extensions.map_map (x : Extensions ν) : (x.map f).map g = x.map (g ∘ f) := by
  simp [Extensions.map]

theorem Header.map_map (x : Header ν) : (x.map f).map g = x.map (g ∘ f) := by
  cases x <;> simp [Header.map, TypeRef.map_map]

mutual

/-- Changing the notes of a member twice, at any depth; by recursion on the member. -/
theorem Member.map_map : ∀ x : Member ν, (x.map f).map g = x.map (g ∘ f)
  | .field x => congrArg Member.field (congrFun (Field.map_comp_map f g) x)
  | .mapField x => congrArg Member.mapField (x.map_map f g)
  | .oneOf x => congrArg Member.oneOf (x.map_map f g)
  | .enumType x => congrArg Member.enumType (x.map_map f g)
  | .extensions x => congrArg Member.extensions (x.map_map f g)
  | .reserved _ => rfl
  | .setting x => congrArg Member.setting (congrFun (Setting.map_comp_map f g) x)
  | .block header body loc => by
    simp [Member.map, Header.map_map, Member.mapAll_mapAll body]

theorem Member.mapAll_mapAll : ∀ xs : List (Member ν),
    Member.mapAll g (Member.mapAll f xs) = Member.mapAll (g ∘ f) xs
  | [] => rfl
  | x :: xs => by simp [Member.mapAll, Member.map_map x, Member.mapAll_mapAll xs]

end

@[simp]
theorem ServiceItem.map_comp_map :
    ServiceItem.map g ∘ ServiceItem.map f = ServiceItem.map (g ∘ f) := by
  funext x
  cases x with
  | setting s => exact congrArg ServiceItem.setting (congrFun (Setting.map_comp_map f g) s)
  | rpc r => simp [ServiceItem.map, Rpc.map, TypeRef.map_map]

@[simp]
theorem Directive.map_comp_map : Directive.map g ∘ Directive.map f = Directive.map (g ∘ f) := by
  funext x
  cases x with
  | importFile | package => rfl
  | service s => simp [Directive.map, Service.map]
  | member m => exact congrArg Directive.member (m.map_map f g)

/-- Changing the notes of a schema twice comes to one change. -/
theorem Schema.map_map (x : Schema ν) : (x.map f).map g = x.map (g ∘ f) := by
  cases hv : x.version? <;> simp [Schema.map, hv, VersionStatement.map]

/-- What the notes were does not matter once they are erased. -/
theorem Schema.erase_map (x : Schema ν) : (x.map f).erase = x.erase := x.map_map f _

end ProtoSchema
