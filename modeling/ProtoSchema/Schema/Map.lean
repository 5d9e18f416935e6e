import ProtoSchema.Schema.Basic

/-!
# Changing the notes of a schema

`Schema.map f` applies `f` to the note of every node and leaves the rest of the tree as it is.
There is one such map for each type of node, and each calls the maps of its parts, so that a tree is
walked once whatever `f` is.

## What is here

* `FullName.map` to `EnumType.map` — the maps of names, values and single statements.
* `Member.map` and `Member.mapAll` — the map of a member and of the members of a body, by mutual
  recursion, because `Member` is nested in `List`.  `Member.mapAll_eq_map` says that the second is
  `List.map` of the first, and everything behind this file uses it in that form.
* `Rpc.map` to `Schema.map` — the maps of services, statements at the top and whole files.
* `Schema.erase` — the map that leaves no notes.  It is what "the same schema" means everywhere: two
  trees that were read from different texts have different places and may still be equal when
  erased.

That the maps compose and that erasing does not see an earlier map is proved in
`Proofs/Schema/Notes.lean`, and that no map changes what is printed, in
`Proofs/Print/RoundTrip.lean`.
-/

set_option autoImplicit false

namespace ProtoSchema

variable {ν μ : Type}

/-- The name with its note changed. -/
def FullName.map (f : ν → μ) (n : FullName ν) : FullName μ := ⟨n.text, f n.loc⟩

/-- The name of an option with its note changed. -/
def OptionName.map (f : ν → μ) (n : OptionName ν) : OptionName μ := ⟨n.text, f n.loc⟩

/-- The reference to a type with its note changed. -/
def TypeRef.map (f : ν → μ) (t : TypeRef ν) : TypeRef μ := ⟨t.text, f t.loc⟩

/-- The value with its notes changed; a name has its own note and no other. -/
def Constant.map (f : ν → μ) : Constant ν → Constant μ
  | .name n => .name (n.map f)
  | .literal value loc => .literal value (f loc)

/-- The option with its notes changed, those of its name and its value included. -/
def Setting.map (f : ν → μ) (s : Setting ν) : Setting μ :=
  ⟨s.name.map f, s.value.map f, f s.loc⟩

/-- The field with its notes changed, those of its type and its options included. -/
def Field.map (f : ν → μ) (x : Field ν) : Field μ where
  label? := x.label?
  type? := x.type?.map (TypeRef.map f)
  name := x.name
  number := x.number
  options := x.options.map (Setting.map f)
  loc := f x.loc

/-- The map field with its notes changed.  The type of the keys is a word and has no note. -/
def MapField.map (f : ν → μ) (x : MapField ν) : MapField μ where
  keyType := x.keyType
  valueType := x.valueType.map f
  name := x.name
  number := x.number
  options := x.options.map (Setting.map f)
  loc := f x.loc

/-- The choice with its notes changed, those of its options and fields included. -/
def OneOf.map (f : ν → μ) (x : OneOf ν) : OneOf μ where
  name := x.name
  options := x.options.map (Setting.map f)
  fields := x.fields.map (Field.map f)
  loc := f x.loc

/-- The statement with its notes changed; ranges have none. -/
def Extensions.map (f : ν → μ) (x : Extensions ν) : Extensions μ where
  ranges := x.ranges
  options := x.options.map (Setting.map f)
  loc := f x.loc

/-- The statement with its note changed; what it lists has none. -/
def Reserved.map (f : ν → μ) (x : Reserved ν) : Reserved μ := ⟨x.items, f x.loc⟩

/-- The enum with its notes changed, those of all that stands in its body included. -/
def EnumType.map (f : ν → μ) (x : EnumType ν) : EnumType μ where
  name := x.name
  options := x.options.map (Setting.map f)
  values := x.values.map (Field.map f)
  reserved := x.reserved.map (Reserved.map f)
  loc := f x.loc

/-- The header with the notes of its parts changed.  It has none of its own: the note of a block is
with the block. -/
def Header.map (f : ν → μ) : Header ν → Header μ
  | .message name => .message name
  | .group label name number options => .group label name number (options.map (Setting.map f))
  | .extend extendee => .extend (extendee.map f)

mutual

/-- The member with its notes changed, at any depth. -/
def Member.map (f : ν → μ) : Member ν → Member μ
  | .field x => .field (x.map f)
  | .mapField x => .mapField (x.map f)
  | .oneOf x => .oneOf (x.map f)
  | .enumType x => .enumType (x.map f)
  | .extensions x => .extensions (x.map f)
  | .reserved x => .reserved (x.map f)
  | .setting x => .setting (x.map f)
  | .block header body loc => .block (header.map f) (Member.mapAll f body) (f loc)

/-- The members of a body, each with its notes changed. -/
def Member.mapAll (f : ν → μ) : List (Member ν) → List (Member μ)
  | [] => []
  | m :: ms => m.map f :: Member.mapAll f ms

end

/-- A body is mapped member by member. -/
theorem Member.mapAll_eq_map (f : ν → μ) (ms : List (Member ν)) :
    Member.mapAll f ms = ms.map (Member.map f) := by
  induction ms with
  | nil => simp [Member.mapAll]
  | cons m ms ih => simp [Member.mapAll, ih]

/-- The import with its note changed. -/
def Import.map (f : ν → μ) (x : Import ν) : Import μ := ⟨x.file, x.modifier?, f x.loc⟩

/-- The statement with its note and that of the name changed. -/
def Package.map (f : ν → μ) (x : Package ν) : Package μ := ⟨x.name.map f, f x.loc⟩

/-- The call with its notes changed, those of its two types and its options included. -/
def Rpc.map (f : ν → μ) (x : Rpc ν) : Rpc μ where
  name := x.name
  inputStream := x.inputStream
  input := x.input.map f
  outputStream := x.outputStream
  output := x.output.map f
  options := x.options.map (Setting.map f)
  loc := f x.loc

/-- What stands in a service, with its notes changed. -/
def ServiceItem.map (f : ν → μ) : ServiceItem ν → ServiceItem μ
  | .setting s => .setting (s.map f)
  | .rpc r => .rpc (r.map f)

/-- The service with its notes changed, those of its calls included. -/
def Service.map (f : ν → μ) (x : Service ν) : Service μ :=
  ⟨x.name, x.items.map (ServiceItem.map f), f x.loc⟩

/-- The statement with its notes changed, whatever it is. -/
def Directive.map (f : ν → μ) : Directive ν → Directive μ
  | .importFile i => .importFile (i.map f)
  | .package p => .package (p.map f)
  | .service s => .service (s.map f)
  | .member m => .member (m.map f)

/-- The statement that names the version, with its note changed. -/
def VersionStatement.map (f : ν → μ) (x : VersionStatement ν) : VersionStatement μ :=
  ⟨x.version, f x.loc⟩

/-- The schema with the note of every node changed. -/
def Schema.map (f : ν → μ) (s : Schema ν) : Schema μ where
  version? := s.version?.map (VersionStatement.map f)
  directives := s.directives.map (Directive.map f)

/-- The schema without its notes. -/
def Schema.erase (s : Schema ν) : Schema Unit := s.map fun _ => ()

end ProtoSchema
