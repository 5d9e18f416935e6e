import ProtoSchema.Number.Binary64
import ProtoSchema.Token.Basic

/-!
# Schemas

The tree of a schema file.  Every node of it has a note of type `ν` in its field `loc`, which says
where the node stands: a tree that was read from text has places there, and a tree made by hand has
nothing.  `Schema.map` changes the notes and nothing else, and two trees are the same schema if they
agree when their notes are erased.

The members of a message body are of two sorts.  Most are single statements.  A message, a group or
an extension is a *block*: a header and a body of further members, and these are the only places
where the tree recurses.

A schema is what was written, not what it means: names are not resolved, numbers may repeat, and the
text of a string literal is kept with its escapes.

## What is here

* `Version`, `Label`, `ImportModifier` — the words of the language that are data, each with the word
  that it is written as and, where it is read by its word, the way back.
* `FullName`, `OptionName`, `TypeRef` — names.  Each keeps its text with its dots and parentheses;
  `TypeRef.isPrimitive` and `TypeRef.isRooted` read off the text what it refers to.
* `Literal` and `Constant` — the values of options.  A sign belongs to the literal, so zero can be
  negative, and a name is a value that is looked up later.
* `Setting` — an option, as a statement of its own or in the brackets behind a field.
* `Field`, `MapField`, `OneOf`, `Extensions`, `Reserved`, `EnumType` — the statements of a body that
  have no body of members themselves.  The value of an enum is a `Field` without type.
* `Header` and `Member` — the statements of a body as one type, blocks among them.
* `Import`, `Package`, `Rpc`, `Service`, `Directive`, `Schema` — the file around them.

## What the types leave open

The tree does not say which members may stand in which body, that a field of a message has a type,
that a map has a scalar type as its key, or that numbers are not negative.  What of this holds of
every tree that is read is `Node.WellFormed` in `Proofs/Schema/WellFormed.lean`, and what has to
hold of a tree made by hand for its text to be read back is in `Proofs/Schema/Sayable.lean`.

`Member` and what is built from it have no decidable equality: the type is nested in `List`.
-/

set_option autoImplicit false

namespace ProtoSchema

/-! ## Words -/

/-- The version of the schema language. -/
inductive Version where
  | proto2
  | proto3
  deriving DecidableEq, Repr

namespace Version

/-- How the version is written in the statement that names it. -/
def text : Version → String
  | proto2 => "proto2"
  | proto3 => "proto3"

/-- The version that a text names; there is none for any other text. -/
def ofText? (text : String) : Option Version :=
  if text = "proto2" then some proto2
  else if text = "proto3" then some proto3
  else none

end Version

/-- How often a field may be present. -/
inductive Label where
  | required
  | optional
  | repeated
  deriving DecidableEq, Repr

namespace Label

/-- The word in front of a field that says how often it may be present. -/
def word : Label → String
  | required => "required"
  | optional => "optional"
  | repeated => "repeated"

/-- The label that a word is, if it is one. -/
def ofWord? (word : String) : Option Label :=
  if word = "required" then some required
  else if word = "optional" then some optional
  else if word = "repeated" then some repeated
  else none

end Label

/-- What else an import says than that a file is needed. -/
inductive ImportModifier where
  /-- The file may be missing. -/
  | weak
  /-- Who imports this file gets that one too. -/
  | transitive
  deriving DecidableEq, Repr

/-- The word between `import` and the file. -/
def ImportModifier.word : ImportModifier → String
  | weak => "weak"
  | transitive => "public"

/-! ## Names and values -/

/-- Names joined by dots. -/
structure FullName (ν : Type) where
  text : String
  loc : ν
  deriving DecidableEq, Repr

/-- The name of an option: `deprecated`, `(my.ext)` or `(my.ext).field`. -/
structure OptionName (ν : Type) where
  text : String
  loc : ν
  deriving DecidableEq, Repr

/-- The word of a scalar type, or names joined by dots, with another dot in front if the reference
starts at the root of all names. -/
structure TypeRef (ν : Type) where
  text : String
  loc : ν
  deriving DecidableEq, Repr

namespace TypeRef

variable {ν : Type}

/-- Whether the reference is the word of a scalar type. -/
def isPrimitive (t : TypeRef ν) : Bool := isPrimitiveWord t.text

/-- Whether the reference starts at the root of all names. -/
def isRooted (t : TypeRef ν) : Bool := t.text.toList.head? == some '.'

end TypeRef

/-- A literal value of an option. -/
inductive Literal where
  /-- The text between the quotes, escapes as they stand there. -/
  | text (content : String)
  | integer (negative : Bool) (magnitude : Nat)
  | float (x : Binary64)
  | bool (value : Bool)
  deriving DecidableEq, Repr

/-- The value of an option. -/
inductive Constant (ν : Type) where
  | name (name : FullName ν)
  | literal (value : Literal) (loc : ν)
  deriving DecidableEq, Repr

/-- The note of the value; that of a name is the note of the name. -/
def Constant.loc {ν : Type} : Constant ν → ν
  | name n => n.loc
  | literal _ loc => loc

/-- An option statement, or an entry of a bracketed list of options. -/
structure Setting (ν : Type) where
  name : OptionName ν
  value : Constant ν
  loc : ν
  deriving DecidableEq, Repr

/-! ## Statements -/

/-- The end of a range of numbers. -/
inductive RangeEnd where
  | number (n : Int)
  | max
  deriving DecidableEq, Repr

/-- A number, or all numbers from one to another. -/
inductive NumberRange where
  | single (n : Int)
  | span (low : Int) (high : RangeEnd)
  deriving DecidableEq, Repr

/-- A field of a message, or a value of an enum, which has neither label nor type. -/
structure Field (ν : Type) where
  label? : Option Label
  type? : Option (TypeRef ν)
  name : String
  number : Int
  options : List (Setting ν)
  loc : ν
  deriving DecidableEq, Repr

/-- A field that holds a map.  It has no label, since it is repeated by nature. -/
structure MapField (ν : Type) where
  /-- The word of a scalar type. -/
  keyType : String
  valueType : TypeRef ν
  name : String
  number : Int
  options : List (Setting ν)
  loc : ν
  deriving DecidableEq, Repr

/-- Fields of which at most one is present. -/
structure OneOf (ν : Type) where
  name : String
  options : List (Setting ν)
  fields : List (Field ν)
  loc : ν
  deriving DecidableEq, Repr

/-- Numbers that other files may use for fields of their own. -/
structure Extensions (ν : Type) where
  ranges : List NumberRange
  options : List (Setting ν)
  loc : ν
  deriving DecidableEq, Repr

/-- What a `reserved` statement lists: numbers or names, never both. -/
inductive ReservedItems where
  | ranges (ranges : List NumberRange)
  | names (names : List String)
  deriving DecidableEq, Repr

/-- Numbers or names that must not be used again. -/
structure Reserved (ν : Type) where
  items : ReservedItems
  loc : ν
  deriving DecidableEq, Repr

/-- An enum: its values, and between them what must not become a value again. -/
structure EnumType (ν : Type) where
  name : String
  options : List (Setting ν)
  values : List (Field ν)
  reserved : List (Reserved ν)
  loc : ν
  deriving DecidableEq, Repr

/-! ## Members -/

/-- What stands in front of the body of a block. -/
inductive Header (ν : Type) where
  | message (name : String)
  /-- A field and the message that is its type, declared together. -/
  | group (label : Label) (name : String) (number : Int) (options : List (Setting ν))
  /-- Further fields of a message that is declared elsewhere. -/
  | extend (extendee : TypeRef ν)
  deriving DecidableEq, Repr

/-- A member of a message body.  In the body of an extension only fields and groups stand. -/
inductive Member (ν : Type) where
  | field (f : Field ν)
  | mapField (m : MapField ν)
  | oneOf (o : OneOf ν)
  | enumType (e : EnumType ν)
  | extensions (e : Extensions ν)
  | reserved (r : Reserved ν)
  | setting (s : Setting ν)
  | block (header : Header ν) (body : List (Member ν)) (loc : ν)

/-- The note of the statement. -/
def Member.loc {ν : Type} : Member ν → ν
  | field f => f.loc
  | mapField m => m.loc
  | oneOf o => o.loc
  | enumType e => e.loc
  | extensions e => e.loc
  | reserved r => r.loc
  | setting s => s.loc
  | block _ _ loc => loc

/-! ## Files -/

/-- A statement that another file is needed. -/
structure Import (ν : Type) where
  file : String
  modifier? : Option ImportModifier
  loc : ν
  deriving DecidableEq, Repr

/-- The statement that names the package of the file. -/
structure Package (ν : Type) where
  name : FullName ν
  loc : ν
  deriving DecidableEq, Repr

/-- A call of a service.  Either end of it may be a stream of messages instead of one. -/
structure Rpc (ν : Type) where
  name : String
  inputStream : Bool
  input : TypeRef ν
  outputStream : Bool
  output : TypeRef ν
  options : List (Setting ν)
  loc : ν
  deriving DecidableEq, Repr

/-- What stands in the body of a service. -/
inductive ServiceItem (ν : Type) where
  | setting (s : Setting ν)
  | rpc (r : Rpc ν)
  deriving DecidableEq, Repr

/-- A service and its calls. -/
structure Service (ν : Type) where
  name : String
  items : List (ServiceItem ν)
  loc : ν
  deriving DecidableEq, Repr

/-- A statement at the top of a file.  Of the members only options, enums, messages and extensions
stand there. -/
inductive Directive (ν : Type) where
  | importFile (i : Import ν)
  | package (p : Package ν)
  | service (s : Service ν)
  | member (m : Member ν)

/-- The note of the statement. -/
def Directive.loc {ν : Type} : Directive ν → ν
  | importFile i => i.loc
  | package p => p.loc
  | service s => s.loc
  | member m => m.loc

/-- The statement that names the version. -/
structure VersionStatement (ν : Type) where
  version : Version
  loc : ν
  deriving DecidableEq, Repr

/-- A schema file. -/
structure Schema (ν : Type) where
  version? : Option (VersionStatement ν)
  directives : List (Directive ν)

/-- The version of the schema language; a file that does not say is of the older one. -/
def Schema.version {ν : Type} (s : Schema ν) : Version :=
  (s.version?.map VersionStatement.version).getD .proto2

end ProtoSchema
