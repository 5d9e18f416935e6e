import ProtoSchema.Print.Printer

/-!
# The nodes of a schema

`Node` is any part of a schema that has a note of its own, and `Schema.nodes` lists the nodes of a
schema, each in front of its parts and the parts in the order in which they are printed.  Statements
print as lines; names, type references and values print as bare text.

A theorem about "every node of a tree" is about `Schema.nodes`, so this list is what such a theorem
can be trusted to cover.  It is written by hand, one function for each type of node, and not
derived from `Node.parts`, so that the two can be checked against each other: see `Schema.hasParts`
in `Proofs/Schema/Parts.lean`.

## What is here

* `Node` — a node with its type forgotten, down to the literal inside a value.  A literal and the
  value that it is are two nodes with one note.
* `Node.loc`, `Node.print` — the note and the text of a node.
* `Node.sort` — the word that says what sort of statement a node is.  The sorts of members are finer
  than the constructors of `Member`: a block is a message, a group or an extension.
* `Schema.nodes` and the functions that it is made from.  `Member.nodes` and `Member.bodyNodes` are
  mutually recursive; `Member.bodyNodes_eq_flatMap` turns the second into a `List.flatMap`.
-/

set_option autoImplicit false

namespace ProtoSchema

/-- A part of a schema that has a note of its own. -/
inductive Node (ν : Type) where
  | version (v : VersionStatement ν)
  | importFile (i : Import ν)
  | package (p : Package ν)
  | service (s : Service ν)
  | rpc (r : Rpc ν)
  | member (m : Member ν)
  | fullName (n : FullName ν)
  | optionName (n : OptionName ν)
  | typeRef (t : TypeRef ν)
  | constant (c : Constant ν)
  | literal (value : Literal) (loc : ν)

variable {ν : Type}

namespace Node

/-- The note of the node. -/
def loc : Node ν → ν
  | version v => v.loc
  | importFile i => i.loc
  | package p => p.loc
  | service s => s.loc
  | rpc r => r.loc
  | member m => m.loc
  | fullName n => n.loc
  | optionName n => n.loc
  | typeRef t => t.loc
  | constant c => c.loc
  | literal _ loc => loc

/-- Prints a statement as lines, and any other node as the text that it is. -/
def printTo : Node ν → Printer → Printer
  | version v => v.printTo
  | importFile i => i.printTo
  | package p => p.printTo
  | service s => s.printTo
  | rpc r => r.printTo
  | member m => m.printTo
  | fullName n => .write n.text
  | optionName n => .write n.text
  | typeRef t => .write t.text
  | constant c => .write c.print
  | literal value _ => .write value.print

/-- The text of the node alone. -/
def print (n : Node ν) : String := (n.printTo .empty).out

end Node

/-! ## What sort of statement it is -/

/-- The word for a block with this header. -/
def Header.sort : Header ν → String
  | .message _ => "message"
  | .group .. => "group"
  | .extend _ => "extend"

/-- The word for a member. -/
def Member.sort : Member ν → String
  | .field _ => "field"
  | .mapField _ => "map"
  | .oneOf _ => "oneof"
  | .enumType _ => "enum"
  | .extensions _ => "extensions"
  | .reserved _ => "reserved"
  | .setting _ => "option"
  | .block header _ _ => header.sort

/-- The word for a statement at the top of a file; a member has the same word there as in a body. -/
def Directive.sort : Directive ν → String
  | .importFile _ => "import"
  | .package _ => "package"
  | .service _ => "service"
  | .member m => m.sort

/-- The word for a node. -/
def Node.sort : Node ν → String
  | .version _ => "syntax"
  | .importFile _ => "import"
  | .package _ => "package"
  | .service _ => "service"
  | .rpc _ => "rpc"
  | .member m => m.sort
  | .fullName _ => "full_identifier"
  | .optionName _ => "option_name"
  | .typeRef _ => "type"
  | .constant _ => "constant"
  | .literal .. => "literal"

/-! ## All nodes -/

/-- The nodes of a value: the value itself, and the name or the literal that it is. -/
def Constant.nodes (c : Constant ν) : List (Node ν) :=
  .constant c :: match c with
    | .name n => [.fullName n]
    | .literal value loc => [.literal value loc]

/-- The nodes of an option: the statement, its name and its value. -/
def Setting.nodes (s : Setting ν) : List (Node ν) :=
  .member (.setting s) :: .optionName s.name :: s.value.nodes

/-- The nodes of a field: the statement, its type if it has one, and its options. -/
def Field.nodes (f : Field ν) : List (Node ν) :=
  .member (.field f) :: f.type?.toList.map .typeRef ++ f.options.flatMap Setting.nodes

/-- The nodes of a map field.  The type of the keys is a word and no node. -/
def MapField.nodes (m : MapField ν) : List (Node ν) :=
  .member (.mapField m) :: .typeRef m.valueType :: m.options.flatMap Setting.nodes

/-- The nodes of a choice, options in front of fields. -/
def OneOf.nodes (o : OneOf ν) : List (Node ν) :=
  .member (.oneOf o) :: o.options.flatMap Setting.nodes ++ o.fields.flatMap Field.nodes

/-- The nodes of a statement that gives numbers away; ranges are no nodes. -/
def Extensions.nodes (e : Extensions ν) : List (Node ν) :=
  .member (.extensions e) :: e.options.flatMap Setting.nodes

/-- The only node of such a statement is the statement itself. -/
def Reserved.nodes (r : Reserved ν) : List (Node ν) := [.member (.reserved r)]

/-- The nodes of an enum: options, values and what is reserved, in the order of printing. -/
def EnumType.nodes (e : EnumType ν) : List (Node ν) :=
  .member (.enumType e) :: e.options.flatMap Setting.nodes ++ e.values.flatMap Field.nodes ++
    e.reserved.flatMap Reserved.nodes

/-- The nodes of what stands in front of a body. -/
def Header.nodes : Header ν → List (Node ν)
  | .message _ => []
  | .group _ _ _ options => options.flatMap Setting.nodes
  | .extend extendee => [.typeRef extendee]

mutual

/-- The nodes of a member, at any depth. -/
def Member.nodes : Member ν → List (Node ν)
  | .field f => f.nodes
  | .mapField m => m.nodes
  | .oneOf o => o.nodes
  | .enumType e => e.nodes
  | .extensions e => e.nodes
  | .reserved r => r.nodes
  | .setting s => s.nodes
  | .block header body loc =>
    .member (.block header body loc) :: header.nodes ++ Member.bodyNodes body

/-- The nodes of the members of a body. -/
def Member.bodyNodes : List (Member ν) → List (Node ν)
  | [] => []
  | m :: ms => m.nodes ++ Member.bodyNodes ms

end

/-- The nodes of a body are those of its members, one member after another. -/
theorem Member.bodyNodes_eq_flatMap (ms : List (Member ν)) :
    Member.bodyNodes ms = ms.flatMap Member.nodes := by
  induction ms with
  | nil => simp [Member.bodyNodes]
  | cons m ms ih => simp [Member.bodyNodes, ih]

/-- The nodes of a call: the statement, its two types and its options. -/
def Rpc.nodes (r : Rpc ν) : List (Node ν) :=
  .rpc r :: .typeRef r.input :: .typeRef r.output :: r.options.flatMap Setting.nodes

/-- The nodes of what stands in a service. -/
def ServiceItem.nodes : ServiceItem ν → List (Node ν)
  | .setting s => s.nodes
  | .rpc r => r.nodes

/-- The nodes of a service: the statement and what stands in its body. -/
def Service.nodes (s : Service ν) : List (Node ν) :=
  .service s :: s.items.flatMap ServiceItem.nodes

/-- The nodes of a statement at the top of a file. -/
def Directive.nodes : Directive ν → List (Node ν)
  | .importFile i => [.importFile i]
  | .package p => [.package p, .fullName p.name]
  | .service s => s.nodes
  | .member m => m.nodes

/-- All nodes of a schema, each in front of its parts. -/
def Schema.nodes (s : Schema ν) : List (Node ν) :=
  s.version?.toList.map .version ++ s.directives.flatMap Directive.nodes

end ProtoSchema
