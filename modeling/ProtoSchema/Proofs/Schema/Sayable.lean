import ProtoSchema.Proofs.Schema.WellFormed

/-!
# Statements that can be said

A statement that was made by hand has a text, whatever it is made of, but the text need not be read
as that statement: a name may hold a blank, a string both sorts of quotes, and a type may begin with
a word that is read as a keyword.  What keeps such a statement from being said is listed here.  A
statement is `Sayable` if none of it is so.

Most of it is what `WellFormed` asks of a node.  Beyond that, numbers have to be those of their
sort, which the types of the numbers leave open, and a type must not begin with a word that means
something else in front of a field.

## What is here

* `contextualWords` — the words that a type cannot begin with: those that begin a statement
  somewhere in a file, the labels, and `group`, `syntax` and `stream` besides.  It is one list for
  all places, although not every word of it means something else in every one of them.
* `TypeRef.Sayable` — a type that begins with none of them.
* `Literal.Sayable`, `Constant.Sayable`, `Setting.Sayable` — values and options.  Any float can be
  said, infinities and the NaN included, and so can an integer of 64 bits with either sign.
* `Numbered.Sayable` — a declared name with its number and options, for all that have them.
* `Field.Sayable` to `Rpc.Sayable`, and `Member.Sayable` for those that stand in a message.

The converse direction, that nothing else is needed, is `Statement.parse_printed` in
`Proofs/Print/Handmade.lean`.
-/

set_option autoImplicit false

namespace ProtoSchema

open Grammar

variable {ν : Type}

/-! ## Names and values -/

/-- The words that mean something else in some of the places where a type can stand. -/
def contextualWords : List String :=
  ["import", "package", "option", "message", "enum", "extend", "service", "extensions", "oneof",
    "reserved", "map", "required", "optional", "repeated", "group", "rpc", "syntax", "stream"]

/-- One of the words of the scalar types, or `a.b.c` or `.a.b.c`, where `a` means nothing else. -/
inductive TypeRef.IsPlain : String → Prop
  | primitive {word : String} (hword : word ∈ primitiveWords) : IsPlain word
  | named {root first name : String} (hroot : IsRoot root) (hfirst : IsWord first)
    (hprimitive : first ∉ primitiveWords) (hcontextual : first ∉ contextualWords)
    (hname : IsDotted first name) : IsPlain (root ++ name)

/-- A type that means the same wherever it stands. -/
def TypeRef.Sayable (t : TypeRef ν) : Prop := IsPlain t.text

/-- A literal that can be written: a string needs quotes that it does not hold, and an integer 64
bits. -/
def Literal.Sayable : Literal → Prop
  | .text content => Quotable content
  | .integer _ n => n < Numeral.integerLimit
  | .float _ | .bool _ => True

/-- A value that can be written and is read as what it is. -/
def Constant.Sayable : Constant ν → Prop
  | .name n => (Constant.name n).WellFormed
  | .literal value _ => value.Sayable

/-! ## Options and numbers -/

/-- An option of which both the name and the value can be said. -/
structure Setting.Sayable (x : Setting ν) : Prop where
  name : x.name.WellFormed
  value : x.value.Sayable

/-- What stands behind a declared name: a number of 64 bits and options. -/
structure Numbered.Sayable (name : String) (number : Int) (options : List (Setting ν)) : Prop where
  name : IsWord name
  number : fitsInteger number
  options : ∀ o ∈ options, o.Sayable

/-- A range between integers of 64 bits; it need not hold any number. -/
def NumberRange.Sayable : NumberRange → Prop
  | .single n => fitsInteger n
  | .span low .max => fitsInteger low
  | .span low (.number high) => fitsInteger low ∧ fitsInteger high

/-! ## Statements -/

/-- A field of a message, which has a type. -/
structure Field.Sayable (x : Field ν) : Prop where
  type : ∃ t ∈ x.type?, t.Sayable
  numbered : Numbered.Sayable x.name x.number x.options

/-- A map field, whose keys have a scalar type. -/
structure MapField.Sayable (x : MapField ν) : Prop where
  keyType : x.keyType ∈ primitiveWords
  valueType : x.valueType.Sayable
  numbered : Numbered.Sayable x.name x.number x.options

/-- A statement that gives numbers away, one at least. -/
structure Extensions.Sayable (x : Extensions ν) : Prop where
  nonempty : x.ranges ≠ []
  ranges : ∀ r ∈ x.ranges, r.Sayable
  options : ∀ o ∈ x.options, o.Sayable

/-- What is reserved: one number or name at least. -/
def ReservedItems.Sayable : ReservedItems → Prop
  | .ranges xs => xs ≠ [] ∧ ∀ r ∈ xs, r.Sayable
  | .names xs => xs ≠ [] ∧ ∀ name ∈ xs, Quotable name

/-- A call. -/
structure Rpc.Sayable (x : Rpc ν) : Prop where
  name : IsWord x.name
  input : x.input.Sayable
  output : x.output.Sayable
  options : ∀ o ∈ x.options, o.Sayable

/-- The statements of a message that hold no others. -/
inductive Member.Sayable : Member ν → Prop
  | field {x : Field ν} (h : x.Sayable) : Sayable (.field x)
  | mapField {x : MapField ν} (h : x.Sayable) : Sayable (.mapField x)
  | setting {x : Setting ν} (h : x.Sayable) : Sayable (.setting x)
  | extensions {x : Extensions ν} (h : x.Sayable) : Sayable (.extensions x)
  | reserved {x : Reserved ν} (h : x.items.Sayable) : Sayable (.reserved x)

end ProtoSchema
