import ProtoSchema.Parse.Document
import ProtoSchema.Proofs.Token.Enclosed
import ProtoSchema.Proofs.Token.Genuine
import ProtoSchema.Schema.Node

/-!
# Well-formed schemas

The types of a schema admit more than the grammar does: a name can be any string, a field of a
message can lack a type, a list of ranges can be empty.  What the schemas that are read have in
common is stated here, each node saying what holds of itself and leaving the rest to its parts,
which are nodes too.  A schema that was made by hand may be well formed or not.

Nothing here depends on the notes, apart from `TypeRef.Marked`, which is about the token that a type
reference begins with.

## What is here

* `IsDotted`, `IsRoot` — names joined by dots, behind a dot or not, as predicates on the text.
* `Quotable` — a text that can stand between quotes, and `Quotable.enclosed`, that the quotes which
  the printer chooses are good enough whenever any are.
* `FullName.WellFormed`, `OptionName.WellFormed`, `TypeRef.WellFormed` — what the text of a name
  looks like.  A type reference that begins with the word of a scalar type is that word and no more.
* `TypeRef.Marked` — that `TypeRef.isPrimitive` and `TypeRef.isRooted`, which read the text, agree
  with the token that the reference was read from.
* `Literal.WellFormed`, `Constant.WellFormed` — values.
* `Member.WellFormed` — types and labels are where they belong, and lists are not empty where the
  grammar wants an item.
* `Node.WellFormed` — the same of any node.  It is proved of every node of every document in
  `Proofs/Grammar/WellFormed.lean`.
-/

set_option autoImplicit false

namespace ProtoSchema

/-! ## Texts -/

/-- Words with dots between them; in front of the first dot stands `head`, whatever that is. -/
def IsDotted (head text : String) : Prop :=
  ∃ words, (∀ w ∈ words, IsWord w) ∧ text = ".".intercalate (head :: words)

/-- A dot or nothing. -/
def IsRoot (root : String) : Prop := root = "" ∨ root = "."

/-- A text that can stand between quotes of one sort or the other. -/
structure Quotable (content : String) : Prop where
  newline : '\n' ∉ content.toList
  closed : endsEscaped content.toList = false
  bare : ¬(hasUnescaped '"' content.toList ∧ hasUnescaped '\'' content.toList)

/-- A text that stands between quotes can stand between quotes. -/
theorem Enclosed.quotable {quote : Char} {content : List Char} (hq : isQuote quote)
    (h : Enclosed quote content) : Quotable (String.ofList content) := by
  rw [isQuote, Bool.or_eq_true, beq_iff_eq, beq_iff_eq] at hq
  refine ⟨?_, ?_, ?_⟩ <;> rw [String.toList_ofList]
  · exact h.newline
  · exact h.closed
  · rintro ⟨hdouble, hsingle⟩
    have hbare := h.bare
    rcases hq with rfl | rfl
    · exact absurd hdouble (by rw [hbare]; exact Bool.false_ne_true)
    · exact absurd hsingle (by rw [hbare]; exact Bool.false_ne_true)

/-- It can stand between the quotes that are chosen for it. -/
theorem Quotable.enclosed {raw : String} (h : Quotable raw) :
    Enclosed (quoteFor raw.toList) raw.toList := by
  refine ⟨h.newline, h.closed, ?_⟩
  rw [quoteFor]
  split
  · rename_i hdouble
    exact Bool.eq_false_iff.mpr fun hsingle ↦ h.bare ⟨hdouble, hsingle⟩
  · rename_i hdouble
    exact Bool.eq_false_iff.mpr hdouble

/-! ## Names and values -/

variable {ν : Type}

/-- `a.b.c` -/
def FullName.WellFormed (n : FullName ν) : Prop := ∃ first, IsWord first ∧ IsDotted first n.text

/-- What an option name has in front of its dots: `a`, `(a.b)` or `(.a.b)`. -/
inductive OptionName.IsHead : String → Prop
  | plain {word : String} (hword : IsWord word) : IsHead word
  | extension {root first name : String} (hroot : IsRoot root) (hfirst : IsWord first)
    (hname : IsDotted first name) : IsHead ("(" ++ root ++ name ++ ")")

/-- A word or the name of an extension in parentheses, and words behind dots. -/
def OptionName.WellFormed (n : OptionName ν) : Prop := ∃ head, IsHead head ∧ IsDotted head n.text

/-- One of the words of the scalar types, or `a.b.c` or `.a.b.c`, where `a` is none of them. -/
inductive TypeRef.IsReference : String → Prop
  | primitive {word : String} (hword : word ∈ primitiveWords) : IsReference word
  | named {root first name : String} (hroot : IsRoot root) (hfirst : IsWord first)
    (hprimitive : first ∉ primitiveWords) (hname : IsDotted first name) : IsReference (root ++ name)

/-- The reference is one that the grammar knows. -/
def TypeRef.WellFormed (t : TypeRef ν) : Prop := IsReference t.text

/-- The first token of a type reference is that of a scalar type if the reference is the word of
one, and a dot if it starts at the root. -/
structure TypeRef.Marked (tokens : List Token) (t : TypeRef Location) : Prop where
  primitive : t.isPrimitive ↔ ∃ first ∈ tokens[t.loc.firstToken]?, first.kind = .primitiveType
  rooted : t.isRooted ↔ ∃ first ∈ tokens[t.loc.firstToken]?, first.kind = .dot

/-- A string can stand between quotes; numbers and truth values say nothing more. -/
def Literal.WellFormed : Literal → Prop
  | .text content => Quotable content
  | _ => True

/-- A name that is a value begins with no word that is something else as a value. -/
def Constant.WellFormed : Constant ν → Prop
  | .name n => ∃ first, IsWord first ∧ first ∉ "true" :: "false" :: primitiveWords ∧
    IsDotted first n.text
  | .literal value _ => value.WellFormed

/-! ## Statements -/

/-- Something is reserved, and names can stand between quotes. -/
def ReservedItems.WellFormed : ReservedItems → Prop
  | .ranges xs => xs ≠ []
  | .names xs => xs ≠ [] ∧ ∀ name ∈ xs, Quotable name

/-- A block declares a name, unless it is an extension of what is declared elsewhere. -/
def Header.WellFormed : Header ν → Prop
  | .message name => IsWord name
  | .group _ name _ _ => IsWord name
  | .extend _ => True

/-- The fields of a body have types, and so have those of a oneof; the values of an enum have
neither types nor labels. -/
def Member.WellFormed : Member ν → Prop
  | .field f => IsWord f.name
  | .mapField m => IsWord m.name ∧ m.keyType ∈ primitiveWords
  | .oneOf o => IsWord o.name ∧ ∀ f ∈ o.fields, f.type?.isSome
  | .enumType e => IsWord e.name ∧ ∀ v ∈ e.values, v.type? = none ∧ v.label? = none
  | .extensions e => e.ranges ≠ []
  | .reserved r => r.items.WellFormed
  | .setting _ => True
  | .block header body _ => header.WellFormed ∧ ∀ f, .field f ∈ body → f.type?.isSome

/-- What holds of a node, its parts left aside. -/
def Node.WellFormed : Node ν → Prop
  | .version _ => True
  | .importFile i => Quotable i.file
  | .package _ => True
  | .service s => IsWord s.name
  | .rpc r => IsWord r.name
  | .member m => m.WellFormed
  | .fullName n => n.WellFormed
  | .optionName n => n.WellFormed
  | .typeRef t => t.WellFormed
  | .constant c => c.WellFormed
  | .literal value _ => value.WellFormed

end ProtoSchema
