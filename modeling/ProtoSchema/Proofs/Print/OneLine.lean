import ProtoSchema.Proofs.Number.Written
import ProtoSchema.Proofs.Schema.Parts
import ProtoSchema.Proofs.Token.Lossless

/-!
# What is written in one line

A tree that was made by hand can have any strings in it, newlines included.  `Node.texts` lists the
strings of a node and of everything below it.  If none of them has a newline then neither has
anything that is written in a line: the numbers, the words and the marks that are put between the
strings have none of their own.

This is the hypothesis of the statements about composition (`Proofs/Print/Composition.lean`), and it
could not be dropped: a newline in a string would begin a line, and the tabs of a deeper level would
be written into the string.  Whatever was read has no newline in any string, but nothing there needs
the tree to have been read.

## What is here

* `OneLine` — a text without a newline.  It is decidable, so that the texts which the printer itself
  puts in are checked by computation.
* `OneLine.append`, `OneLine.commaSeparated`, `OneLine.quoted` — the ways to put texts together.
* `OneLine.nat`, `OneLine.int`, `OneLine.float` — numbers, because their characters are those of
  numerals.
* `Literal.texts` to `Schema.texts` — the strings of a tree, one function for each type of node.
  `Node.texts` puts them together, and `Member.bodyTexts_eq_flatMap` is the recursion on bodies.
* `Literal.oneLine_print` to `Rpc.oneLine_heading` — everything that `Print/Text.lean` writes is one
  line if the strings in it are.
-/

set_option autoImplicit false

namespace ProtoSchema

/-! ## Texts of one line -/

/-- The text has no newline. -/
def OneLine (text : String) : Prop := '\n' ∉ text.toList

instance : DecidablePred OneLine := fun text ↦ inferInstanceAs (Decidable ('\n' ∉ text.toList))

namespace OneLine

variable {text next : String}

theorem empty : OneLine "" := by decide

/-- A line goes on in another text without a newline. -/
theorem append (h : OneLine text) (hnext : OneLine next) : OneLine (text ++ next) := by
  rw [OneLine, String.toList_append, List.mem_append, not_or]
  exact ⟨h, hnext⟩

/-- Texts with commas between them are one line if each of them is. -/
theorem commaSeparated {texts : List String} (h : ∀ text ∈ texts, OneLine text) :
    OneLine (ProtoSchema.commaSeparated texts) := by
  fun_induction ProtoSchema.commaSeparated texts with
  | case1 => exact .empty
  | case2 text => exact h text List.mem_cons_self
  | case3 text next texts ih =>
    rw [List.forall_mem_cons] at h
    exact (h.1.append (by decide)).append (ih h.2)

theorem commaSeparated_map {α : Type} {print : α → String} {xs : List α}
    (h : ∀ x ∈ xs, OneLine (print x)) : OneLine (ProtoSchema.commaSeparated (xs.map print)) :=
  commaSeparated (List.forall_mem_map.mpr h)

/-- Quotes add no newline. -/
theorem quoted (h : OneLine text) : OneLine (quoted text) := by
  have hquote : OneLine (quoteFor text.toList).toString := by
    rw [quoteFor]
    split <;> decide
  exact (hquote.append h).append hquote

/-- What numerals are made of are no newlines. -/
theorem of_isNumeralPart (h : ∀ c ∈ text.toList, isNumeralPart c) : OneLine text :=
  fun hnewline ↦ absurd (h _ hnewline) (by decide)

theorem nat (n : Nat) : OneLine (toString n) := by
  refine of_isNumeralPart fun c hc ↦ isNumeralPart_of_isDigit ?_
  rw [Nat.toString_eq_ofList_toDigits, String.toList_ofList] at hc
  exact isDigit_of_mem_toDigits hc

theorem int (n : Int) : OneLine (toString n) := by
  rw [toString_int]
  split
  · exact append (by decide) (nat _)
  · exact append (by decide) (nat _)

theorem float (x : Binary64) : OneLine (String.ofList x.text) := by
  cases x with
  | finite negative rank =>
    rw [Binary64.text, String.ofList_append]
    refine append (by cases negative <;> decide) (of_isNumeralPart ?_)
    exact ((Binary64.spells_shortest rank).scans.genuine _ List.mem_cons_self).isNumeralPart rfl
  | infinity negative => cases negative <;> decide
  | nan => decide

end OneLine

/-! ## The strings of a tree -/

variable {ν : Type}

/-- The strings in a literal; only that of a string literal is one. -/
def Literal.texts : Literal → List String
  | .text content => [content]
  | .integer .. | .float _ | .bool _ => []

/-- The strings in a value. -/
def Constant.texts : Constant ν → List String
  | .name n => [n.text]
  | .literal value _ => value.texts

/-- The strings in an option: its name, and those of its value. -/
def Setting.texts (x : Setting ν) : List String := x.name.text :: x.value.texts

/-- The strings in a field: its type, its name, and those of its options. -/
def Field.texts (x : Field ν) : List String :=
  x.type?.toList.map TypeRef.text ++ x.name :: x.options.flatMap Setting.texts

/-- The strings in a map field: both types, its name, and those of its options. -/
def MapField.texts (x : MapField ν) : List String :=
  x.keyType :: x.valueType.text :: x.name :: x.options.flatMap Setting.texts

/-- The strings in a oneof: its name, and those of its options and fields. -/
def OneOf.texts (x : OneOf ν) : List String :=
  x.name :: (x.options.flatMap Setting.texts ++ x.fields.flatMap Field.texts)

/-- The strings in a statement that gives numbers away: those of its options. -/
def Extensions.texts (x : Extensions ν) : List String := x.options.flatMap Setting.texts

/-- The names that are reserved. -/
def ReservedItems.texts : ReservedItems → List String
  | .ranges _ => []
  | .names xs => xs

/-- The strings in a statement that reserves numbers or names. -/
def Reserved.texts (x : Reserved ν) : List String := x.items.texts

/-- The strings in an enum, in the order of printing. -/
def EnumType.texts (x : EnumType ν) : List String :=
  x.name :: (x.options.flatMap Setting.texts ++
    (x.values.flatMap Field.texts ++ x.reserved.flatMap Reserved.texts))

/-- The strings in the header of a block. -/
def Header.texts : Header ν → List String
  | .message name => [name]
  | .group _ name _ options => name :: options.flatMap Setting.texts
  | .extend extendee => [extendee.text]

mutual

/-- The strings in a member, at any depth. -/
def Member.texts : Member ν → List String
  | .field x => x.texts
  | .mapField x => x.texts
  | .oneOf x => x.texts
  | .enumType x => x.texts
  | .extensions x => x.texts
  | .reserved x => x.texts
  | .setting x => x.texts
  | .block header body _ => header.texts ++ Member.bodyTexts body

/-- The strings of the members of a body. -/
def Member.bodyTexts : List (Member ν) → List String
  | [] => []
  | m :: ms => m.texts ++ Member.bodyTexts ms

end

/-- The strings of a body are those of its members. -/
theorem Member.bodyTexts_eq_flatMap (ms : List (Member ν)) :
    Member.bodyTexts ms = ms.flatMap Member.texts := by
  induction ms with
  | nil => rfl
  | cons m ms ih => rw [Member.bodyTexts, ih, List.flatMap_cons]

/-- The strings in a call. -/
def Rpc.texts (x : Rpc ν) : List String :=
  x.name :: x.input.text :: x.output.text :: x.options.flatMap Setting.texts

/-- The strings in what stands in a service. -/
def ServiceItem.texts : ServiceItem ν → List String
  | .setting x => x.texts
  | .rpc x => x.texts

/-- The strings in a service: its name, and those of its statements. -/
def Service.texts (x : Service ν) : List String := x.name :: x.items.flatMap ServiceItem.texts

/-- The strings of a node and of all nodes below it. -/
def Node.texts : Node ν → List String
  | .version _ => []
  | .importFile x => [x.file]
  | .package x => [x.name.text]
  | .service x => x.texts
  | .rpc x => x.texts
  | .member x => x.texts
  | .fullName x => [x.text]
  | .optionName x => [x.text]
  | .typeRef x => [x.text]
  | .constant x => x.texts
  | .literal value _ => value.texts

/-- The strings in a schema. -/
def Schema.texts (x : Schema ν) : List String := x.roots.flatMap Node.texts

/-! ## The parts of a line -/

/-- A literal is written in one line if a string that it is has no newline. -/
theorem Literal.oneLine_print {v : Literal} (h : ∀ text ∈ v.texts, OneLine text) :
    OneLine v.print := by
  cases v with
  | text content => exact (h content List.mem_cons_self).quoted
  | integer negative n => exact .append (by cases negative <;> decide) (.nat n)
  | float x => exact .float x
  | bool value => cases value <;> decide

theorem Constant.oneLine_print {v : Constant ν} (h : ∀ text ∈ v.texts, OneLine text) :
    OneLine v.print := by
  cases v with
  | name n => exact h n.text List.mem_cons_self
  | literal value loc => exact Literal.oneLine_print h

theorem Setting.oneLine_entry {x : Setting ν} (h : ∀ text ∈ x.texts, OneLine text) :
    OneLine x.entry := by
  obtain ⟨hname, hvalue⟩ := List.forall_mem_cons.mp h
  exact (hname.append (by decide)).append (Constant.oneLine_print hvalue)

theorem Setting.oneLine_bracketed {options : List (Setting ν)}
    (h : ∀ text ∈ options.flatMap Setting.texts, OneLine text) : OneLine (bracketed options) := by
  rw [bracketed]
  split
  · exact .empty
  · have hentries : OneLine (commaSeparated (options.map entry)) :=
      .commaSeparated_map fun x hx ↦ x.oneLine_entry (List.forall_mem_flatMap.mp h x hx)
    exact (OneLine.append (by decide) hentries).append (by decide)

theorem oneLine_numbered {name : String} (number : Int) {options : List (Setting ν)}
    (h : ∀ text ∈ name :: options.flatMap Setting.texts, OneLine text) :
    OneLine (numbered name number options) := by
  obtain ⟨hname, hoptions⟩ := List.forall_mem_cons.mp h
  exact ((hname.append (by decide)).append (.int number)).append
    (Setting.oneLine_bracketed hoptions)

theorem NumberRange.oneLine_print (x : NumberRange) : OneLine x.print := by
  cases x with
  | single n => exact .int n
  | span low high =>
    refine (OneLine.append (.int low) (by decide)).append ?_
    cases high with
    | number n => exact .int n
    | max => decide

theorem ReservedItems.oneLine_print {x : ReservedItems} (h : ∀ text ∈ x.texts, OneLine text) :
    OneLine x.print := by
  cases x with
  | ranges rs => exact .commaSeparated_map fun r _ ↦ r.oneLine_print
  | names xs => exact .commaSeparated_map fun name hname ↦ (h name hname).quoted

theorem Label.oneLine_word (label : Label) : OneLine label.word := by
  cases label <;> decide

theorem Field.oneLine_qualifiers {x : Field ν}
    (h : ∀ text ∈ x.type?.toList.map TypeRef.text, OneLine text) : OneLine x.qualifiers := by
  obtain ⟨label?, type?, name, number, options, loc⟩ := x
  refine .append ?_ ?_
  · cases label? with
    | none => exact .empty
    | some label => exact label.oneLine_word.append (by decide)
  · cases type? with
    | none => exact .empty
    | some type => exact OneLine.append (h type.text List.mem_cons_self) (by decide)

/-- The heading of a block is one line. -/
theorem Header.oneLine_print {x : Header ν} (h : ∀ text ∈ x.texts, OneLine text) :
    OneLine x.print := by
  cases x with
  | message name => exact .append (by decide) (h name List.mem_cons_self)
  | group label name number options =>
    exact (label.oneLine_word.append (by decide)).append (oneLine_numbered number h)
  | extend extendee => exact .append (by decide) (h extendee.text List.mem_cons_self)

theorem Rpc.oneLine_endpoint (stream : Bool) {type : TypeRef ν} (h : OneLine type.text) :
    OneLine (endpoint stream type) := by
  refine ((OneLine.append (by decide) ?_).append h).append (by decide)
  cases stream <;> decide

theorem Rpc.oneLine_heading {x : Rpc ν} (h : ∀ text ∈ x.texts, OneLine text) :
    OneLine x.heading := by
  simp only [Rpc.texts, List.forall_mem_cons] at h
  obtain ⟨hname, hinput, houtput, -⟩ := h
  refine .append (.append ?_ (by decide)) (oneLine_endpoint _ houtput)
  refine .append ?_ (oneLine_endpoint _ hinput)
  exact (OneLine.append (by decide) hname).append (by decide)

end ProtoSchema
