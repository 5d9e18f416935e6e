import ProtoSchema.Print.Text

/-!
# Printing

A schema is printed with one statement to a line and one tab for each level of nesting; comments and
empty statements are not kept.  A `Printer` is the text written so far and the level reached.  What
prints a statement takes a printer to the printer behind the statement, at the level it came with;
the body of a block is printed one level deeper.

The printer only ever adds to its text.  That a statement adds the same lines wherever it is
printed, up to tabs, is the subject of `Proofs/Print/Composition.lean`; that the lines are read back
as the statement, of `Proofs/Print/RoundTrip.lean`.

## What is here

* `Printer.line`, `Printer.opened`, `Printer.closed` — the only three ways to write a line.  A block
  is `Printer.block`, which opens it, runs what prints the body and closes it.
* `Printer.each` — one thing after another.  There is no line between two statements.
* `printTo`, for each type of statement.  A statement of one line is `Printer.line` of its text, and
  the text comes from `Print/Text.lean`.
* `Member.printTo` and `Member.printAll`, by mutual recursion; `Member.printAll_eq_each` says that
  the second is `Printer.each` of the first.
* `Schema.print` — the text of a file, from an empty printer.

## The order of a body

The members of a message are printed as they stand in the tree, which is the order of the text.  A
choice, an enum and a call keep their options apart from the rest, so there the options come first;
an enum ends with what it reserves.  Printing such a body and reading it again therefore does not
give back the order of the text, but it gives back the tree.
-/

set_option autoImplicit false

namespace ProtoSchema

/-- The text written so far and the level of nesting. -/
structure Printer where
  out : String
  indent : Nat
  deriving DecidableEq, Repr

namespace Printer

/-- Nothing is written yet. -/
def empty : Printer := ⟨"", 0⟩

/-- Writes a text as it is. -/
def write (text : String) (p : Printer) : Printer := ⟨p.out ++ text, p.indent⟩

/-- As many tabs as there are levels. -/
def tabs (indent : Nat) : String := String.ofList (List.replicate indent '\t')

/-- Writes a line at the level reached. -/
def line (text : String) (p : Printer) : Printer := p.write (tabs p.indent ++ text ++ "\n")

/-- Writes the line that opens a block, and goes one level deeper. -/
def opened (heading : String) (p : Printer) : Printer :=
  let p := p.line (heading ++ " \x7b")
  ⟨p.out, p.indent + 1⟩

/-- Goes back one level, and writes the line that closes a block. -/
def closed (p : Printer) : Printer := line "\x7d" ⟨p.out, p.indent - 1⟩

/-- Prints one thing after another. -/
def each {α : Type} (print : α → Printer → Printer) (xs : List α) (p : Printer) : Printer :=
  xs.foldl (fun p x => print x p) p

/-- Writes a block whose body is printed by `body`. -/
def block (heading : String) (body : Printer → Printer) (p : Printer) : Printer :=
  (body (p.opened heading)).closed

end Printer

variable {ν : Type}

/-- Prints an option as a statement of its own. -/
def Setting.printTo (s : Setting ν) : Printer → Printer := .line ("option " ++ s.entry ++ ";")

/-- Prints a field, or the value of an enum, which has no qualifiers. -/
def Field.printTo (f : Field ν) : Printer → Printer :=
  .line (f.qualifiers ++ numbered f.name f.number f.options ++ ";")

/-- Prints a map field. -/
def MapField.printTo (m : MapField ν) : Printer → Printer :=
  .line ("map<" ++ m.keyType ++ ", " ++ m.valueType.text ++ "> " ++
    numbered m.name m.number m.options ++ ";")

/-- Prints a choice, its options in front of its fields. -/
def OneOf.printTo (o : OneOf ν) : Printer → Printer :=
  .block ("oneof " ++ o.name) fun p =>
    .each Field.printTo o.fields (.each Setting.printTo o.options p)

/-- Prints the statement that gives numbers away. -/
def Extensions.printTo (e : Extensions ν) : Printer → Printer :=
  .line ("extensions " ++ commaSeparated (e.ranges.map NumberRange.print) ++
    Setting.bracketed e.options ++ ";")

/-- Prints the statement that reserves numbers or names. -/
def Reserved.printTo (r : Reserved ν) : Printer → Printer :=
  .line ("reserved " ++ r.items.print ++ ";")

/-- Prints an enum: its options, its values, and what it reserves. -/
def EnumType.printTo (e : EnumType ν) : Printer → Printer :=
  .block ("enum " ++ e.name) fun p =>
    .each Reserved.printTo e.reserved
      (.each Field.printTo e.values (.each Setting.printTo e.options p))

mutual

/-- Prints a member of a body, a block with all that it holds. -/
def Member.printTo : Member ν → Printer → Printer
  | .field f, p => f.printTo p
  | .mapField m, p => m.printTo p
  | .oneOf o, p => o.printTo p
  | .enumType e, p => e.printTo p
  | .extensions e, p => e.printTo p
  | .reserved r, p => r.printTo p
  | .setting s, p => s.printTo p
  | .block header body _, p => p.block header.print (Member.printAll body)

/-- Prints the members of a body one after another. -/
def Member.printAll : List (Member ν) → Printer → Printer
  | [], p => p
  | m :: ms, p => Member.printAll ms (m.printTo p)

end

/-- A body is printed member by member. -/
theorem Member.printAll_eq_each (ms : List (Member ν)) :
    Member.printAll ms = Printer.each Member.printTo ms := by
  funext p
  induction ms generalizing p with
  | nil => simp [Member.printAll, Printer.each]
  | cons m ms ih => simp [Member.printAll, ih, Printer.each]

/-- Prints a call: as one line if it has no options, else as a block that holds them. -/
def Rpc.printTo (r : Rpc ν) : Printer → Printer :=
  if r.options.isEmpty then .line (r.heading ++ ";")
  else .block r.heading (.each Setting.printTo r.options)

/-- Prints what stands in a service. -/
def ServiceItem.printTo : ServiceItem ν → Printer → Printer
  | .setting s => s.printTo
  | .rpc r => r.printTo

/-- Prints a service as a block. -/
def Service.printTo (s : Service ν) : Printer → Printer :=
  .block ("service " ++ s.name) (.each ServiceItem.printTo s.items)

/-- Prints an import, the modifier between the word and the file. -/
def Import.printTo (i : Import ν) : Printer → Printer :=
  .line ("import " ++ (i.modifier?.map fun modifier => modifier.word ++ " ").getD "" ++
    quoted i.file ++ ";")

/-- Prints the statement that names the package. -/
def Package.printTo (p : Package ν) : Printer → Printer := .line ("package " ++ p.name.text ++ ";")

/-- Prints a statement at the top of a file. -/
def Directive.printTo : Directive ν → Printer → Printer
  | .importFile i => i.printTo
  | .package p => p.printTo
  | .service s => s.printTo
  | .member m => m.printTo

/-- Prints the statement that names the version, always in double quotes. -/
def VersionStatement.printTo (v : VersionStatement ν) : Printer → Printer :=
  .line ("syntax = \"" ++ v.version.text ++ "\";")

/-- Prints a file: the version if the file names it, then the other statements. -/
def Schema.printTo (s : Schema ν) (p : Printer) : Printer :=
  .each Directive.printTo s.directives (.each VersionStatement.printTo s.version?.toList p)

/-- The text of a schema. -/
def Schema.print (s : Schema ν) : String := (s.printTo .empty).out

end ProtoSchema
