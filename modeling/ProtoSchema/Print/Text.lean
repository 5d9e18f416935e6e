import ProtoSchema.Number.Shortest
import ProtoSchema.Print.Quote
import ProtoSchema.Schema.Basic

/-!
# The text of values and headings

How the parts of a statement are written that take less than a line: values, options, ranges, and
the lines that open a block.  The same text is written for them wherever they stand.

## What is here

* `commaSeparated` — lists, with a comma and a blank and no trailing comma.
* `Literal.print` and `Constant.print` — values.  A string is put in quotes by `quoted`, which takes
  the quote that the text allows, and a float is written by `Binary64.text` so that it reads back as
  the same number.
* `Setting.entry` and `Setting.bracketed` — an option without `option` and semicolon, and the list
  of them behind a field, which is written only if it is not empty.
* `NumberRange.print`, `ReservedItems.print` — what `reserved` and `extensions` list.
* `numbered` — the name, the number and the options of anything that has a number: a field, a map
  field, the value of an enum, a group.
* `Field.qualifiers`, `Header.print`, `Rpc.heading` — the front of a statement.

Negative numbers are written with their sign directly in front of the digits.  The grammar takes a
sign and digits as two symbols, so nothing has to stand between them.
-/

set_option autoImplicit false

namespace ProtoSchema

variable {ν : Type}

/-- The texts with a comma and a blank between each two of them. -/
def commaSeparated : List String → String
  | [] => ""
  | [text] => text
  | text :: next :: texts => text ++ ", " ++ commaSeparated (next :: texts)

/-- How a literal is written. -/
def Literal.print : Literal → String
  | .text content => quoted content
  | .integer negative magnitude => (if negative then "-" else "") ++ toString magnitude
  | .float x => String.ofList x.text
  | .bool value => if value then "true" else "false"

/-- How a value is written; a name is written as it was read. -/
def Constant.print : Constant ν → String
  | .name n => n.text
  | .literal value _ => value.print

namespace Setting

/-- The option as an entry of a bracketed list. -/
def entry (s : Setting ν) : String := s.name.text ++ " = " ++ s.value.print

/-- The bracketed list of options, with a blank in front, or nothing if there are none. -/
def bracketed (options : List (Setting ν)) : String :=
  if options.isEmpty then "" else " [" ++ commaSeparated (options.map entry) ++ "]"

end Setting

/-- How the end of a range is written. -/
def RangeEnd.print : RangeEnd → String
  | .number n => toString n
  | .max => "max"

/-- How a range is written; a single number stands alone. -/
def NumberRange.print : NumberRange → String
  | .single n => toString n
  | .span low high => toString low ++ " to " ++ high.print

/-- What a `reserved` statement lists, numbers bare and names in quotes. -/
def ReservedItems.print : ReservedItems → String
  | .ranges rs => commaSeparated (rs.map NumberRange.print)
  | .names ns => commaSeparated (ns.map quoted)

/-- A name, its number and the options, as fields of all sorts have them. -/
def numbered (name : String) (number : Int) (options : List (Setting ν)) : String :=
  name ++ " = " ++ toString number ++ Setting.bracketed options

namespace Field

/-- The label and the type, each with a blank behind it. -/
def qualifiers (f : Field ν) : String :=
  (f.label?.map fun label => label.word ++ " ").getD "" ++
    (f.type?.map fun type => type.text ++ " ").getD ""

end Field

/-- The line that opens a block, without the brace. -/
def Header.print : Header ν → String
  | .message name => "message " ++ name
  | .group label name number options => label.word ++ " group " ++ numbered name number options
  | .extend extendee => "extend " ++ extendee.text

namespace Rpc

/-- A type of a call, with the word in front of it that makes it a stream. -/
def endpoint (stream : Bool) (type : TypeRef ν) : String :=
  "(" ++ (if stream then "stream " else "") ++ type.text ++ ")"

/-- The call without its options. -/
def heading (r : Rpc ν) : String :=
  "rpc " ++ r.name ++ " " ++ endpoint r.inputStream r.input ++ " returns " ++
    endpoint r.outputStream r.output

end Rpc

end ProtoSchema
