/-!
# Quoting

The text of a string is written between quotes as it is, escapes included, so the quotes are the
only choice: double ones, unless a double quote stands in the text that no backslash escapes.

## What is here

* `hasUnescaped` — whether a mark occurs that would end a string.  A backslash takes the character
  behind it along, exactly as the scanner reads it.
* `quoteFor` and `quoted` — the quotes for a text, and the text between them.

A text with unescaped quotes of both sorts, with a newline, or with a lone backslash at its end
cannot be written by any choice of quotes.  No text that was read is of this kind; for texts of any
origin, `scan_quoted_iff` in `Proofs/Print/Quoting.lean` says exactly which ones are read back.
-/

set_option autoImplicit false

namespace ProtoSchema

/-- Whether the character `mark` occurs without a backslash that escapes it. -/
def hasUnescaped (mark : Char) : List Char → Bool
  | [] => false
  | [c] => c == mark && c != '\\'
  | c :: d :: cs =>
    if c = '\\' then hasUnescaped mark cs
    else c == mark || hasUnescaped mark (d :: cs)

/-- The quotes for a text. -/
def quoteFor (content : List Char) : Char :=
  if hasUnescaped '"' content then '\'' else '"'

/-- The text between quotes. -/
def quoted (content : String) : String :=
  let quote := (quoteFor content.toList).toString
  quote ++ content ++ quote

end ProtoSchema
