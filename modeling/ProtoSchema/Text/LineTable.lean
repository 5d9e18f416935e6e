import ProtoSchema.Text.Position

/-!
# A table of the lines of a text

`LineTable.ofText` notes once where the lines of a text begin; `LineTable.position` then answers for
any byte offset by binary search, without looking at the text again.  An offset past the end of the
text belongs to the last line.

The table keeps the offsets just behind the newlines, in increasing order.  The first line, which
begins at offset zero whatever the text, has no entry, so the line of an offset is one more than the
number of entries that are not above it.

## What is here

* `LineTable.startsFrom` and `LineTable.ofText` — one walk over the text makes the table.
* `LineTable.search` and `LineTable.rank` — the binary search.  It halves the stretch between `low`
  and `high` and keeps to the side that the entry in the middle tells; nothing in it depends on the
  table being sorted, which is what its correctness needs.
* `LineTable.lineStart` — the way back from the number of a line to its first byte.
* `LineTable.position`, `LineTable.mark`, `LineTable.span` — offsets as places.

The column is a subtraction of natural numbers, and it is exact: the line that `rank` finds begins
at or before the offset.  `Proofs/Text/Lines.lean` proves this, and that `position` is the line
and column that counting bytes from the start of the text gives.
-/

set_option autoImplicit false

namespace ProtoSchema

/-- Where the second and later lines of a text begin, as byte offsets in increasing order. -/
structure LineTable where
  starts : Array Nat

namespace LineTable

/-- The byte offsets just behind the newlines of `cs`, when `cs` itself begins at `offset`. -/
def startsFrom (offset : Nat) : List Char → List Nat
  | [] => []
  | c :: cs =>
    if c = '\n' then (offset + c.utf8Size) :: startsFrom (offset + c.utf8Size) cs
    else startsFrom (offset + c.utf8Size) cs

/-- The table of a text. -/
def ofText (text : String) : LineTable := ⟨(startsFrom 0 text.toList).toArray⟩

/-- The number of lines; a text without a newline has one. -/
def lineCount (t : LineTable) : Nat := t.starts.size + 1

/-- The place in `[low, high]` up to which the entries are not above `offset`, by halving the
stretch that is still in question: entries before `low` are not above it, those from `high` on
are. -/
def search (starts : Array Nat) (offset low high : Nat) : Nat :=
  if low < high then
    let middle := (low + high) / 2
    if starts.getD middle 0 ≤ offset then search starts offset (middle + 1) high
    else search starts offset low middle
  else low
termination_by high - low

/-- How many entries are not above `offset`. -/
def rank (t : LineTable) (offset : Nat) : Nat :=
  search t.starts offset 0 t.starts.size

/-- Where the line begins that has `k` lines in front of it. -/
def lineStart (t : LineTable) : Nat → Nat
  | 0 => 0
  | k + 1 => t.starts.getD k 0

/-- The line and column of a byte offset. -/
def position (t : LineTable) (offset : Nat) : Position :=
  ⟨t.rank offset + 1, offset - t.lineStart (t.rank offset)⟩

/-- A byte offset with its line and column. -/
def mark (t : LineTable) (offset : Nat) : Mark := ⟨offset, t.position offset⟩

/-- The stretch between two byte offsets. -/
def span (t : LineTable) (start stop : Nat) : Span := ⟨t.mark start, t.mark stop⟩

end LineTable

end ProtoSchema
