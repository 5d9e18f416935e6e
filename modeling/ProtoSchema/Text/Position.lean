/-!
# Places in a text

A place is counted in two ways at once: as an offset in UTF-8 bytes from the start of the text, and
as a line and a column.  Lines count from one and only a newline starts one; columns count bytes
from zero.  A `Mark` holds both counts, and `Mark.next` moves it over one character, so whoever
walks a text from its start always knows the place in both.

A `Span` is the stretch between two marks, the second one not included.

## What is here

* `Position`, `Mark` — a place, without and with its offset.
* `Mark.next` and `Mark.after` — moving over a character and over several.  A character counts for
  as many bytes as it takes in UTF-8, also in its column, so that a column is an offset into the
  line and not a number of characters.  A carriage return counts like any other character.
* `Mark.after_append` — a walk can be cut anywhere, which is how every theorem about places splits a
  text in front of and behind a token.
* `Span` — a stretch, with its size and the line and column at which it begins.
-/

set_option autoImplicit false

namespace ProtoSchema

/-- A line, counted from one, and a column, counted in bytes from zero. -/
structure Position where
  line : Nat
  column : Nat
  deriving DecidableEq, Repr, Inhabited

/-- A place in a text: its byte offset and its position. -/
structure Mark where
  offset : Nat
  position : Position
  deriving DecidableEq, Repr, Inhabited

namespace Mark

/-- The place before the first character of a text. -/
def start : Mark := ⟨0, ⟨1, 0⟩⟩

/-- The place behind the character `c` when `m` is the place in front of it. -/
def next (m : Mark) (c : Char) : Mark where
  offset := m.offset + c.utf8Size
  position :=
    if c = '\n' then ⟨m.position.line + 1, 0⟩
    else ⟨m.position.line, m.position.column + c.utf8Size⟩

/-- The place behind the characters `cs` when `m` is the place in front of them. -/
def after (m : Mark) (cs : List Char) : Mark :=
  cs.foldl next m

@[simp]
theorem after_nil (m : Mark) : m.after [] = m := rfl

@[simp]
theorem after_cons (m : Mark) (c : Char) (cs : List Char) :
    m.after (c :: cs) = (m.next c).after cs := rfl

/-- Walking over two texts in turn is walking over the one that they make up. -/
theorem after_append (m : Mark) (cs ds : List Char) :
    m.after (cs ++ ds) = (m.after cs).after ds := by
  simp [after]

end Mark

/-- The stretch of text from the mark `start` up to the mark `stop`. -/
structure Span where
  start : Mark
  stop : Mark
  deriving DecidableEq, Repr, Inhabited

namespace Span

/-- The stretch from the start of one span to the end of another. -/
def join (s t : Span) : Span := ⟨s.start, t.stop⟩

/-- The number of bytes in the stretch. -/
def size (s : Span) : Nat := s.stop.offset - s.start.offset

/-- Whether there is nothing in the stretch. -/
def isEmpty (s : Span) : Bool := s.start.offset == s.stop.offset

/-- The line on which the stretch starts. -/
def line (s : Span) : Nat := s.start.position.line

/-- The column at which the stretch starts. -/
def column (s : Span) : Nat := s.start.position.column

end Span

end ProtoSchema
