import ProtoSchema.Parse.Grammar
import ProtoSchema.Schema.Map
import ProtoSchema.Token.Scan

/-!
# Documents

A `Document` is a schema with the tokens that it was read from, and the place of every node among
them.

The grammar does not see where symbols stand, nor the comments between them.  `Sentence` is what
joins the two: it is the symbols of a buffer of tokens that the grammar reads, each with its token
and the number of the token in the buffer.  The grammar notes on each node which symbols it was made
of, and `Sentence.locate` turns the note into a place.

## What is here

* `Location` — the place of a node.  It counts tokens of the buffer, comments included, so the
  tokens of a node are a stretch of the buffer, `Document.tokensAt`.
* `endedBuffer` and `Sentence.ofBuffer` — a buffer of any tokens as a sentence.  A buffer without an
  end gets one, and what stands behind the first end is not read.
* `Sentence.locate`, `Sentence.report` — extents as places, and failures as errors with a position.
* `Document.ofTokens` — reading a buffer.  Buffers that no text scans to are read like any other.
* `parse` — reading a text: scanning all of it, then reading the buffer.
* `ParseError` — either of the two ways in which that fails.

The place of a node whose extent is empty would be read off the symbol in front of it.  No rule
makes such a node, as `Document.nodes_placed` in `Proofs/Grammar/Placement.lean` implies.
-/

set_option autoImplicit false

namespace ProtoSchema

/-- The place of a node: the stretch of text, and the numbers of its first and last token. -/
structure Location where
  span : Span
  firstToken : Nat
  lastToken : Nat
  deriving DecidableEq, Repr

/-- The line on which a node begins. -/
def Location.line (l : Location) : Nat := l.span.line

/-! ## Buffers of tokens -/

/-- The end of the last token of a buffer; an empty one ends nowhere. -/
def bufferEnd (tokens : List Token) : Mark :=
  match tokens.getLast? with
  | some t => t.span.stop
  | none => ⟨0, ⟨0, 0⟩⟩

/-- The buffer with an end behind it, if its last token is not one. -/
def endedBuffer (tokens : List Token) : List Token :=
  if tokens.getLast?.any (·.is .eof) then tokens else tokens ++ [Token.endAt (bufferEnd tokens)]

/-- A token and its number in the buffer. -/
structure Place where
  token : Token
  index : Nat

/-- The part of a buffer that the grammar reads: the tokens other than comments in front of the
first end, and that end. -/
structure Sentence where
  places : Array Place
  stop : Place

namespace Sentence

/-- The sentence of a buffer.  If the buffer has no end, one stands behind it. -/
def ofBuffer (tokens : List Token) : Sentence :=
  let places := tokens.zipIdx.map fun (token, index) => Place.mk token index
  let significant := places.filter fun p => !p.token.is .comment
  let stop := significant.find? fun p => p.token.is .eof
  { places := (significant.takeWhile fun p => !p.token.is .eof).toArray
    stop := stop.getD ⟨.endAt (bufferEnd tokens), tokens.length⟩ }

/-- The place of the symbol with the given number. -/
def place (s : Sentence) (index : Nat) : Place := s.places.getD index s.stop

/-- The cursor in front of the first symbol. -/
def cursor (s : Sentence) : Cursor :=
  ⟨0, s.places.toList.map (·.token.toSymbol), s.stop.token.toSymbol⟩

/-- The place of the symbols of an extent. -/
def locate (s : Sentence) (e : Extent) : Location :=
  let first := s.place e.start
  let last := s.place (e.stop - 1)
  ⟨first.token.span.join last.token.span, first.index, last.index⟩

/-- The failure with the place of its symbol. -/
def report (s : Sentence) (f : Failure) : SyntaxError :=
  ⟨f.fault, (s.place f.index).token.span.start.position⟩

end Sentence

/-! ## Documents -/

/-- A schema, its tokens and their text. -/
structure Document where
  schema : Schema Location
  tokens : List Token
  /-- The whole text. -/
  span : Span

namespace Document

/-- Reads a buffer of tokens. -/
def ofTokens (config : Config) (tokens : List Token) : Except SyntaxError Document :=
  let buffer := endedBuffer tokens
  let sentence := Sentence.ofBuffer buffer
  match Grammar.read config Grammar.schema sentence.cursor with
  | .error f => .error (sentence.report f)
  | .ok (schema, _) =>
    .ok ⟨schema.map sentence.locate, buffer, ⟨.start, bufferEnd buffer⟩⟩

/-- The comments, in the order in which they stand. -/
def comments (d : Document) : List Token := d.tokens.filter (·.is .comment)

/-- The tokens of a place, comments between them included. -/
def tokensAt (d : Document) (l : Location) : List Token :=
  (d.tokens.drop l.firstToken).take (l.lastToken + 1 - l.firstToken)

/-- The version of the language that the document is written in. -/
def version (d : Document) : Version := d.schema.version

end Document

/-- Why a text is no schema. -/
inductive ParseError where
  | lexical (e : LexicalError)
  | syntactic (e : SyntaxError)
  deriving DecidableEq, Repr

namespace ParseError

/-- Where the text goes wrong. -/
def position : ParseError → Position
  | lexical e => e.position
  | syntactic e => e.position

/-- What is said of the error. -/
def message : ParseError → String
  | lexical e => e.message
  | syntactic e => e.message

end ParseError

/-- Reads a text.  The whole of it is scanned first, so a lexical error anywhere comes before any
other. -/
def parse (text : String) (config : Config) : Except ParseError Document :=
  match scan text with
  | .error e => .error (.lexical e)
  | .ok tokens =>
    match Document.ofTokens config tokens with
    | .error e => .error (.syntactic e)
    | .ok d => .ok d

end ProtoSchema
