import ProtoSchema.Text.Position
import ProtoSchema.Number.Binary64

/-!
# Tokens

A `Symbol` is what a stretch of schema text is to the grammar: its kind, its exact text and, for
literals and comments, its value.  A `Token` is a symbol at its place.

Schema keywords are no kind of their own.  `message`, `enum`, `import` and their like are plain
identifiers which the grammar recognises where it expects them, so each of them can also be a name.
Only the thirteen words of the scalar types are set apart.

## What is here

* `Kind` — what sort of token it is.  `Kind.spelling?` gives the text of the kinds that have only
  one, and `Kind.description` how a message names a kind.
* `Kind.ofWord` — the kind of a word, by the list `primitiveWords`.
* `Number` and `Value` — what a literal says.  A numeral is a natural number of 64 bits or a binary
  floating-point number, never both; a sign is a token of its own and no part of it.
* `Symbol`, with the tests that the grammar asks: `Symbol.is`, `Symbol.isWord`, `Symbol.isName`.
* `Token` — a symbol and the span of its text.

`Symbol.isWord` wants an identifier, so the word of a scalar type is never a keyword, and a string
with the text `message` is none either.
-/

set_option autoImplicit false

namespace ProtoSchema

/-- The kinds of tokens. -/
inductive Kind where
  | leftParen | rightParen | leftBrace | rightBrace | leftBracket | rightBracket
  | comma | dot | minus | plus | semicolon | slash | star | questionMark | colon
  | bang | bangEqual | equal | equalEqual | less | lessEqual | greater | greaterEqual
  | string | number | identifier | primitiveType | comment | eof
  deriving DecidableEq, Repr, Inhabited

namespace Kind

/-- The text of an operator or a mark of punctuation, whose tokens all have the same. -/
def spelling? : Kind → Option String
  | leftParen => some "("
  | rightParen => some ")"
  | leftBrace => some "\x7b"
  | rightBrace => some "\x7d"
  | leftBracket => some "["
  | rightBracket => some "]"
  | comma => some ","
  | dot => some "."
  | minus => some "-"
  | plus => some "+"
  | semicolon => some ";"
  | slash => some "/"
  | star => some "*"
  | questionMark => some "?"
  | colon => some ":"
  | bang => some "!"
  | bangEqual => some "!="
  | equal => some "="
  | equalEqual => some "=="
  | less => some "<"
  | lessEqual => some "<="
  | greater => some ">"
  | greaterEqual => some ">="
  | string | number | identifier | primitiveType | comment | eof => none

/-- How a message names the kind. -/
def description : Kind → String
  | string => "string literal"
  | number => "number"
  | identifier => "identifier"
  | primitiveType => "primitive type"
  | comment => "comment"
  | eof => "end of input"
  | operator => "'" ++ operator.spelling?.getD "" ++ "'"

end Kind

/-- The words of the scalar types. -/
def primitiveWords : List String :=
  ["int32", "int64", "uint32", "uint64", "sint32", "sint64", "fixed32", "fixed64", "sfixed32",
    "sfixed64", "bool", "string", "bytes"]

/-- Whether the word is that of a scalar type. -/
def isPrimitiveWord (word : String) : Bool := primitiveWords.contains word

/-- The kind of a word. -/
def Kind.ofWord (word : String) : Kind :=
  if isPrimitiveWord word then .primitiveType else .identifier

/-- The value of a numeral. -/
inductive Number where
  | integer (n : Nat)
  | float (x : Binary64)
  deriving DecidableEq, Repr

/-- The number of the binary format closest to the value. -/
def Number.toBinary64 : Number → Binary64
  | .integer n => .ofNat n
  | .float x => x

/-- The value of a literal or a comment. -/
inductive Value where
  /-- The text between the quotes of a string literal, escapes as they stand there, or the text of
  a comment without its marks. -/
  | text (content : String)
  | number (n : Number)
  deriving DecidableEq, Repr

/-- What the grammar sees of a token. -/
structure Symbol where
  kind : Kind
  lexeme : String
  value? : Option Value
  deriving DecidableEq, Repr

namespace Symbol

/-- The symbol at the end of every input. -/
def endOfInput : Symbol := ⟨.eof, "", none⟩

instance : Inhabited Symbol := ⟨endOfInput⟩

/-- Whether the symbol has the given kind. -/
def is (s : Symbol) (kind : Kind) : Bool := s.kind == kind

/-- Whether the symbol is the given word and can be a keyword. -/
def isWord (s : Symbol) (word : String) : Bool := s.kind == .identifier && s.lexeme == word

/-- Whether the symbol can be a name. -/
def isName (s : Symbol) : Bool := s.kind == .identifier || s.kind == .primitiveType

/-- The text that the value of the symbol is, if it is one. -/
def text? (s : Symbol) : Option String :=
  match s.value? with
  | some (.text content) => some content
  | _ => none

/-- The number that the value of the symbol is, if it is one. -/
def number? (s : Symbol) : Option Number :=
  match s.value? with
  | some (.number n) => some n
  | _ => none

end Symbol

/-- A symbol at its place. -/
structure Token extends Symbol where
  span : Span
  deriving DecidableEq, Repr, Inhabited

namespace Token

/-- The token at the end of an input that ends at `m`. -/
def endAt (m : Mark) : Token := ⟨.endOfInput, ⟨m, m⟩⟩

end Token

end ProtoSchema
