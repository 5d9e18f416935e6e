import ProtoSchema.Token.Numeral

/-!
# Scanning

`scan` divides a text into its tokens.  At each place `pieceAt` looks at the characters that follow
and decides what stands there: a blank, which belongs to no token, a piece of text that is one, or a
fault.  The piece says which characters it takes, and scanning goes on behind them.

What stands at a place does not depend on where the place is.  `pieceAt` knows no places, and `scan`
adds them: it carries the mark of the place reached along, and moves it over the characters taken.

## What is here

* `LexicalFault` and `LexicalError` — the four ways in which a text is no sequence of tokens, and
  the place that is reported: always the one where the token would begin.
* `isBlank`, `isQuote`, `isWordStart`, `isWordPart` — the classes of characters.  They are ASCII
  classes; any other character stands in strings and comments only.
* `operator?` and `withEqual?` — punctuation, and the four marks that join with an equals sign.
* `Piece` — a token without its place.  It holds the characters behind the first one, so a piece
  takes one character at least, and the recursion of `scanFrom` is on what is left.
* `stringPiece`, `slashPiece`, `numberPiece`, `wordPiece`, `operatorPiece` — one function for each
  sort of first character, and `pieceAt`, which chooses between them.
* `scanFrom` and `scan` — the tokens of a text, with the token of the end behind them.

## Where to look for its theory

`Proofs/Token/Division.lean` restates the scan as a division of the text into pieces, and all other
theorems about it go through that: that nothing is lost (`Lossless`), that each token is one of an
independent lexical grammar (`Lexing`), that the whole list is the only such reading (`Lexed`), and
that texts can be put next to each other (`Joining`).  That the loops over characters here and loops
over the bytes of the text find the same places is `Proofs/Token/Bytewise.lean`.
-/

set_option autoImplicit false

namespace ProtoSchema

/-! ## Faults -/

/-- Why no token stands at a place that is neither blank nor the end. -/
inductive LexicalFault where
  | unterminatedString
  | unterminatedComment
  | unexpectedCharacter (c : Char)
  | numberOutOfRange (lexeme : String)
  deriving DecidableEq, Repr

/-- What is said of the fault. -/
def LexicalFault.message : LexicalFault → String
  | unterminatedString => "unterminated string"
  | unterminatedComment => "unterminated block comment"
  | unexpectedCharacter c => "unexpected character '" ++ c.toString ++ "'"
  | numberOutOfRange lexeme => "number '" ++ lexeme ++ "' is out of range"

/-- A fault and the place where the token would begin. -/
structure LexicalError where
  fault : LexicalFault
  position : Position
  deriving DecidableEq, Repr

/-- The whole message, with line and column. -/
def LexicalError.message (e : LexicalError) : String :=
  s!"lexical error at line {e.position.line}:{e.position.column}: " ++ e.fault.message

/-! ## Characters -/

/-- The characters that separate tokens. -/
def isBlank (c : Char) : Bool := c == ' ' || c == '\t' || c == '\r' || c == '\n'

/-- The two characters that a string can stand between. -/
def isQuote (c : Char) : Bool := c == '"' || c == '\''

/-- The characters that a word can begin with. -/
def isWordStart (c : Char) : Bool := c.isAlpha || c == '_'

/-- The characters that a word can go on with. -/
def isWordPart (c : Char) : Bool := c.isAlphanum || c == '_'

/-- The operators and marks of punctuation of one character. -/
def operator? : Char → Option Kind
  | '(' => some .leftParen
  | ')' => some .rightParen
  | '\x7b' => some .leftBrace
  | '\x7d' => some .rightBrace
  | '[' => some .leftBracket
  | ']' => some .rightBracket
  | ',' => some .comma
  | '.' => some .dot
  | '-' => some .minus
  | '+' => some .plus
  | ';' => some .semicolon
  | '/' => some .slash
  | '*' => some .star
  | '?' => some .questionMark
  | ':' => some .colon
  | '!' => some .bang
  | '=' => some .equal
  | '<' => some .less
  | '>' => some .greater
  | _ => none

/-- The operator that an equals sign makes of another. -/
def withEqual? : Kind → Option Kind
  | .bang => some .bangEqual
  | .equal => some .equalEqual
  | .less => some .lessEqual
  | .greater => some .greaterEqual
  | _ => none

/-! ## Pieces -/

/-- A token without its first character and its place: what follows that character, and what the
token is. -/
structure Piece where
  kind : Kind
  tail : List Char
  value? : Option Value
  deriving DecidableEq, Repr

/-- The text of a string up to its closing quote.  A backslash takes the character behind it along,
whatever it is, but a string does not go on over the end of a line. -/
def stringText? (quote : Char) : List Char → Option (List Char)
  | [] => none
  | [c] => if c = quote then some [] else none
  | c :: d :: cs =>
    if c = quote then some []
    else if c = '\n' then none
    else if c = '\\' ∧ d ≠ '\n' then (stringText? quote cs).map fun text => c :: d :: text
    else (stringText? quote (d :: cs)).map fun text => c :: text

/-- The text of a block comment up to the marks that close it. -/
def blockText? : List Char → Option (List Char)
  | '*' :: '/' :: _ => some []
  | c :: cs => (blockText? cs).map fun text => c :: text
  | [] => none

/-- A string literal behind its opening quote. -/
def stringPiece (quote : Char) (cs : List Char) : Except LexicalFault Piece :=
  match stringText? quote cs with
  | some text => .ok ⟨.string, text ++ [quote], some (.text (String.ofList text))⟩
  | none => .error .unterminatedString

/-- A comment or a slash, behind its first character. -/
def slashPiece : List Char → Except LexicalFault Piece
  | '/' :: cs =>
    let text := cs.takeWhile (· ≠ '\n')
    .ok ⟨.comment, '/' :: text, some (.text (String.ofList text))⟩
  | '*' :: cs =>
    match blockText? cs with
    | some text => .ok ⟨.comment, '*' :: text ++ ['*', '/'], some (.text (String.ofList text))⟩
    | none => .error .unterminatedComment
  | _ => .ok ⟨.slash, [], none⟩

/-- A numeral that begins with the digit `c`. -/
def numberPiece (c : Char) (cs : List Char) : Except LexicalFault Piece :=
  let numeral := Numeral.read c cs
  match numeral.value? with
  | some n => .ok ⟨.number, numeral.text.tail, some (.number n)⟩
  | none => .error (.numberOutOfRange (String.ofList numeral.text))

/-- A word that begins with the letter `c`. -/
def wordPiece (c : Char) (cs : List Char) : Piece :=
  let tail := cs.takeWhile isWordPart
  ⟨.ofWord (String.ofList (c :: tail)), tail, none⟩

/-- An operator of one or two characters that begins with `c`. -/
def operatorPiece (c : Char) (cs : List Char) : Except LexicalFault Piece :=
  match operator? c with
  | none => .error (.unexpectedCharacter c)
  | some kind =>
    match withEqual? kind, cs with
    | some longer, '=' :: _ => .ok ⟨longer, ['='], none⟩
    | _, _ => .ok ⟨kind, [], none⟩

/-- What stands at the head of the text `c :: cs`: nothing if `c` is blank. -/
def pieceAt (c : Char) (cs : List Char) : Except LexicalFault (Option Piece) :=
  if isBlank c then .ok none
  else if c = '/' then some <$> slashPiece cs
  else if isQuote c then some <$> stringPiece c cs
  else if c.isDigit then some <$> numberPiece c cs
  else if isWordStart c then .ok (some (wordPiece c cs))
  else some <$> operatorPiece c cs

/-- The piece as a token that begins with `c` at the mark `m`. -/
def Piece.token (p : Piece) (c : Char) (m : Mark) : Token where
  kind := p.kind
  lexeme := String.ofList (c :: p.tail)
  value? := p.value?
  span := ⟨m, m.after (c :: p.tail)⟩

/-! ## The scan -/

/-- The tokens of the text `cs`, which begins at the mark `m`, and behind them the end. -/
def scanFrom (m : Mark) : List Char → Except LexicalError (List Token)
  | [] => .ok [Token.endAt m]
  | c :: cs =>
    match pieceAt c cs with
    | .error fault => .error ⟨fault, m.position⟩
    | .ok none => scanFrom (m.next c) cs
    | .ok (some piece) =>
      (scanFrom (m.after (c :: piece.tail)) (cs.drop piece.tail.length)).map (piece.token c m :: ·)
termination_by cs => cs.length

/-- The tokens of a text. -/
def scan (text : String) : Except LexicalError (List Token) := scanFrom .start text.toList

end ProtoSchema
