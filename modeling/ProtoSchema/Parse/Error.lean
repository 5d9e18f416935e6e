import ProtoSchema.Token.Basic

/-!
# Why a sequence of symbols is no schema

A `Fault` is the cause, and a `SyntaxError` a cause with the place that it is reported at.  Most
often a symbol stands where it cannot; otherwise the symbols are well formed and what they say is
not allowed.

## What is here

* `Expected` — what could have stood in place of an unexpected symbol.  It names one thing even
  where several symbols would do, a statement of a body for instance.
* `Violation` — the four things that are well formed and not allowed: a version that does not exist,
  a negative number of a field, an integer of more than 64 bits, and too many blocks in each other.
* `Fault`, `SyntaxError` — either of these, and where.
* `Expected.description`, `Violation.message`, `SyntaxError.message` — the texts.

The two sorts of faults are told apart because they answer to different things.  An unexpected
symbol is a fault of the language; the last violation and the second one depend on the
configuration, and another configuration may accept the same text.
-/

set_option autoImplicit false

namespace ProtoSchema

/-- What could have stood in place of an unexpected symbol. -/
inductive Expected where
  | kind (kind : Kind)
  | word (word : String)
  | typeName
  | constant
  | integer
  | directive
  | member
  | oneOfItem
  | enumItem
  | extendItem
  | serviceItem
  | rpcItem
  deriving DecidableEq, Repr

/-- What a message calls it. -/
def Expected.description : Expected → String
  | kind k => k.description
  | word w => "'" ++ w ++ "'"
  | typeName => "type name"
  | constant => "constant"
  | integer => "integer"
  | directive =>
    "'import', 'package', 'option', 'message', 'enum', 'extend', 'service' or ';'"
  | member => "message body element or '\x7d'"
  | oneOfItem => "'option', field or '\x7d'"
  | enumItem => "'option', 'reserved', enum value or '\x7d'"
  | extendItem => "field or '\x7d'"
  | serviceItem => "'option', 'rpc' or '\x7d'"
  | rpcItem => "'option' or '\x7d'"

/-- What is well formed and not allowed. -/
inductive Violation where
  | unknownVersion (value : String)
  | negativeFieldNumber (number : Int)
  /-- The integer has more than 64 bits, its sign included. -/
  | integerOutOfRange (lexeme : String)
  | nestingTooDeep (limit : Nat)
  deriving DecidableEq, Repr

/-- What is said of the violation. -/
def Violation.message : Violation → String
  | unknownVersion value =>
    "unknown syntax '" ++ value ++ "', expected \"proto2\" or \"proto3\""
  | negativeFieldNumber number => "negative field number " ++ toString number
  | integerOutOfRange lexeme => "integer '" ++ lexeme ++ "' is out of range"
  | nestingTooDeep limit => "nesting exceeds the limit of " ++ toString limit

/-- The cause of a syntax error. -/
inductive Fault where
  | unexpected (expected : Expected) (found : Kind) (lexeme : String)
  | violation (v : Violation)
  deriving DecidableEq, Repr

/-- A fault and the place of the symbol that it is found at. -/
structure SyntaxError where
  fault : Fault
  position : Position
  deriving DecidableEq, Repr

/-- Only an unexpected symbol is reported with its column. -/
def SyntaxError.message (e : SyntaxError) : String :=
  let line := toString e.position.line
  match e.fault with
  | .unexpected expected found lexeme =>
    "syntax error at line " ++ line ++ ":" ++ toString e.position.column ++ ": expected " ++
      expected.description ++ ", found " ++ found.description ++ " '" ++ lexeme ++ "'"
  | .violation v => "syntax error at line " ++ line ++ ": " ++ v.message

end ProtoSchema
