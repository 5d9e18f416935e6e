import ProtoSchema.Parse.Rule

/-!
# The grammar of schemas

One rule for each sort of node.  A rule whose name ends in `From` reads on behind a first symbol
that has been taken already, because it was the symbol that told which rule to use.

The words of statements are not set apart, so each of them can also be a name, and a body decides
what a word is by the symbol that follows it.  A dot makes it the start of a type reference, which
is why `message.Inner x = 1;` is a field; `map` begins a map field only in front of `<`, a label
begins a group only in front of `group`, and an equals sign in an enum makes any word the name of a
value.

## What is here

* `Grammar.name`, `Grammar.fullName`, `Grammar.optionName`, `Grammar.typeRef` — names.  The word of
  a scalar type can be a name, but as a type reference it stands alone: no dot follows it.
* `Grammar.literal`, `Grammar.constant` — values.  A word is a name unless it is `true` or `false`,
  so `inf` and `nan` are names, and numbers only behind a sign.
* `Grammar.integer`, `Grammar.fieldNumber`, `Grammar.range` — numbers.  All of them may have a minus
  sign; only the number of a field is asked for its sign afterwards.
* `Grammar.settingFrom`, `Grammar.bracketedSettings` — options.
* `Grammar.fieldFrom` to `Grammar.enumFrom` — the statements of a body without members of its own.
* `Grammar.messageFrom`, `Grammar.groupFrom`, `Grammar.extendFrom`, `Grammar.memberFrom`,
  `Grammar.body` — blocks, and the choice between the statements of a body.
* `Grammar.rpcFrom`, `Grammar.serviceFrom`, `Grammar.importFrom`, `Grammar.packageFrom`,
  `Grammar.directiveFrom`, `Grammar.versionStatement`, `Grammar.schema` — files.
* `Grammar.readBody`, `Grammar.read` — the meaning of a rule when blocks nest at most as deep as the
  configuration says, by recursion on how many more levels are allowed.

## Order of choices

The tests of `Grammar.memberFrom` are not exclusive, and their order is part of the language.  The
dot is asked for first, so a keyword in front of a dot is never a statement of its own, and the
words that can only be statements come before the fields.  `Grammar.fieldOrGroupFrom` does not ask
for the dot: behind a label, `group` begins a group whatever follows.
-/

set_option autoImplicit false

namespace ProtoSchema

-- Powers are those of the core library, whatever else is imported.
attribute [local instance(high)] instPowNat

namespace Grammar

open Rule

/-! ## Names -/

/-- A name; any word is one. -/
def name : Rule String := do
  if (← current).symbol.isName then
    let entry ← take
    return entry.symbol.lexeme
  else reject (.kind .identifier)

/-- Words with dots between them. -/
def joinDots (first : String) (others : List String) : String :=
  others.foldl (fun text word => text ++ "." ++ word) first

/-- Further names behind `head`, each with a dot in front. -/
def dotted (head : String) : Rule String := do
  let others ← many (·.is .dot) fun _ => name
  return joinDots head others

/-- Names with dots between them. -/
def fullName : Rule (FullName Extent) := do
  let first ← current
  let text ← dotted (← name)
  return ⟨text, ← extentFrom first⟩

/-- The name of an extension in parentheses, as an option name has it. -/
def extensionName : Rule String := do
  let _ ← expect .leftParen
  let root ← takeIf (·.is .dot)
  let name ← fullName
  let _ ← expect .rightParen
  return "(" ++ (if root.isSome then "." else "") ++ name.text ++ ")"

/-- The name of an option, of which the first part may be the name of an extension. -/
def optionName : Rule (OptionName Extent) := do
  let first ← current
  let head ← if first.symbol.is .leftParen then extensionName else name
  let text ← dotted head
  return ⟨text, ← extentFrom first⟩

/-- Whether a type reference can begin with the symbol. -/
def startsType (s : Symbol) : Bool := s.isName || s.is .dot

/-- The first name behind the dot of a type reference that starts at the root. -/
def rootedName : Rule String := do
  if (← current).symbol.is .identifier then
    let entry ← take
    return "." ++ entry.symbol.lexeme
  else reject .typeName

/-- The word of a scalar type is a reference by itself. -/
def typeRefFrom (first : Entry) : Rule (TypeRef Extent) := do
  if first.symbol.is .primitiveType then
    return ⟨first.symbol.lexeme, ← extentFrom first⟩
  else
    let head ← if first.symbol.is .dot then rootedName else pure first.symbol.lexeme
    let text ← dotted head
    return ⟨text, ← extentFrom first⟩

/-- A reference to a type. -/
def typeRef : Rule (TypeRef Extent) := do
  if startsType (← current).symbol then typeRefFrom (← take) else reject .typeName

/-! ## Values -/

/-- The text of a string literal. -/
def stringText : Rule String := do
  let s := (← current).symbol
  match if s.is .string then s.text? else none with
  | some text =>
    let _ ← take
    return text
  | none => reject (.kind .string)

/-- A number behind its sign. -/
def unsigned (negative : Bool) : Rule Literal := do
  let s := (← current).symbol
  if s.isWord "inf" then
    let _ ← take
    return .float (.infinity negative)
  else if s.isWord "nan" then
    let _ ← take
    return .float .nan
  else
    match s.number? with
    | some (.integer n) =>
      let _ ← take
      return .integer negative n
    | some (.float x) =>
      let _ ← take
      return .float (if negative then x.negate else x)
    | none => reject (.kind .number)

/-- A literal value, `first` being the current symbol. -/
def literal (first : Symbol) : Rule Literal := do
  if first.isWord "true" || first.isWord "false" then
    let _ ← take
    return .bool (first.lexeme == "true")
  else if first.is .string then
    let text ← stringText
    return .text text
  else if first.is .number then unsigned false
  else if first.is .minus || first.is .plus then
    let _ ← take
    unsigned (first.is .minus)
  else reject .constant

/-- Whether the symbol can begin a name that is a value. -/
def startsNameValue (s : Symbol) : Bool :=
  s.is .identifier && !s.isWord "true" && !s.isWord "false"

/-- The value of an option. -/
def constant : Rule (Constant Extent) := do
  let first ← current
  if startsNameValue first.symbol then
    let name ← fullName
    return .name name
  else
    let value ← literal first.symbol
    return .literal value (← extentFrom first)

/-- The integers of 64 bits, the sign included. -/
def fitsInteger (n : Int) : Bool := -2 ^ (63 : Nat) ≤ n && n < 2 ^ (63 : Nat)

/-- An integer with or without a minus sign. -/
def integer : Rule Int := do
  let minus ← takeIf (·.is .minus)
  let entry ← current
  match entry.symbol.number? with
  | some (.integer n) =>
    let _ ← take
    let value : Int := if minus.isSome then -n else n
    if fitsInteger value then return value
    else
      let sign := if minus.isSome then "-" else ""
      violate entry.index (.integerOutOfRange (sign ++ entry.symbol.lexeme))
  | _ => reject .integer

/-- The number of a field. -/
def fieldNumber : Rule Int := do
  let first ← current
  let n ← integer
  if n < 0 then demand Config.allowNegative first.index (.negativeFieldNumber n)
  return n

/-- A number, or a range of numbers up to another one or to the largest of all. -/
def range : Rule NumberRange := do
  let low ← integer
  match ← takeIf (·.isWord "to") with
  | none => return .single low
  | some _ =>
    match ← takeIf (·.isWord "max") with
    | some _ => return .span low .max
    | none =>
      let high ← integer
      return .span low (.number high)

/-! ## Options -/

/-- An entry of a bracketed list of options. -/
def settingEntry : Rule (Setting Extent) := do
  let first ← current
  let name ← optionName
  let _ ← expect .equal
  let value ← constant
  return ⟨name, value, ← extentFrom first⟩

/-- The bracketed list of options, if there is one. -/
def bracketedSettings : Rule (List (Setting Extent)) := do
  match ← takeIf (·.is .leftBracket) with
  | none => return []
  | some _ =>
    let entries ← separated settingEntry
    let _ ← expect .rightBracket
    return entries

/-- An option statement behind its word. -/
def settingFrom (first : Entry) : Rule (Setting Extent) := do
  let name ← optionName
  let _ ← expect .equal
  let value ← constant
  let _ ← expect .semicolon
  return ⟨name, value, ← extentFrom first⟩

/-! ## Fields -/

/-- The label that the symbol is, if it is one. -/
def labelOf? (s : Symbol) : Option Label :=
  if s.is .identifier then Label.ofWord? s.lexeme else none

/-- A field whose first symbol is its label or begins its type. -/
def fieldFrom (first : Entry) : Rule (Field Extent) := do
  let label? := labelOf? first.symbol
  let type ← if label?.isSome then typeRef else typeRefFrom first
  let name ← name
  let _ ← expect .equal
  let number ← fieldNumber
  let options ← bracketedSettings
  let _ ← expect .semicolon
  return ⟨label?, some type, name, number, options, ← extentFrom first⟩

/-- A map field behind its word. -/
def mapFieldFrom (first : Entry) : Rule (MapField Extent) := do
  let _ ← expect .less
  let key ← expect .primitiveType
  let _ ← expect .comma
  let valueType ← typeRef
  let _ ← expect .greater
  let name ← name
  let _ ← expect .equal
  let number ← fieldNumber
  let options ← bracketedSettings
  let _ ← expect .semicolon
  return ⟨key.symbol.lexeme, valueType, name, number, options, ← extentFrom first⟩

/-- A value of an enum, behind its name. -/
def enumValueFrom (first : Entry) : Rule (Field Extent) := do
  let _ ← expect .equal
  let number ← integer
  let options ← bracketedSettings
  let _ ← expect .semicolon
  return ⟨none, none, first.symbol.lexeme, number, options, ← extentFrom first⟩

/-! ## Statements of a message body -/

/-- A statement that keeps numbers for extensions, behind its word. -/
def extensionsFrom (first : Entry) : Rule (Extensions Extent) := do
  let ranges ← separated range
  let options ← bracketedSettings
  let _ ← expect .semicolon
  return ⟨ranges, options, ← extentFrom first⟩

/-- What is reserved: names if a string comes first, numbers otherwise. -/
def reservedItems : Rule ReservedItems := do
  if (← current).symbol.is .string then
    let names ← separated stringText
    return .names names
  else
    let ranges ← separated range
    return .ranges ranges

/-- A statement that reserves numbers or names, behind its word. -/
def reservedFrom (first : Entry) : Rule (Reserved Extent) := do
  let items ← reservedItems
  let _ ← expect .semicolon
  return ⟨items, ← extentFrom first⟩

/-- A statement of a oneof. -/
inductive OneOfItem (ν : Type) where
  | setting (s : Setting ν)
  | field (f : Field ν)

/-- The option that the statement is, if it is one. -/
def OneOfItem.setting? {ν : Type} : OneOfItem ν → Option (Setting ν)
  | setting s => some s
  | _ => none

/-- The field that the statement is, if it is one. -/
def OneOfItem.field? {ν : Type} : OneOfItem ν → Option (Field ν)
  | field f => some f
  | _ => none

/-- A statement of a oneof.  In front of a dot the word `option` begins the type of a field. -/
def oneOfItem (first : Entry) : Rule (OneOfItem Extent) := do
  let next := (← current).symbol
  if first.symbol.isWord "option" && !next.is .dot then
    let s ← settingFrom first
    return .setting s
  else
    let f ← fieldFrom first
    return .field f

/-- A oneof behind its word. -/
def oneOfFrom (first : Entry) : Rule (OneOf Extent) := do
  let name ← name
  let items ← block startsType .oneOfItem oneOfItem
  return ⟨name, items.filterMap OneOfItem.setting?, items.filterMap OneOfItem.field?,
    ← extentFrom first⟩

/-- A statement of an enum. -/
inductive EnumItem (ν : Type) where
  | setting (s : Setting ν)
  | value (v : Field ν)
  | reserved (r : Reserved ν)

/-- The option that the statement is, if it is one. -/
def EnumItem.setting? {ν : Type} : EnumItem ν → Option (Setting ν)
  | setting s => some s
  | _ => none

/-- The value that the statement declares, if it is one. -/
def EnumItem.value? {ν : Type} : EnumItem ν → Option (Field ν)
  | value v => some v
  | _ => none

/-- What the statement reserves, if it does. -/
def EnumItem.reserved? {ν : Type} : EnumItem ν → Option (Reserved ν)
  | reserved r => some r
  | _ => none

/-- A statement of an enum.  In front of an equals sign any word is the name of a value. -/
def enumItem (first : Entry) : Rule (EnumItem Extent) := do
  let next := (← current).symbol
  if first.symbol.isWord "option" && !next.is .equal then
    let s ← settingFrom first
    return .setting s
  else if first.symbol.isWord "reserved" && !next.is .equal then
    let r ← reservedFrom first
    return .reserved r
  else
    let v ← enumValueFrom first
    return .value v

/-- An enum behind its word. -/
def enumFrom (first : Entry) : Rule (EnumType Extent) := do
  let name ← name
  let items ← block Symbol.isName .enumItem enumItem
  return ⟨name, items.filterMap EnumItem.setting?, items.filterMap EnumItem.value?,
    items.filterMap EnumItem.reserved?, ← extentFrom first⟩

/-! ## Blocks -/

/-- A message behind its word. -/
def messageFrom (first : Entry) : Rule (Member Extent) := do
  let name ← name
  let body ← nested .message
  return .block (.message name) body (← extentFrom first)

/-- A group behind its label. -/
def groupFrom (label : Label) (first : Entry) : Rule (Member Extent) := do
  let _ ← expectWord "group"
  let name ← name
  let _ ← expect .equal
  let number ← fieldNumber
  let options ← bracketedSettings
  let body ← nested .message
  return .block (.group label name number options) body (← extentFrom first)

/-- An extension behind its word. -/
def extendFrom (first : Entry) : Rule (Member Extent) := do
  let extendee ← typeRef
  let body ← nested .extension
  return .block (.extend extendee) body (← extentFrom first)

/-- A group, if a label and its word begin one, or a field. -/
def fieldOrGroupFrom (first : Entry) : Rule (Member Extent) := do
  let next := (← current).symbol
  match if next.isWord "group" then labelOf? first.symbol else none with
  | some label => groupFrom label first
  | none =>
    let f ← fieldFrom first
    return .field f

/-- A member of a message, whose first symbol and the one behind it tell what it is. -/
def memberFrom (first : Entry) : Rule (Member Extent) := do
  let word := first.symbol
  let next := (← current).symbol
  if next.is .dot then
    let f ← fieldFrom first
    return .field f
  else if word.isWord "message" then messageFrom first
  else if word.isWord "enum" then
    let e ← enumFrom first
    return .enumType e
  else if word.isWord "extend" then extendFrom first
  else if word.isWord "extensions" then
    let e ← extensionsFrom first
    return .extensions e
  else if word.isWord "option" then
    let s ← settingFrom first
    return .setting s
  else if word.isWord "oneof" then
    let o ← oneOfFrom first
    return .oneOf o
  else if word.isWord "reserved" then
    let r ← reservedFrom first
    return .reserved r
  else if word.isWord "map" && next.is .less then
    let m ← mapFieldFrom first
    return .mapField m
  else fieldOrGroupFrom first

/-- The body of a block. -/
def body : Body → Rule (List (Member Extent))
  | .message => block startsType .member memberFrom
  | .extension => block startsType .extendItem fieldOrGroupFrom

/-! ## Services -/

/-- A type of a call, and whether it is a stream of them.  In front of a closing parenthesis the
word `stream` is the type. -/
def endpoint : Rule (Bool × TypeRef Extent) := do
  let _ ← expect .leftParen
  let first ← current
  if first.symbol.isWord "stream" then
    let _ ← take
    if (← current).symbol.is .rightParen then
      let type ← typeRefFrom first
      let _ ← expect .rightParen
      return (false, type)
    else
      let type ← typeRef
      let _ ← expect .rightParen
      return (true, type)
  else
    let type ← typeRef
    let _ ← expect .rightParen
    return (false, type)

/-- What ends a call: its options between braces, or a semicolon. -/
def rpcEnd : Rule (List (Setting Extent)) := do
  if (← current).symbol.is .leftBrace then block (·.isWord "option") .rpcItem settingFrom
  else
    let _ ← expect .semicolon
    return []

/-- A call behind its word. -/
def rpcFrom (first : Entry) : Rule (Rpc Extent) := do
  let name ← name
  let (inputStream, input) ← endpoint
  let _ ← expectWord "returns"
  let (outputStream, output) ← endpoint
  let options ← rpcEnd
  return ⟨name, inputStream, input, outputStream, output, options, ← extentFrom first⟩

/-- A statement of a service. -/
def serviceItem (first : Entry) : Rule (ServiceItem Extent) := do
  if first.symbol.isWord "option" then
    let s ← settingFrom first
    return .setting s
  else
    let r ← rpcFrom first
    return .rpc r

/-- A service behind its word. -/
def serviceFrom (first : Entry) : Rule (Service Extent) := do
  let name ← name
  let items ← block (fun s => s.isWord "option" || s.isWord "rpc") .serviceItem serviceItem
  return ⟨name, items, ← extentFrom first⟩

/-! ## Files -/

/-- An import behind its word. -/
def importFrom (first : Entry) : Rule (Import Extent) := do
  let modifier? ← importModifier
  let file ← stringText
  let _ ← expect .semicolon
  return ⟨file, modifier?, ← extentFrom first⟩
where
  importModifier : Rule (Option ImportModifier) := do
    let s := (← current).symbol
    if s.isWord "weak" then
      let _ ← take
      return some .weak
    else if s.isWord "public" then
      let _ ← take
      return some .transitive
    else return none

/-- A package statement behind its word. -/
def packageFrom (first : Entry) : Rule (Package Extent) := do
  let name ← fullName
  let _ ← expect .semicolon
  return ⟨name, ← extentFrom first⟩

/-- The words that begin a statement at the top of a file. -/
def directiveWords : List String :=
  ["import", "package", "option", "message", "enum", "extend", "service"]

/-- Whether a statement at the top of a file can begin with the symbol. -/
def startsDirective (s : Symbol) : Bool := s.is .identifier && directiveWords.contains s.lexeme

/-- A statement at the top of a file, behind its word. -/
def directiveFrom (first : Entry) : Rule (Directive Extent) := do
  let word := first.symbol
  if word.isWord "import" then
    let i ← importFrom first
    return .importFile i
  else if word.isWord "package" then
    let p ← packageFrom first
    return .package p
  else if word.isWord "option" then
    let s ← settingFrom first
    return .member (.setting s)
  else if word.isWord "message" then
    let m ← messageFrom first
    return .member m
  else if word.isWord "enum" then
    let e ← enumFrom first
    return .member (.enumType e)
  else if word.isWord "extend" then
    let m ← extendFrom first
    return .member m
  else
    let s ← serviceFrom first
    return .service s

/-- The statement that names the version, if the file begins with one. -/
def versionStatement : Rule (Option (VersionStatement Extent)) := do
  match ← takeIf (·.isWord "syntax") with
  | none => return none
  | some first =>
    let _ ← expect .equal
    let entry ← current
    let text ← stringText
    match Version.ofText? text with
    | some version =>
      let _ ← expect .semicolon
      return some ⟨version, ← extentFrom first⟩
    | none => violate entry.index (.unknownVersion text)

/-- A whole file. -/
def schema : Rule (Schema Extent) := do
  let version? ← versionStatement
  let directives ← statements startsDirective directiveFrom
  if (← current).symbol.is .eof then return ⟨version?, directives⟩
  else reject .directive

/-! ## Reading -/

/-- Reads the body of a block, inside of which `depth - 1` further blocks may be nested. -/
def readBody (config : Config) : (depth : Nat) → Body → Cursor → Outcome (List (Member Extent))
  | 0, _, c => .error ⟨c.index, .violation (.nestingTooDeep config.maxDepth)⟩
  | depth + 1, b, c => (body b).run config (readBody config depth) c

/-- Reads by a rule of the grammar, outside of all blocks. -/
def read {α : Type} (config : Config) (rule : Rule α) (c : Cursor) : Outcome α :=
  rule.run config (readBody config config.maxDepth) c

end Grammar

end ProtoSchema
