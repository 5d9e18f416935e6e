import ProtoSchema.Proofs.Grammar.Elsewhere

/-!
# Files with a gap

An integer, or the constant of an option, can stand in many places of a file.  A `Gap` is such a
place: the symbols in front of it and behind it, and what they say with a value in between.

The relations here are the lines of the grammar with one gap in them.  What stands around the gap is
derived as in `ProtoSchema.Proofs.Grammar.Derivation`, and the gap is left for an integer or for a
constant, as its `Slot` says.  `Schema.Around` is about whole files.

A gap keeps what is said as a function of the value, so that a statement about every value in every
place is one statement: the file around the gap is given once, and the value and its symbols vary.
Nothing here has notes, since the places behind a gap depend on how much is put into it.

## What is here

* `Slot`, `Slot.Value` — the two sorts of gaps, and what is said in each.
* `Gap`, `Gap.map`, `Gap.within` — a gap, with what is said built further and with symbols around
  it.
* `Phrase.Anywhere` — symbols that make up a tree wherever they stand.
* `Phrase.Separated.Around`, `Phrase.Statements.Around`, `Phrase.Block.Around` — rows with a gap.
* `NumberRange.Around` to `Directive.Around` — the lines of the grammar that can have a gap in them,
  in the order of `Derivation`.  A line with two places for a gap has a case for each.
* `Schema.Around` — a file with a gap.  It depends on the configuration by the depth that blocks may
  have and by the negative numbers that other fields of the file may have.
-/

set_option autoImplicit false

namespace ProtoSchema

open Grammar Phrase

/-! ## Gaps -/

/-- What a gap is left for. -/
inductive Slot where
  | integer | constant
  deriving DecidableEq, Repr

/-- What is said by the symbols in the gap. -/
abbrev Slot.Value : Slot → Type
  | integer => Int
  | constant => Constant Unit

/-- The symbols around a gap, and what is said by all of them with a value in the gap. -/
structure Gap (slot : Slot) (β : Type) where
  before : List Symbol
  said : slot.Value → β
  behind : List Symbol

namespace Gap

variable {slot : Slot} {β γ : Type}

/-- The gap in something that is made of what was said. -/
def map (g : Gap slot β) (f : β → γ) : Gap slot γ := ⟨g.before, fun v ↦ f (g.said v), g.behind⟩

/-- The same with more symbols around. -/
def within (g : Gap slot β) (u : List Symbol) (f : β → γ) (w : List Symbol) : Gap slot γ :=
  ⟨u ++ g.before, fun v ↦ f (g.said v), g.behind ++ w⟩

end Gap

/-- The symbols make up the tree wherever they stand. -/
abbrev Phrase.Anywhere {α : Type} (p : Phrase α) (x : α) (s : List Symbol) : Prop := ∀ i, p i x s

/-! ## Gaps in rows -/

section Rows

variable {slot : Slot} {β : Type} (p : Phrase β) (around : Gap slot β → Prop)

/-- A row with commas, in one entry of which is the gap. -/
inductive Phrase.Separated.Around : Gap slot (List β) → Prop
  | first {g : Gap slot β} {xs : List β} {t : List Symbol} (hg : around g)
    (hxs : (Many (Behind .comma p)).Anywhere xs t) : Around (g.within [] (· :: xs) t)
  | next {g : Gap slot β} {comma : Symbol} {xs ys : List β} {s t : List Symbol}
    (hxs : (Separated p).Anywhere xs s) (hcomma : comma.kind = .comma) (hg : around g)
    (hys : (Many (Behind .comma p)).Anywhere ys t) :
    Around (g.within (s ++ [comma]) (fun x ↦ xs ++ x :: ys) t)

/-- Statements, in one of which is the gap. -/
inductive Phrase.Statements.Around : Gap slot (List β) → Prop
  | mk {g : Gap slot β} {xs ys : List β} {s t : List Symbol} (hxs : (Statements p).Anywhere xs s)
    (hg : around g) (hys : (Statements p).Anywhere ys t) :
    Around (g.within s (fun x ↦ xs ++ x :: ys) t)

/-- Statements between braces, in one of which is the gap. -/
inductive Phrase.Block.Around : Gap slot (List β) → Prop
  | mk {g : Gap slot (List β)} {l r : Symbol} (hl : l.kind = .leftBrace)
    (hg : Statements.Around p around g) (hr : r.kind = .rightBrace) :
    Around (g.within [l] id [r])

end Rows

/-! ## Ranges and options -/

/-- `range = gap [ "to" ( "max" | integer ) ] | integer "to" gap` -/
inductive NumberRange.Around : Gap .integer NumberRange → Prop
  | single : Around ⟨[], .single, []⟩
  | toMax {mid max : Symbol} (hto : mid.isWord "to") (hmax : max.isWord "max") :
    Around ⟨[], fun n ↦ .span n .max, [mid, max]⟩
  | low {m : Int} {mid : Symbol} {t : List Symbol} (hto : mid.isWord "to")
    (hm : Integer.Anywhere m t) (hmax : ∀ first ∈ t.head?, ¬first.isWord "max") :
    Around ⟨[], fun n ↦ .span n (.number m), mid :: t⟩
  | high {n : Int} {mid : Symbol} {s : List Symbol} (hn : Integer.Anywhere n s)
    (hto : mid.isWord "to") : Around ⟨s ++ [mid], fun m ↦ .span n (.number m), []⟩

/-- Ranges with commas between them. -/
abbrev RangesAround : Gap .integer (List NumberRange) → Prop :=
  Separated.Around (NumberRange.Derives Integer) NumberRange.Around

/-- `entry = optionName "=" gap` -/
inductive Setting.AroundEntry : Gap .constant (Setting Unit) → Prop
  | mk {n : OptionName Unit} {eq : Symbol} {s : List Symbol}
    (hn : (OptionName.Derives noNote).Anywhere n s) (heq : eq.kind = .equal) :
    AroundEntry ⟨s ++ [eq], fun v ↦ ⟨n, v, ()⟩, []⟩

/-- `bracketed = "[" entry { "," entry } "]"` -/
inductive Setting.AroundBracketed : Gap .constant (List (Setting Unit)) → Prop
  | mk {g : Gap .constant (List (Setting Unit))} {l r : Symbol} (hl : l.kind = .leftBracket)
    (hg : Separated.Around (DerivesEntry noNote) AroundEntry g) (hr : r.kind = .rightBracket) :
    AroundBracketed (g.within [l] id [r])

/-- `setting = "option" entry ";"` -/
inductive Setting.Around : Gap .constant (Setting Unit) → Prop
  | mk {g : Gap .constant (Setting Unit)} {word semi : Symbol} (hword : word.isWord "option")
    (hg : AroundEntry g) (hsemi : semi.kind = .semicolon) : Around (g.within [word] id [semi])

/-! ## Fields -/

section Fields

variable (config : Config)

/-- `numbered = name "=" ( gap bracketed | fieldNumber bracketed )` -/
inductive Phrase.Numbered.Around :
    (slot : Slot) → Gap slot (String × Int × List (Setting Unit)) → Prop
  | number {name eq : Symbol} {options : List (Setting Unit)} {t : List Symbol}
    (hname : name.isName) (heq : eq.kind = .equal) (ha : config.allowNegative)
    (ho : (Setting.Bracketed noNote).Anywhere options t) :
    Around .integer ⟨[name, eq], fun n ↦ (name.lexeme, n, options), t⟩
  | options {g : Gap .constant (List (Setting Unit))} {name eq : Symbol} {n : Int} {s : List Symbol}
    (hname : name.isName) (heq : eq.kind = .equal) (hn : (FieldNumber Integer config).Anywhere n s)
    (hg : Setting.AroundBracketed g) :
    Around .constant (g.within (name :: eq :: s) (fun os ↦ (name.lexeme, n, os)) [])

/-- `field = [label] typeRef numbered ";"` -/
inductive Field.Around : (slot : Slot) → Gap slot (Field Unit) → Prop
  | labelled {slot : Slot} {g : Gap slot (String × Int × List (Setting Unit))} {l semi : Symbol}
    {label : Label} {type : TypeRef Unit} {s : List Symbol} (hl : labelOf? l = some label)
    (htype : (TypeRef.Derives noNote).Anywhere type s) (hg : Numbered.Around config slot g)
    (hsemi : semi.kind = .semicolon) :
    Around slot (g.within (l :: s) (fun x ↦ ⟨some label, some type, x.1, x.2.1, x.2.2, ()⟩) [semi])
  | plain {slot : Slot} {g : Gap slot (String × Int × List (Setting Unit))} {first semi : Symbol}
    {type : TypeRef Unit} {s : List Symbol} (hl : labelOf? first = none)
    (htype : (TypeRef.Derives noNote).Anywhere type (first :: s))
    (hg : Numbered.Around config slot g)
    (hsemi : semi.kind = .semicolon) :
    Around slot (g.within (first :: s) (fun x ↦ ⟨none, some type, x.1, x.2.1, x.2.2, ()⟩) [semi])

/-- `mapField = "map" "<" primitiveType "," typeRef ">" numbered ";"` -/
inductive MapField.Around : (slot : Slot) → Gap slot (MapField Unit) → Prop
  | mk {slot : Slot} {g : Gap slot (String × Int × List (Setting Unit))}
    {word less key comma greater semi : Symbol} {type : TypeRef Unit} {s : List Symbol}
    (hword : word.isWord "map") (hless : less.kind = .less) (hkey : key.kind = .primitiveType)
    (hcomma : comma.kind = .comma) (htype : (TypeRef.Derives noNote).Anywhere type s)
    (hgreater : greater.kind = .greater) (hg : Numbered.Around config slot g)
    (hsemi : semi.kind = .semicolon) :
    Around slot (g.within (word :: less :: key :: comma :: (s ++ [greater]))
      (fun x ↦ ⟨key.lexeme, type, x.1, x.2.1, x.2.2, ()⟩) [semi])

/-- `enumValue = name "=" ( gap bracketed | integer bracketed ) ";"` -/
inductive Field.AroundValue : (slot : Slot) → Gap slot (Field Unit) → Prop
  | number {name eq semi : Symbol} {options : List (Setting Unit)} {t : List Symbol}
    (hname : name.isName) (heq : eq.kind = .equal)
    (ho : (Setting.Bracketed noNote).Anywhere options t) (hsemi : semi.kind = .semicolon) :
    AroundValue .integer
      ⟨[name, eq], fun n ↦ ⟨none, none, name.lexeme, n, options, ()⟩, t ++ [semi]⟩
  | options {g : Gap .constant (List (Setting Unit))} {name eq semi : Symbol} {n : Int}
    {s : List Symbol} (hname : name.isName) (heq : eq.kind = .equal) (hn : Integer.Anywhere n s)
    (hg : Setting.AroundBracketed g) (hsemi : semi.kind = .semicolon) :
    AroundValue .constant
      (g.within (name :: eq :: s) (fun os ↦ ⟨none, none, name.lexeme, n, os, ()⟩) [semi])

/-! ## Statements of a message body -/

/-- `extensions = "extensions" range { "," range } bracketed ";"` -/
inductive Extensions.Around : (slot : Slot) → Gap slot (Extensions Unit) → Prop
  | ranges {g : Gap .integer (List NumberRange)} {word semi : Symbol}
    {options : List (Setting Unit)}
    {t : List Symbol} (hword : word.isWord "extensions") (hg : RangesAround g)
    (ho : (Setting.Bracketed noNote).Anywhere options t) (hsemi : semi.kind = .semicolon) :
    Around .integer (g.within [word] (fun xs ↦ ⟨xs, options, ()⟩) (t ++ [semi]))
  | options {g : Gap .constant (List (Setting Unit))} {word semi : Symbol}
    {ranges : List NumberRange} {s : List Symbol} (hword : word.isWord "extensions")
    (hr : (Separated (NumberRange.Derives Integer)).Anywhere ranges s)
    (hg : Setting.AroundBracketed g)
    (hsemi : semi.kind = .semicolon) :
    Around .constant (g.within (word :: s) (fun os ↦ ⟨ranges, os, ()⟩) [semi])

/-- `reserved = "reserved" range { "," range } ";"` -/
inductive Reserved.Around : Gap .integer (Reserved Unit) → Prop
  | mk {g : Gap .integer (List NumberRange)} {word semi : Symbol} (hword : word.isWord "reserved")
    (hg : RangesAround g) (hfirst : ∀ first ∈ g.before.head?, first.kind ≠ .string)
    (hsemi : semi.kind = .semicolon) : Around (g.within [word] (fun xs ↦ ⟨.ranges xs, ()⟩) [semi])

/-- `oneOfItem = setting | field`, where `option` begins a field only in front of a dot -/
inductive Grammar.OneOfItem.Around : (slot : Slot) → Gap slot (OneOfItem Unit) → Prop
  | setting {g : Gap .constant (Setting Unit)} (hg : Setting.Around g) :
    Around .constant (g.map .setting)
  | field {slot : Slot} {g : Gap slot (Field Unit)} (hg : Field.Around config slot g)
    (hfirst : ∃ first next t, g.before = first :: next :: t ∧
      (first.isWord "option" → next.kind = .dot)) : Around slot (g.map .field)

/-- `oneOf = "oneof" name "{" { oneOfItem | ";" } "}"` -/
inductive OneOf.Around : (slot : Slot) → Gap slot (OneOf Unit) → Prop
  | mk {slot : Slot} {g : Gap slot (List (OneOfItem Unit))} {word name : Symbol}
    (hword : word.isWord "oneof") (hname : name.isName)
    (hg : Block.Around (OneOfItem.Derives config noNote) (OneOfItem.Around config slot) g) :
    Around slot (g.within [word, name] (fun items ↦ ⟨name.lexeme,
      items.filterMap OneOfItem.setting?, items.filterMap OneOfItem.field?, ()⟩) [])

/-- `enumItem = setting | reserved | enumValue` -/
inductive Grammar.EnumItem.Around : (slot : Slot) → Gap slot (EnumItem Unit) → Prop
  | setting {g : Gap .constant (Setting Unit)} (hg : Setting.Around g) :
    Around .constant (g.map .setting)
  | reserved {g : Gap .integer (Reserved Unit)} (hg : Reserved.Around g)
    (hnext : ∀ next ∈ g.before.tail.head?, next.kind ≠ .equal) :
    Around .integer (g.map .reserved)
  | value {slot : Slot} {g : Gap slot (Field Unit)} (hg : Field.AroundValue slot g) :
    Around slot (g.map .value)

/-- `enum = "enum" name "{" { enumItem | ";" } "}"` -/
inductive EnumType.Around : (slot : Slot) → Gap slot (EnumType Unit) → Prop
  | mk {slot : Slot} {g : Gap slot (List (EnumItem Unit))} {word name : Symbol}
    (hword : word.isWord "enum") (hname : name.isName)
    (hg : Block.Around (EnumItem.Derives Integer noNote) (EnumItem.Around slot) g) :
    Around slot (g.within [word, name] (fun items ↦ ⟨name.lexeme,
      items.filterMap EnumItem.setting?, items.filterMap EnumItem.value?,
      items.filterMap EnumItem.reserved?, ()⟩) [])

/-! ## Blocks -/

section Members

variable (inner : Body → Phrase (List (Member Unit)))
  (around : Body → (slot : Slot) → Gap slot (List (Member Unit)) → Prop)

/-- `message = "message" name messageBody` -/
inductive Member.AroundMessage : (slot : Slot) → Gap slot (Member Unit) → Prop
  | mk {slot : Slot} {g : Gap slot (List (Member Unit))} {word name : Symbol}
    (hword : word.isWord "message") (hname : name.isName) (hg : around .message slot g) :
    AroundMessage slot (g.within [word, name] (fun xs ↦ .block (.message name.lexeme) xs ()) [])

/-- `group = label "group" numbered messageBody` -/
inductive Member.AroundGroup : (slot : Slot) → Gap slot (Member Unit) → Prop
  | header {slot : Slot} {g : Gap slot (String × Int × List (Setting Unit))} {l word : Symbol}
    {label : Label} {xs : List (Member Unit)} {t : List Symbol} (hl : labelOf? l = some label)
    (hword : word.isWord "group") (hg : Numbered.Around config slot g)
    (hbody : (inner .message).Anywhere xs t) :
    AroundGroup slot (g.within [l, word] (fun x ↦ .block (.group label x.1 x.2.1 x.2.2) xs ()) t)
  | body {slot : Slot} {g : Gap slot (List (Member Unit))} {l word : Symbol} {label : Label}
    {name : String} {n : Int} {options : List (Setting Unit)} {s : List Symbol}
    (hl : labelOf? l = some label) (hword : word.isWord "group")
    (hn : (Numbered Integer config noNote).Anywhere (name, n, options) s)
    (hg : around .message slot g) :
    AroundGroup slot
      (g.within (l :: word :: s) (fun xs ↦ .block (.group label name n options) xs ()) [])

/-- `extend = "extend" typeRef extensionBody` -/
inductive Member.AroundExtend : (slot : Slot) → Gap slot (Member Unit) → Prop
  | mk {slot : Slot} {g : Gap slot (List (Member Unit))} {word : Symbol} {type : TypeRef Unit}
    {s : List Symbol} (hword : word.isWord "extend")
    (htype : (TypeRef.Derives noNote).Anywhere type s) (hg : around .extension slot g) :
    AroundExtend slot (g.within (word :: s) (fun xs ↦ .block (.extend type) xs ()) [])

/-- A member of a body: `field | group`, and in a message body also
`message | enum | extend | extensions | setting | oneOf | reserved | mapField` -/
inductive Member.Around : Body → (slot : Slot) → Gap slot (Member Unit) → Prop
  | field {b : Body} {slot : Slot} {g : Gap slot (Field Unit)} (hg : Field.Around config slot g)
    (hb : ∃ first next t, g.before = first :: next :: t ∧ b.readsField first next) :
    Around b slot (g.map .field)
  | group {b : Body} {slot : Slot} {g : Gap slot (Member Unit)}
    (hg : AroundGroup config inner around slot g) : Around b slot g
  | message {slot : Slot} {g : Gap slot (Member Unit)} (hg : AroundMessage around slot g) :
    Around .message slot g
  | enumType {slot : Slot} {g : Gap slot (EnumType Unit)} (hg : EnumType.Around slot g) :
    Around .message slot (g.map .enumType)
  | extend {slot : Slot} {g : Gap slot (Member Unit)} (hg : AroundExtend around slot g)
    (hnext : ∀ next ∈ g.before.tail.head?, next.kind ≠ .dot) : Around .message slot g
  | extensions {slot : Slot} {g : Gap slot (Extensions Unit)} (hg : Extensions.Around slot g)
    (hnext : ∀ next ∈ g.before.tail.head?, next.kind ≠ .dot) :
    Around .message slot (g.map .extensions)
  | setting {g : Gap .constant (Setting Unit)} (hg : Setting.Around g) :
    Around .message .constant (g.map .setting)
  | oneOf {slot : Slot} {g : Gap slot (OneOf Unit)} (hg : OneOf.Around config slot g) :
    Around .message slot (g.map .oneOf)
  | reserved {g : Gap .integer (Reserved Unit)} (hg : Reserved.Around g)
    (hnext : ∀ next ∈ g.before.tail.head?, next.kind ≠ .dot) :
    Around .message .integer (g.map .reserved)
  | mapField {slot : Slot} {g : Gap slot (MapField Unit)} (hg : MapField.Around config slot g) :
    Around .message slot (g.map .mapField)

end Members

/-- The body of a block, at most `depth` of them in each other, in one member of which is the
gap. -/
def Body.Around : (depth : Nat) → Body → (slot : Slot) → Gap slot (List (Member Unit)) → Prop
  | 0, _ => fun _ _ => False
  | depth + 1, b => fun slot =>
    Block.Around (Member.Derives Integer config noNote (Body.Derives Integer config noNote depth) b)
      (Member.Around config (Body.Derives Integer config noNote depth) (Body.Around depth) b slot)

/-! ## Services -/

/-- `rpc = "rpc" name endpoint "returns" endpoint "{" { setting | ";" } "}"` -/
inductive Rpc.Around : Gap .constant (Rpc Unit) → Prop
  | mk {g : Gap .constant (List (Setting Unit))} {word name returns : Symbol}
    {inputStream outputStream : Bool} {input output : TypeRef Unit} {s t : List Symbol}
    (hword : word.isWord "rpc") (hname : name.isName)
    (hin : (Endpoint noNote).Anywhere (inputStream, input) s) (hreturns : returns.isWord "returns")
    (hout : (Endpoint noNote).Anywhere (outputStream, output) t)
    (hg : Block.Around (Setting.Derives noNote) Setting.Around g) :
    Around (g.within (word :: name :: (s ++ returns :: t))
      (fun os ↦ ⟨name.lexeme, inputStream, input, outputStream, output, os, ()⟩) [])

/-- `serviceItem = setting | rpc` -/
inductive ServiceItem.Around : Gap .constant (ServiceItem Unit) → Prop
  | setting {g : Gap .constant (Setting Unit)} (hg : Setting.Around g) :
    Around (g.map .setting)
  | rpc {g : Gap .constant (Rpc Unit)} (hg : Rpc.Around g) : Around (g.map .rpc)

/-- `service = "service" name "{" { serviceItem | ";" } "}"` -/
inductive Service.Around : Gap .constant (Service Unit) → Prop
  | mk {g : Gap .constant (List (ServiceItem Unit))} {word name : Symbol}
    (hword : word.isWord "service") (hname : name.isName)
    (hg : Block.Around (ServiceItem.Derives noNote) ServiceItem.Around g) :
    Around (g.within [word, name] (fun items ↦ ⟨name.lexeme, items, ()⟩) [])

/-! ## Files -/

/-- `directive = setting | message | enum | extend | service` -/
inductive Directive.Around : (slot : Slot) → Gap slot (Directive Unit) → Prop
  | setting {g : Gap .constant (Setting Unit)} (hg : Setting.Around g) :
    Around .constant (g.map fun x ↦ .member (.setting x))
  | message {slot : Slot} {g : Gap slot (Member Unit)}
    (hg : Member.AroundMessage (Body.Around config config.maxDepth) slot g) :
    Around slot (g.map .member)
  | enumType {slot : Slot} {g : Gap slot (EnumType Unit)} (hg : EnumType.Around slot g) :
    Around slot (g.map fun x ↦ .member (.enumType x))
  | extend {slot : Slot} {g : Gap slot (Member Unit)}
    (hg : Member.AroundExtend (Body.Around config config.maxDepth) slot g) :
    Around slot (g.map .member)
  | service {g : Gap .constant (Service Unit)} (hg : Service.Around g) :
    Around .constant (g.map .service)

/-- `schema = [ version ] { directive | ";" }` -/
inductive Schema.Around : (slot : Slot) → Gap slot (Schema Unit) → Prop
  | mk {slot : Slot} {g : Gap slot (List (Directive Unit))} {v? : Option (VersionStatement Unit)}
    {s : List Symbol} (hv : (VersionStatement.Optional noNote).Anywhere v? s)
    (hg : Statements.Around (Directive.Derives Integer config noNote)
      (Directive.Around config slot) g) :
    Around slot (g.within s (fun ds ↦ ⟨v?, ds⟩) [])

end Fields

end ProtoSchema
