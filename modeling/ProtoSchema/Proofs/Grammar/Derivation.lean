import ProtoSchema.Parse.Grammar
import ProtoSchema.Proofs.Grammar.Phrase

/-!
# The grammar as a relation

For each sort of node, which symbols make it up.  The rules of `ProtoSchema.Parse.Grammar` are
programs that look at one symbol after another; what is here says nothing of how the symbols are
looked at, nor of what stands around them.  Each relation has the line of the grammar that it is in
its comment.

Where two lines could make different trees of the same symbols the grammar says which one it is, and
so there are a few conditions beside the symbols: `Body.readsField` and its like tell when a word
begins a field and when the statement that the word names.  Some of them can fail only for symbols
that no text has, such as a word with a number for a value.

The numbers of map fields, groups and ranges are those of the phrase `bare`.  The rules read
`Phrase.Integer` there, which has a sign as the numbers of fields have.

The notes on the nodes are what `note` makes of the numbers of the symbols that the node is made of.
Blocks may be nested `depth` deep, and numbers of fields are those that the configuration admits.

## What is here

* `Phrase.Name`, `FullName.Derives`, `OptionName.Derives`, `TypeRef.Derives` — names.
* `Literal.Derives`, `Constant.Derives`, `Phrase.Integer`, `NumberRange.Derives` — values and
  numbers.  The text of a node is given by the lexemes of its symbols, and its value by their
  values.
* `Setting.DerivesEntry`, `Setting.Bracketed`, `Setting.Derives` — options.
* `Phrase.FieldNumber`, `Phrase.Numbered`, `Field.Derives`, `MapField.Derives`, `Field.DerivesValue`
  — fields of all sorts.
* `Extensions.Derives` to `EnumType.Derives` — statements without members.  The items of a oneof and
  of an enum are derived in the order of the text, and the lists of the tree are sorted from them.
* `Body.readsField`, `Member.Derives`, `Body.Derives` — blocks.  The recursion is on the depth, and
  not on the tree, because the depth is what a configuration limits.
* `Rpc.Derives` to `Schema.Derives` — services and files.
* The lemmas between them tell what the first one or two symbols are, which is all that the choice
  between lines ever asks.

That the rules read exactly what is derived is soundness and completeness, in the directories of
these names.
-/

set_option autoImplicit false

namespace ProtoSchema

open Grammar Phrase

variable {ν : Type}

/-! ## Names -/

/-- `name = identifier | primitiveType` -/
inductive Phrase.Name : Phrase String
  | mk {i : Nat} {s : Symbol} (hs : s.isName) : Name i s.lexeme [s]

theorem Phrase.Name.spelled_eq {i : Nat} {w : String} {s : List Symbol} (h : Name i w s) :
    spelled s = w := by
  obtain ⟨hs⟩ := h
  simp [Symbol.spelling_of_isName hs]

/-- Words with dots between them are the text of the words and dots. -/
theorem joinDots_eq {i : Nat} {ws : List String} {s : List Symbol}
    (h : Many (Behind .dot Name) i ws s)
    (head : String) : joinDots head ws = head ++ spelled s := by
  induction h generalizing head with
  | nil => simp [joinDots]
  | @cons i w ws s t hw _ ih =>
    obtain ⟨hdot, hname⟩ := hw
    obtain ⟨hn⟩ := hname
    rw [joinDots, List.foldl_cons, ← joinDots, ih]
    simp [Symbol.spelling_of_isName hn, Symbol.spelling_of_kind hdot rfl, String.append_assoc]

/-- `["."]` -/
inductive OptionalDot : List Symbol → Prop
  | none : OptionalDot []
  | some {s : Symbol} (hs : s.kind = .dot) : OptionalDot [s]

section Names

variable (note : Extent → ν)

/-- `fullName = name { "." name }` -/
inductive FullName.Derives : Phrase (FullName ν)
  | mk {i : Nat} {w : String} {ws : List String} {s t : List Symbol} (head : Name i w s)
    (tail : Many (Behind .dot Name) (i + s.length) ws t) :
    Derives i ⟨spelled (s ++ t), note ⟨i, i + (s ++ t).length⟩⟩ (s ++ t)

theorem FullName.Derives.spelled_eq {i : Nat} {n : FullName ν} {s : List Symbol}
    (h : n.Derives note i s) : spelled s = n.text := by
  cases h
  rfl

/-- A name begins with a word. -/
theorem FullName.Derives.exists_cons {i : Nat} {n : FullName ν} {s : List Symbol}
    (h : n.Derives note i s) : ∃ first t, s = first :: t ∧ first.isName := by
  obtain ⟨⟨hs⟩, _⟩ := h
  exact ⟨_, _, rfl, hs⟩

/-- `extensionName = "(" ["."] fullName ")"` -/
inductive OptionName.Extension : Nat → List Symbol → Prop
  | mk {i : Nat} {l r : Symbol} {root t : List Symbol} {n : FullName ν} (hl : l.kind = .leftParen)
    (hroot : OptionalDot root) (hn : n.Derives note (i + 1 + root.length) t)
    (hr : r.kind = .rightParen) : Extension i (l :: (root ++ (t ++ [r])))

/-- `optionName = ( name | extensionName ) { "." name }` -/
inductive OptionName.Derives : Phrase (OptionName ν)
  | plain {i : Nat} {w : String} {ws : List String} {s t : List Symbol} (head : Name i w s)
    (tail : Many (Behind .dot Name) (i + s.length) ws t) :
    Derives i ⟨spelled (s ++ t), note ⟨i, i + (s ++ t).length⟩⟩ (s ++ t)
  | extension {i : Nat} {ws : List String} {s t : List Symbol} (head : Extension note i s)
    (tail : Many (Behind .dot Name) (i + s.length) ws t) :
    Derives i ⟨spelled (s ++ t), note ⟨i, i + (s ++ t).length⟩⟩ (s ++ t)

variable {note} in
/-- The name of an option begins with a word or a parenthesis. -/
theorem OptionName.Derives.exists_cons {i : Nat} {n : OptionName ν} {s : List Symbol}
    (h : n.Derives note i s) :
    ∃ first t, s = first :: t ∧ (first.isName ∨ first.kind = .leftParen) := by
  rcases h with ⟨⟨hs⟩, -⟩ | ⟨⟨hl, -, -, -⟩, -⟩
  · exact ⟨_, _, rfl, .inl hs⟩
  · exact ⟨_, _, rfl, .inr hl⟩

/-- `typeRef = primitiveType | ["."] identifier { "." name }` -/
inductive TypeRef.Derives : Phrase (TypeRef ν)
  | primitive {i : Nat} {s : Symbol} (hs : s.kind = .primitiveType) :
    Derives i ⟨s.lexeme, note ⟨i, i + 1⟩⟩ [s]
  | named {i : Nat} {s : Symbol} {ws : List String} {root t : List Symbol}
    (hroot : OptionalDot root)
    (hs : s.kind = .identifier) (tail : Many (Behind .dot Name) (i + root.length + 1) ws t) :
    Derives i ⟨spelled (root ++ s :: t), note ⟨i, i + (root ++ s :: t).length⟩⟩ (root ++ s :: t)

theorem startsType_of_isName {s : Symbol} (h : s.isName) : startsType s := by simp [startsType, h]

/-- What begins a type is a word or a dot. -/
theorem kind_of_startsType {s : Symbol} (h : startsType s) :
    s.kind = .identifier ∨ s.kind = .primitiveType ∨ s.kind = .dot := by
  simpa [startsType, Symbol.isName, Symbol.is, or_assoc] using h

theorem startsType_of_kind_dot {s : Symbol} (h : s.kind = .dot) : startsType s := by
  simp [startsType, Symbol.is, h]

variable {note} in
theorem TypeRef.Derives.loc_eq {i : Nat} {x : TypeRef ν} {s : List Symbol}
    (h : x.Derives note i s) : x.loc = note ⟨i, i + s.length⟩ := by
  cases h <;> rfl

variable {note} in
/-- A type begins with what begins types. -/
theorem TypeRef.Derives.exists_cons {i : Nat} {x : TypeRef ν} {s : List Symbol}
    (h : x.Derives note i s) : ∃ first t, s = first :: t ∧ startsType first := by
  cases h with
  | primitive hs =>
    exact ⟨_, _, rfl, startsType_of_isName (by simp [Symbol.isName, hs])⟩
  | named hroot hs =>
    cases hroot with
    | none => exact ⟨_, _, rfl, startsType_of_isName (Symbol.isName_of_kind hs)⟩
    | some hdot => exact ⟨_, _, rfl, startsType_of_kind_dot hdot⟩

variable {note} in
/-- In a type of two symbols or more the second is a dot, unless the first one is. -/
theorem TypeRef.Derives.kind_of_cons_cons {i : Nat} {x : TypeRef ν} {first next : Symbol}
    {t : List Symbol} (h : x.Derives note i (first :: next :: t)) (hk : first.kind ≠ .dot) :
    next.kind = .dot := by
  generalize hs : first :: next :: t = s at h
  cases h with
  | primitive => cases hs
  | named hroot _ tail =>
    cases hroot with
    | none =>
      obtain ⟨-, rfl⟩ := List.cons.inj hs
      exact tail.kind_of_cons
    | some hdot =>
      obtain ⟨rfl, -⟩ := List.cons.inj hs
      exact absurd hdot hk

variable {note} in
theorem TypeRef.Derives.startsType_next {i : Nat} {x : TypeRef ν} {first next : Symbol}
    {t : List Symbol} (h : x.Derives note i (first :: next :: t)) : startsType next := by
  by_cases hk : first.kind = .dot
  · generalize hs : first :: next :: t = s at h
    cases h with
    | primitive => cases hs
    | named hroot hname =>
      cases hroot with
      | none =>
        obtain ⟨rfl, -⟩ := List.cons.inj hs
        exact nomatch hname.symm.trans hk
      | some =>
        obtain ⟨-, hs⟩ := List.cons.inj hs
        obtain ⟨rfl, -⟩ := List.cons.inj hs
        exact startsType_of_isName (Symbol.isName_of_kind hname)
  · exact startsType_of_kind_dot (h.kind_of_cons_cons hk)

/-- What is made of two symbols or more has a first and a second one. -/
theorem exists_cons_cons_of_le {s : List Symbol} (h : 2 ≤ s.length) :
    ∃ first next t, s = first :: next :: t :=
  match s, h with
  | first :: next :: t, _ => ⟨first, next, t, rfl⟩

theorem kind_ne_eof_of_startsType {s : Symbol} (h : startsType s) : s.kind ≠ .eof := by
  rcases kind_of_startsType h with hk | hk | hk <;> simp [hk]

end Names

/-! ## Values -/

/-- `text = string` -/
inductive Phrase.Text : Phrase String
  | mk {i : Nat} {s : Symbol} {content : String} (hs : s.kind = .string)
    (hc : s.text? = some content) : Text i content [s]

/-- The sign of a number. -/
def signKind (negative : Bool) : Kind := if negative then .minus else .plus

/-- The number with a sign as a literal. -/
def Number.literal (negative : Bool) : Number → Literal
  | .integer n => .integer negative n
  | .float x => .float (if negative then x.negate else x)

/-- `literal = "true" | "false" | string | number | ("-" | "+") ( "inf" | "nan" | number )` -/
inductive Literal.Derives : Phrase Literal
  | bool {i : Nat} {s : Symbol} {b : Bool} (hs : s.isWord (if b then "true" else "false")) :
    Derives i (.bool b) [s]
  | text {i : Nat} {content : String} {t : List Symbol} (ht : Text i content t) :
    Derives i (.text content) t
  | number {i : Nat} {s : Symbol} {n : Number} (hs : s.kind = .number) (hn : s.number? = some n) :
    Derives i (n.literal false) [s]
  | signed {i : Nat} {sign s : Symbol} {negative : Bool} {n : Number}
    (hsign : sign.kind = signKind negative) (hn : s.number? = some n) (hinf : ¬s.isWord "inf")
    (hnan : ¬s.isWord "nan") : Derives i (n.literal negative) [sign, s]
  | infinity {i : Nat} {sign s : Symbol} {negative : Bool} (hsign : sign.kind = signKind negative)
    (hs : s.isWord "inf") : Derives i (.float (.infinity negative)) [sign, s]
  | nan {i : Nat} {sign s : Symbol} {negative : Bool} (hsign : sign.kind = signKind negative)
    (hs : s.isWord "nan") : Derives i (.float .nan) [sign, s]

/-- A literal is made of one symbol at least. -/
theorem Literal.Derives.pos {i : Nat} {v : Literal} {s : List Symbol} (h : v.Derives i s) :
    0 < s.length := by
  obtain - | ⟨⟨-, -⟩⟩ | - | - | - | - := h <;> simp

/-- `constant = fullName | literal`, a name other than `true` and `false` and not a
primitive type -/
inductive Constant.Derives (note : Extent → ν) : Phrase (Constant ν)
  | name {i : Nat} {s : Symbol} {t : List Symbol} {n : FullName ν} (hs : startsNameValue s)
    (hn : n.Derives note i (s :: t)) : Derives note i (.name n) (s :: t)
  | literal {i : Nat} {v : Literal} {t : List Symbol} (hv : v.Derives i t) :
    Derives note i (.literal v (note ⟨i, i + t.length⟩)) t

/-- `unsigned = number`, of 63 bits -/
inductive Phrase.Unsigned : Phrase Int
  | mk {i : Nat} {s : Symbol} {n : Nat} (hs : s.number? = some (.integer n))
    (hn : fitsInteger n) : Unsigned i n [s]

/-- `integer = ["-"] number`, of 64 bits with its sign -/
inductive Phrase.Integer : Phrase Int
  | plain {i : Nat} {n : Int} {s : Symbol} (h : Unsigned i n [s]) (hs : s.kind ≠ .minus) :
    Integer i n [s]
  | negative {i : Nat} {minus s : Symbol} {n : Nat} (hm : minus.kind = .minus)
    (hs : s.number? = some (.integer n)) (hn : fitsInteger (-n)) : Integer i (-n) [minus, s]

/-- `range = bare [ "to" ( "max" | bare ) ]` -/
inductive NumberRange.Derives (bare : Phrase Int) : Phrase NumberRange
  | single {i : Nat} {n : Int} {s : List Symbol} (hn : bare i n s) : Derives bare i (.single n) s
  | toMax {i : Nat} {n : Int} {s : List Symbol} {mid max : Symbol} (hn : bare i n s)
    (hto : mid.isWord "to") (hmax : max.isWord "max") :
    Derives bare i (.span n .max) (s ++ [mid, max])
  | span {i : Nat} {n m : Int} {s t : List Symbol} {mid : Symbol} (hn : bare i n s)
    (hto : mid.isWord "to") (hm : bare (i + s.length + 1) m t)
    (hmax : ∀ first ∈ t.head?, ¬first.isWord "max") :
    Derives bare i (.span n (.number m)) (s ++ mid :: t)

/-! ## Options -/

section Options

variable (note : Extent → ν)

/-- `entry = optionName "=" constant` -/
inductive Setting.DerivesEntry : Phrase (Setting ν)
  | mk {i : Nat} {eq : Symbol} {s t : List Symbol} {n : OptionName ν} {v : Constant ν}
    (hn : n.Derives note i s) (heq : eq.kind = .equal)
    (hv : v.Derives note (i + s.length + 1) t) :
    DerivesEntry i ⟨n, v, note ⟨i, i + (s ++ eq :: t).length⟩⟩ (s ++ eq :: t)

/-- `bracketed = [ "[" entry { "," entry } "]" ]` -/
inductive Setting.Bracketed : Phrase (List (Setting ν))
  | none {i : Nat} : Bracketed i [] []
  | some {i : Nat} {l r : Symbol} {xs : List (Setting ν)} {t : List Symbol}
    (hl : l.kind = .leftBracket) (hxs : Separated (Setting.DerivesEntry note) (i + 1) xs t)
    (hr : r.kind = .rightBracket) : Bracketed i xs (l :: (t ++ [r]))

/-- `setting = "option" optionName "=" constant ";"` -/
inductive Setting.Derives : Phrase (Setting ν)
  | mk {i : Nat} {word eq semi : Symbol} {s t : List Symbol} {n : OptionName ν} {v : Constant ν}
    (hword : word.isWord "option") (hn : n.Derives note (i + 1) s) (heq : eq.kind = .equal)
    (hv : v.Derives note (i + 1 + s.length + 1) t) (hsemi : semi.kind = .semicolon) :
    Derives i ⟨n, v, note ⟨i, i + (word :: (s ++ eq :: (t ++ [semi]))).length⟩⟩
      (word :: (s ++ eq :: (t ++ [semi])))

end Options

/-! ## Fields -/

section Fields

variable (bare : Phrase Int) (config : Config) (note : Extent → ν)

/-- `fieldNumber = bare`, which the configuration admits -/
inductive Phrase.FieldNumber : Phrase Int
  | mk {i : Nat} {n : Int} {s : List Symbol} (hn : bare i n s)
    (ha : 0 ≤ n ∨ config.allowNegative) : FieldNumber i n s

/-- `numbered = name "=" fieldNumber bracketed` -/
inductive Phrase.Numbered : Phrase (String × Int × List (Setting ν))
  | mk {i : Nat} {name eq : Symbol} {n : Int} {options : List (Setting ν)} {s t : List Symbol}
    (hname : name.isName) (heq : eq.kind = .equal) (hn : FieldNumber bare config (i + 2) n s)
    (ho : Setting.Bracketed note (i + 2 + s.length) options t) :
    Numbered i (name.lexeme, n, options) (name :: eq :: (s ++ t))

variable {bare config note} in
/-- What has a number begins with a name. -/
theorem Phrase.Numbered.exists_cons {i : Nat} {x : String × Int × List (Setting ν)}
    {s : List Symbol}
    (h : Numbered bare config note i x s) : ∃ name t, s = name :: t ∧ name.isName := by
  obtain ⟨hname, -⟩ := h
  exact ⟨_, _, rfl, hname⟩

/-- `field = [label] typeRef numbered ";"`, the number with or without a sign, and a label word
always being the label -/
inductive Field.Derives : Phrase (Field ν)
  | labelled {i : Nat} {l semi : Symbol} {label : Label} {type : TypeRef ν} {name : String}
    {n : Int} {options : List (Setting ν)} {s t : List Symbol} (hl : labelOf? l = some label)
    (htype : type.Derives note (i + 1) s)
    (hn : Numbered Integer config note (i + 1 + s.length) (name, n, options) t)
    (hsemi : semi.kind = .semicolon) :
    Derives i ⟨some label, some type, name, n, options,
      note ⟨i, i + (l :: (s ++ (t ++ [semi]))).length⟩⟩ (l :: (s ++ (t ++ [semi])))
  | plain {i : Nat} {first semi : Symbol} {type : TypeRef ν} {name : String} {n : Int}
    {options : List (Setting ν)} {s t : List Symbol} (hl : labelOf? first = none)
    (htype : type.Derives note i (first :: s))
    (hn : Numbered Integer config note (i + 1 + s.length) (name, n, options) t)
    (hsemi : semi.kind = .semicolon) :
    Derives i ⟨none, some type, name, n, options,
      note ⟨i, i + (first :: (s ++ (t ++ [semi]))).length⟩⟩ (first :: (s ++ (t ++ [semi])))

variable {config note} in
/-- A field is made of two symbols at least. -/
theorem Field.Derives.exists_cons_cons {i : Nat} {x : Field ν} {s : List Symbol}
    (h : x.Derives config note i s) : ∃ first next t, s = first :: next :: t := by
  exact exists_cons_cons_of_le (by cases h <;> simp <;> omega)

variable {config note} in
/-- In a field the second symbol goes on with the type, begins it behind a label, or is the name. -/
theorem Field.Derives.startsType_next {i : Nat} {x : Field ν} {first next : Symbol}
    {s : List Symbol} (h : x.Derives config note i (first :: next :: s)) : startsType next := by
  generalize hs : first :: next :: s = t at h
  cases h with
  | labelled hl htype =>
    obtain ⟨a, u, rfl, ha⟩ := htype.exists_cons
    obtain ⟨-, hs⟩ := List.cons.inj hs
    obtain ⟨rfl, -⟩ := List.cons.inj hs
    exact ha
  | @plain _ _ _ _ _ _ _ u v _ htype hn =>
    obtain ⟨rfl, hnext⟩ := List.cons.inj hs
    cases u with
    | nil =>
      obtain ⟨name, w, rfl, hname⟩ := hn.exists_cons
      obtain ⟨rfl, -⟩ := List.cons.inj hnext
      exact startsType_of_isName hname
    | cons a u =>
      obtain ⟨rfl, -⟩ := List.cons.inj hnext
      exact htype.startsType_next

/-- `mapField = "map" "<" primitiveType "," typeRef ">" numbered ";"` -/
inductive MapField.Derives : Phrase (MapField ν)
  | mk {i : Nat} {word less key comma greater semi : Symbol} {type : TypeRef ν} {name : String}
    {n : Int} {options : List (Setting ν)} {s t : List Symbol} (hword : word.isWord "map")
    (hless : less.kind = .less) (hkey : key.kind = .primitiveType) (hcomma : comma.kind = .comma)
    (htype : type.Derives note (i + 4) s) (hgreater : greater.kind = .greater)
    (hn : Numbered bare config note (i + 4 + s.length + 1) (name, n, options) t)
    (hsemi : semi.kind = .semicolon) :
    Derives i ⟨key.lexeme, type, name, n, options,
      note ⟨i, i + (word :: less :: key :: comma :: (s ++ greater :: (t ++ [semi]))).length⟩⟩
      (word :: less :: key :: comma :: (s ++ greater :: (t ++ [semi])))

/-- `enumValue = name "=" integer bracketed ";"` -/
inductive Field.DerivesValue : Phrase (Field ν)
  | mk {i : Nat} {name eq semi : Symbol} {n : Int} {options : List (Setting ν)} {s t : List Symbol}
    (hname : name.isName) (heq : eq.kind = .equal) (hn : Integer (i + 2) n s)
    (ho : Setting.Bracketed note (i + 2 + s.length) options t) (hsemi : semi.kind = .semicolon) :
    DerivesValue i ⟨none, none, name.lexeme, n, options,
      note ⟨i, i + (name :: eq :: (s ++ (t ++ [semi]))).length⟩⟩
      (name :: eq :: (s ++ (t ++ [semi])))

/-! ## Statements of a message body -/

/-- `extensions = "extensions" range { "," range } bracketed ";"` -/
inductive Extensions.Derives : Phrase (Extensions ν)
  | mk {i : Nat} {word semi : Symbol} {ranges : List NumberRange} {options : List (Setting ν)}
    {s t : List Symbol} (hword : word.isWord "extensions")
    (hr : Separated (NumberRange.Derives bare) (i + 1) ranges s)
    (ho : Setting.Bracketed note (i + 1 + s.length) options t) (hsemi : semi.kind = .semicolon) :
    Derives i ⟨ranges, options, note ⟨i, i + (word :: (s ++ (t ++ [semi]))).length⟩⟩
      (word :: (s ++ (t ++ [semi])))

variable {bare note} in
theorem Extensions.Derives.exists_cons_cons {i : Nat} {x : Extensions ν} {s : List Symbol}
    (h : x.Derives bare note i s) : ∃ word next t, s = word :: next :: t := by
  obtain ⟨-⟩ := h
  exact exists_cons_cons_of_le (by simp; omega)

/-- `reservedItems = text { "," text } | range { "," range }` -/
inductive ReservedItems.Derives : Phrase ReservedItems
  | names {i : Nat} {names : List String} {s : List Symbol} (h : Separated Text i names s) :
    Derives i (.names names) s
  | ranges {i : Nat} {ranges : List NumberRange} {s : List Symbol}
    (h : Separated (NumberRange.Derives bare) i ranges s)
    (hs : ∀ first ∈ s.head?, first.kind ≠ .string) : Derives i (.ranges ranges) s

/-- `reserved = "reserved" reservedItems ";"` -/
inductive Reserved.Derives : Phrase (Reserved ν)
  | mk {i : Nat} {word semi : Symbol} {items : ReservedItems} {s : List Symbol}
    (hword : word.isWord "reserved") (hitems : items.Derives bare (i + 1) s)
    (hsemi : semi.kind = .semicolon) :
    Derives i ⟨items, note ⟨i, i + (word :: (s ++ [semi])).length⟩⟩ (word :: (s ++ [semi]))

variable {bare note} in
theorem Reserved.Derives.exists_cons_cons {i : Nat} {x : Reserved ν} {s : List Symbol}
    (h : x.Derives bare note i s) : ∃ word next t, s = word :: next :: t := by
  obtain ⟨-⟩ := h
  exact exists_cons_cons_of_le (by simp)

/-- `oneOfItem = setting | field`, where `option` begins a field only in front of a dot -/
inductive Grammar.OneOfItem.Derives : Phrase (OneOfItem ν)
  | setting {i : Nat} {x : Setting ν} {s : List Symbol} (h : x.Derives note i s) :
    Derives i (.setting x) s
  | field {i : Nat} {x : Field ν} {first next : Symbol} {s : List Symbol}
    (h : x.Derives config note i (first :: next :: s))
    (hfirst : first.isWord "option" → next.kind = .dot) :
    Derives i (.field x) (first :: next :: s)

/-- `oneOf = "oneof" name "{" { oneOfItem | ";" } "}"` -/
inductive OneOf.Derives : Phrase (OneOf ν)
  | mk {i : Nat} {word name : Symbol} {items : List (OneOfItem ν)} {s : List Symbol}
    (hword : word.isWord "oneof") (hname : name.isName)
    (hitems : Block (OneOfItem.Derives config note) (i + 2) items s) :
    Derives i ⟨name.lexeme, items.filterMap OneOfItem.setting?, items.filterMap OneOfItem.field?,
      note ⟨i, i + (word :: name :: s).length⟩⟩ (word :: name :: s)

/-- `enumItem = setting | reserved | enumValue` -/
inductive Grammar.EnumItem.Derives : Phrase (EnumItem ν)
  | setting {i : Nat} {x : Setting ν} {s : List Symbol} (h : x.Derives note i s) :
    Derives i (.setting x) s
  | reserved {i : Nat} {x : Reserved ν} {word next : Symbol} {s : List Symbol}
    (h : x.Derives bare note i (word :: next :: s)) (hnext : next.kind ≠ .equal) :
    Derives i (.reserved x) (word :: next :: s)
  | value {i : Nat} {x : Field ν} {s : List Symbol} (h : x.DerivesValue note i s) :
    Derives i (.value x) s

/-- `enum = "enum" name "{" { enumItem | ";" } "}"` -/
inductive EnumType.Derives : Phrase (EnumType ν)
  | mk {i : Nat} {word name : Symbol} {items : List (EnumItem ν)} {s : List Symbol}
    (hword : word.isWord "enum") (hname : name.isName)
    (hitems : Block (EnumItem.Derives bare note) (i + 2) items s) :
    Derives i ⟨name.lexeme, items.filterMap EnumItem.setting?, items.filterMap EnumItem.value?,
      items.filterMap EnumItem.reserved?, note ⟨i, i + (word :: name :: s).length⟩⟩
      (word :: name :: s)

/-! ## Blocks -/

/-- Whether a group begins with the two symbols, whatever the body. -/
def startsGroup (first next : Symbol) : Bool := next.isWord "group" && (labelOf? first).isSome

/-- The words that name the statements of a message body. -/
def statementWords : List String :=
  ["message", "enum", "extend", "extensions", "option", "oneof", "reserved"]

/-- Whether what begins with the two symbols can be a field.  In front of a dot every word is the
start of a type in a message body. -/
def Body.readsField : Body → Symbol → Symbol → Bool
  | .message, first, next =>
    next.is .dot ||
      !(first.is .identifier && statementWords.contains first.lexeme) && !startsGroup first next
  | .extension, first, next => !startsGroup first next

/-- What is no statement of its own in a message body, and no group, can be a field. -/
theorem Body.readsField_of_not_word {first next : Symbol} (hgroup : ¬startsGroup first next)
    (hwords : ∀ w ∈ statementWords, ¬first.isWord w) : Body.message.readsField first next := by
  have hplain : (first.is .identifier && statementWords.contains first.lexeme) = false := by
    rw [Bool.and_eq_false_imp]
    intro hk
    rw [Bool.eq_false_iff, ne_eq, List.contains_iff_mem]
    exact fun hmem ↦ hwords _ hmem (Symbol.isWord_iff.mpr ⟨Symbol.is_iff.mp hk, rfl⟩)
  rw [Body.readsField, hplain, Bool.eq_false_iff.mpr hgroup]
  exact Bool.or_true _

section Members

variable (inner : Body → Phrase (List (Member ν)))

/-- `message = "message" name messageBody` -/
inductive Member.DerivesMessage : Phrase (Member ν)
  | mk {i : Nat} {word name : Symbol} {xs : List (Member ν)} {s : List Symbol}
    (hword : word.isWord "message") (hname : name.isName) (hbody : inner .message (i + 2) xs s) :
    DerivesMessage i (.block (.message name.lexeme) xs (note ⟨i, i + (word :: name :: s).length⟩))
      (word :: name :: s)

/-- `group = label "group" numbered messageBody` -/
inductive Member.DerivesGroup : Phrase (Member ν)
  | mk {i : Nat} {l word : Symbol} {label : Label} {name : String} {n : Int}
    {options : List (Setting ν)} {xs : List (Member ν)} {s t : List Symbol}
    (hl : labelOf? l = some label) (hword : word.isWord "group")
    (hn : Numbered bare config note (i + 2) (name, n, options) s)
    (hbody : inner .message (i + 2 + s.length) xs t) :
    DerivesGroup i (.block (.group label name n options) xs
      (note ⟨i, i + (l :: word :: (s ++ t)).length⟩)) (l :: word :: (s ++ t))

/-- `extend = "extend" typeRef extensionBody` -/
inductive Member.DerivesExtend : Phrase (Member ν)
  | mk {i : Nat} {word : Symbol} {type : TypeRef ν} {xs : List (Member ν)} {s t : List Symbol}
    (hword : word.isWord "extend") (htype : type.Derives note (i + 1) s)
    (hbody : inner .extension (i + 1 + s.length) xs t) :
    DerivesExtend i (.block (.extend type) xs (note ⟨i, i + (word :: (s ++ t)).length⟩))
      (word :: (s ++ t))

variable {note inner} in
theorem Member.DerivesExtend.exists_cons_cons {i : Nat} {x : Member ν} {s : List Symbol}
    (h : x.DerivesExtend note inner i s) : ∃ word next t, s = word :: next :: t := by
  cases h with
  | mk _ htype _ =>
    obtain ⟨next, t, rfl, -⟩ := htype.exists_cons
    exact ⟨_, _, _, rfl⟩

/-- A member of a body: `field | group`, and in a message body also
`message | enum | extend | extensions | setting | oneOf | reserved | mapField` -/
inductive Member.Derives : Body → Phrase (Member ν)
  | field {b : Body} {i : Nat} {x : Field ν} {first next : Symbol} {s : List Symbol}
    (h : x.Derives config note i (first :: next :: s)) (hb : b.readsField first next) :
    Derives b i (.field x) (first :: next :: s)
  | group {b : Body} {i : Nat} {x : Member ν} {s : List Symbol}
    (h : DerivesGroup bare config note inner i x s) : Derives b i x s
  | message {i : Nat} {x : Member ν} {s : List Symbol} (h : DerivesMessage note inner i x s) :
    Derives .message i x s
  | enumType {i : Nat} {x : EnumType ν} {s : List Symbol} (h : x.Derives bare note i s) :
    Derives .message i (.enumType x) s
  | extend {i : Nat} {x : Member ν} {word next : Symbol} {s : List Symbol}
    (h : DerivesExtend note inner i x (word :: next :: s)) (hnext : next.kind ≠ .dot) :
    Derives .message i x (word :: next :: s)
  | extensions {i : Nat} {x : Extensions ν} {word next : Symbol} {s : List Symbol}
    (h : x.Derives bare note i (word :: next :: s)) (hnext : next.kind ≠ .dot) :
    Derives .message i (.extensions x) (word :: next :: s)
  | setting {i : Nat} {x : Setting ν} {s : List Symbol} (h : x.Derives note i s) :
    Derives .message i (.setting x) s
  | oneOf {i : Nat} {x : OneOf ν} {s : List Symbol} (h : x.Derives config note i s) :
    Derives .message i (.oneOf x) s
  | reserved {i : Nat} {x : Reserved ν} {word next : Symbol} {s : List Symbol}
    (h : x.Derives bare note i (word :: next :: s)) (hnext : next.kind ≠ .dot) :
    Derives .message i (.reserved x) (word :: next :: s)
  | mapField {i : Nat} {x : MapField ν} {s : List Symbol} (h : x.Derives bare config note i s) :
    Derives .message i (.mapField x) s

end Members

/-- `messageBody = "{" { member | ";" } "}"`, and the same of `extensionBody`, at most `depth` of
them in each other -/
def Body.Derives : (depth : Nat) → Body → Phrase (List (Member ν))
  | 0, _ => fun _ _ _ => False
  | depth + 1, b => Block (Member.Derives bare config note (Body.Derives depth) b)

section

variable {bare : Phrase Int} {config : Config} {note : Extent → ν} {depth : Nat} {b : Body}
  {i : Nat} {xs : List (Member ν)} {s : List Symbol}

/-- A body begins with a brace. -/
theorem Body.Derives.exists_cons (h : Body.Derives bare config note depth b i xs s) :
    ∃ l t, s = l :: t ∧ l.kind = .leftBrace := by
  cases depth with
  | zero => exact h.elim
  | succ depth =>
    obtain ⟨hl, -, -⟩ := h
    exact ⟨_, _, rfl, hl⟩

theorem Body.Derives.ne_nil (h : Body.Derives bare config note depth b i xs s) : s ≠ [] := by
  obtain ⟨l, t, rfl, -⟩ := h.exists_cons
  exact List.cons_ne_nil l t

end

/-! ## Services -/

/-- `endpoint = "(" ["stream"] typeRef ")"`, where `stream` begins a type only if it is all of it -/
inductive Rpc.Endpoint : Phrase (Bool × TypeRef ν)
  | plain {i : Nat} {l first r : Symbol} {type : TypeRef ν} {s : List Symbol}
    (hl : l.kind = .leftParen) (htype : type.Derives note (i + 1) (first :: s))
    (hfirst : first.isWord "stream" → s = []) (hr : r.kind = .rightParen) :
    Endpoint i (false, type) (l :: first :: (s ++ [r]))
  | stream {i : Nat} {l word r : Symbol} {type : TypeRef ν} {s : List Symbol}
    (hl : l.kind = .leftParen) (hword : word.isWord "stream") (htype : type.Derives note (i + 2) s)
    (hr : r.kind = .rightParen) : Endpoint i (true, type) (l :: word :: (s ++ [r]))

/-- `rpcEnd = ";" | "{" { setting | ";" } "}"` -/
inductive Rpc.End : Phrase (List (Setting ν))
  | semicolon {i : Nat} {semi : Symbol} (hsemi : semi.kind = .semicolon) : End i [] [semi]
  | block {i : Nat} {xs : List (Setting ν)} {s : List Symbol}
    (h : Block (Setting.Derives note) i xs s) : End i xs s

variable {note} in
theorem Rpc.End.ne_nil {i : Nat} {xs : List (Setting ν)} {s : List Symbol}
    (h : Rpc.End note i xs s) : s ≠ [] := by
  rcases h with _ | ⟨⟨_, _, _⟩⟩ <;> exact List.cons_ne_nil _ _

/-- `rpc = "rpc" name endpoint "returns" endpoint rpcEnd` -/
inductive Rpc.Derives : Phrase (Rpc ν)
  | mk {i : Nat} {word name returns : Symbol} {inputStream outputStream : Bool}
    {input output : TypeRef ν} {options : List (Setting ν)} {s t u : List Symbol}
    (hword : word.isWord "rpc") (hname : name.isName)
    (hin : Endpoint note (i + 2) (inputStream, input) s) (hreturns : returns.isWord "returns")
    (hout : Endpoint note (i + 2 + s.length + 1) (outputStream, output) t)
    (hend : End note (i + 2 + s.length + 1 + t.length) options u) :
    Derives i ⟨name.lexeme, inputStream, input, outputStream, output, options,
      note ⟨i, i + (word :: name :: (s ++ returns :: (t ++ u))).length⟩⟩
      (word :: name :: (s ++ returns :: (t ++ u)))

/-- `serviceItem = setting | rpc` -/
inductive ServiceItem.Derives : Phrase (ServiceItem ν)
  | setting {i : Nat} {x : Setting ν} {s : List Symbol} (h : x.Derives note i s) :
    Derives i (.setting x) s
  | rpc {i : Nat} {x : Rpc ν} {s : List Symbol} (h : x.Derives note i s) : Derives i (.rpc x) s

/-- `service = "service" name "{" { serviceItem | ";" } "}"` -/
inductive Service.Derives : Phrase (Service ν)
  | mk {i : Nat} {word name : Symbol} {items : List (ServiceItem ν)} {s : List Symbol}
    (hword : word.isWord "service") (hname : name.isName)
    (hitems : Block (ServiceItem.Derives note) (i + 2) items s) :
    Derives i ⟨name.lexeme, items, note ⟨i, i + (word :: name :: s).length⟩⟩ (word :: name :: s)

/-! ## Files -/

/-- `[ "weak" | "public" ]` -/
inductive Import.Modifier : Option ImportModifier → List Symbol → Prop
  | none : Modifier none []
  | some {m : ImportModifier} {s : Symbol} (hs : s.isWord m.word) : Modifier (some m) [s]

/-- `import = "import" [ "weak" | "public" ] text ";"` -/
inductive Import.Derives : Phrase (Import ν)
  | mk {i : Nat} {word semi : Symbol} {file : String} {modifier? : Option ImportModifier}
    {s t : List Symbol} (hword : word.isWord "import") (hm : Modifier modifier? s)
    (hfile : Text (i + 1 + s.length) file t) (hsemi : semi.kind = .semicolon) :
    Derives i ⟨file, modifier?, note ⟨i, i + (word :: (s ++ (t ++ [semi]))).length⟩⟩
      (word :: (s ++ (t ++ [semi])))

/-- `package = "package" fullName ";"` -/
inductive Package.Derives : Phrase (Package ν)
  | mk {i : Nat} {word semi : Symbol} {name : FullName ν} {s : List Symbol}
    (hword : word.isWord "package") (hname : name.Derives note (i + 1) s)
    (hsemi : semi.kind = .semicolon) :
    Derives i ⟨name, note ⟨i, i + (word :: (s ++ [semi])).length⟩⟩ (word :: (s ++ [semi]))

/-- `directive = import | package | setting | message | enum | extend | service` -/
inductive Directive.Derives : Phrase (Directive ν)
  | importFile {i : Nat} {x : Import ν} {s : List Symbol} (h : x.Derives note i s) :
    Derives i (.importFile x) s
  | package {i : Nat} {x : Package ν} {s : List Symbol} (h : x.Derives note i s) :
    Derives i (.package x) s
  | setting {i : Nat} {x : Setting ν} {s : List Symbol} (h : x.Derives note i s) :
    Derives i (.member (.setting x)) s
  | message {i : Nat} {x : Member ν} {s : List Symbol}
    (h : x.DerivesMessage note (Body.Derives bare config note config.maxDepth) i s) :
    Derives i (.member x) s
  | enumType {i : Nat} {x : EnumType ν} {s : List Symbol} (h : x.Derives bare note i s) :
    Derives i (.member (.enumType x)) s
  | extend {i : Nat} {x : Member ν} {s : List Symbol}
    (h : x.DerivesExtend note (Body.Derives bare config note config.maxDepth) i s) :
    Derives i (.member x) s
  | service {i : Nat} {x : Service ν} {s : List Symbol} (h : x.Derives note i s) :
    Derives i (.service x) s

/-- `version = "syntax" "=" text ";"`, where the text is the name of a version -/
inductive VersionStatement.Derives : Phrase (VersionStatement ν)
  | mk {i : Nat} {word eq semi : Symbol} {text : String} {v : Version} {s : List Symbol}
    (hword : word.isWord "syntax") (heq : eq.kind = .equal) (htext : Text (i + 2) text s)
    (hv : Version.ofText? text = some v) (hsemi : semi.kind = .semicolon) :
    Derives i ⟨v, note ⟨i, i + (word :: eq :: (s ++ [semi])).length⟩⟩ (word :: eq :: (s ++ [semi]))

/-- `[ version ]` -/
inductive VersionStatement.Optional : Phrase (Option (VersionStatement ν))
  | none {i : Nat} : Optional i none []
  | some {i : Nat} {v : VersionStatement ν} {s : List Symbol} (h : v.Derives note i s) :
    Optional i (some v) s

/-- `schema = [ version ] { directive | ";" }` -/
inductive Schema.Derives : Phrase (Schema ν)
  | mk {i : Nat} {v? : Option (VersionStatement ν)} {ds : List (Directive ν)} {s t : List Symbol}
    (hv : VersionStatement.Optional note i v? s)
    (hds : Statements (Directive.Derives bare config note) (i + s.length) ds t) :
    Derives i ⟨v?, ds⟩ (s ++ t)

end Fields

end ProtoSchema
