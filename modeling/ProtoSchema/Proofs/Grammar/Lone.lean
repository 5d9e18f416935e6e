import ProtoSchema.Proofs.Grammar.Completeness.Parse
import ProtoSchema.Proofs.Grammar.Dotted

/-!
# A statement by itself

What a statement is depends on the body that it stands in.  A `Lone` statement is all of its body,
be it that of a file, a message, an extension, a oneof, an enum or a service.  With the heading and
the braces of the body around it the text of the statement is that of a file, and how the file is
read is a question about the symbols of the statement alone (`Lone.exists_parse`).

This is for statements about a text that stands in a body: that something written by hand is read as
one statement or another, or is none (`ProtoSchema.Proofs.Grammar.Failing`).

## What is here

* `Host` — the six sorts of bodies.  `Host.opening` and `Host.closing` are what stands around the
  statements of a body, as text, and `Host.openingSymbols` and `Host.closingSymbols` as symbols;
  that the ones spell the others is `Host.spells_opening` and `Host.spells_closing`.
* `Lone` — a statement in a body of any sort.  `Lone.schema` is the file around it, and
  `Lone.Derives` the line of the grammar for it.
* `Lone.Derives.schema` — the symbols of the statement, with those of its body, derive the file.
* `exists_parse_of_spells` — a text whose symbols derive a file is read as that file.
* `Lone.exists_parse` — so a text is read as the statement if its symbols derive the statement.
-/

set_option autoImplicit false

namespace ProtoSchema

open Grammar Phrase

/-! ## Bodies -/

/-- The sorts of bodies that statements stand in. -/
inductive Host where
  | file | message | extension | oneOf | enumType | service
  deriving DecidableEq, Repr

namespace Host

/-- What stands in front of the statements of a body. -/
def opening : Host → String
  | file => ""
  | message => "message M \x7b"
  | extension => "extend E \x7b"
  | oneOf => "message M \x7b oneof o \x7b"
  | enumType => "enum E \x7b"
  | service => "service S \x7b"

/-- What stands behind the statements of a body. -/
def closing : Host → String
  | file => ""
  | oneOf => "\x7d \x7d"
  | message | extension | enumType | service => "\x7d"

/-- The text of a statement with a body around it. -/
def around (h : Host) (text : String) : String := h.opening ++ text ++ h.closing

/-- The symbols of what stands in front of the statements of a body. -/
def openingSymbols : Host → List Symbol
  | file => []
  | message => [.word "message", .word "M", .mark .leftBrace]
  | extension => [.word "extend", .word "E", .mark .leftBrace]
  | oneOf => [.word "message", .word "M", .mark .leftBrace, .word "oneof", .word "o",
      .mark .leftBrace]
  | enumType => [.word "enum", .word "E", .mark .leftBrace]
  | service => [.word "service", .word "S", .mark .leftBrace]

/-- The symbols of what stands behind them. -/
def closingSymbols : Host → List Symbol
  | file => []
  | oneOf => [.mark .rightBrace, .mark .rightBrace]
  | message | extension | enumType | service => [.mark .rightBrace]

/-- A heading of two words and the brace behind it. -/
theorem spells_heading {q : Char → Bool} {word name text : String} (hword : IsWord word)
    (hname : IsWord name) (htext : text = word ++ " " ++ (name ++ " \x7b")) :
    Spells q text [.word word, .word name, .mark .leftBrace] := by
  have hbrace : Spells q " \x7b" [.mark .leftBrace] :=
    Spells.blank.append (Spells.mark (c := '\x7b') rfl rfl)
  rw [htext]
  exact (Spells.keyword hword rfl).append
    ((Spells.word hname).append_of_head hbrace (c := ' ') rfl rfl)

/-- The brace that ends a body. -/
theorem spells_brace {q : Char → Bool} : Spells q "\x7d" [.mark .rightBrace] :=
  Spells.mark (c := '\x7d') rfl rfl

/-- What stands in front of the statements of a body spells these symbols. -/
theorem spells_opening {q : Char → Bool} (h : Host) : Spells q h.opening h.openingSymbols := by
  have hmessage : Spells q "message M \x7b" [.word "message", .word "M", .mark .leftBrace] :=
    spells_heading (isWord_of_all rfl rfl) (isWord_of_all rfl rfl) rfl
  cases h with
  | file => exact .nil
  | message => exact hmessage
  | oneOf =>
    have honeOf : Spells q "oneof o \x7b" [.word "oneof", .word "o", .mark .leftBrace] :=
      spells_heading (isWord_of_all rfl rfl) (isWord_of_all rfl rfl) rfl
    have hopen : Spells anything "message M \x7b" [.word "message", .word "M", .mark .leftBrace] :=
      spells_heading (isWord_of_all rfl rfl) (isWord_of_all rfl rfl) rfl
    exact hopen.append (Spells.blank.append honeOf)
  | extension | enumType | service =>
    exact spells_heading (isWord_of_all rfl rfl) (isWord_of_all rfl rfl) rfl

/-- So does what stands behind them. -/
theorem spells_closing {q : Char → Bool} (h : Host) : Spells q h.closing h.closingSymbols := by
  cases h with
  | file => exact .nil
  | oneOf => exact spells_brace.append (Spells.blank.append spells_brace)
  | message | extension | enumType | service => exact spells_brace

/-- A text with a body around it spells its own symbols and those of the body. -/
theorem spells_around {q : Char → Bool} {text : String} {ss : List Symbol} (h : Host)
    (htext : Spells anything text ss) :
    Spells q (h.around text) (h.openingSymbols ++ ss ++ h.closingSymbols) :=
  (h.spells_opening.append htext).append h.spells_closing

end Host

/-! ## Statements -/

/-- A statement that is all of a body. -/
inductive Lone (ν : Type) where
  | file (x : Directive ν)
  | message (x : Member ν)
  | extension (x : Member ν)
  | oneOf (x : OneOfItem ν)
  | enumType (x : EnumItem ν)
  | service (x : ServiceItem ν)

namespace Lone

/-- The sort of the body that the statement stands in. -/
def host {ν : Type} : Lone ν → Host
  | file _ => .file
  | message _ => .message
  | extension _ => .extension
  | oneOf _ => .oneOf
  | enumType _ => .enumType
  | service _ => .service

/-- The file that has the statement in its body. -/
def schema : Lone Unit → Schema Unit
  | file x => ⟨none, [x]⟩
  | message x => ⟨none, [.member (.block (.message "M") [x] ())]⟩
  | extension x => ⟨none, [.member (.block (.extend ⟨"E", ()⟩) [x] ())]⟩
  | oneOf x => ⟨none, [.member (.block (.message "M")
      [.oneOf ⟨"o", [x].filterMap OneOfItem.setting?, [x].filterMap OneOfItem.field?, ()⟩] ())]⟩
  | enumType x => ⟨none, [.member (.enumType ⟨"E", [x].filterMap EnumItem.setting?,
      [x].filterMap EnumItem.value?, [x].filterMap EnumItem.reserved?, ()⟩)]⟩
  | service x => ⟨none, [.service ⟨"S", [x], ()⟩]⟩

/-- The phrase of the statement in its body. -/
inductive Derives (config : Config) : Phrase (Lone Unit)
  | file {i : Nat} {x : Directive Unit} {s : List Symbol}
    (h : x.Derives Integer config noNote i s) : Derives config i (.file x) s
  | message {i depth : Nat} {x : Member Unit} {s : List Symbol}
    (hdepth : config.maxDepth = depth + 1)
    (h : x.Derives Integer config noNote (Body.Derives Integer config noNote depth) .message i s) :
    Derives config i (.message x) s
  | extension {i depth : Nat} {x : Member Unit} {s : List Symbol}
    (hdepth : config.maxDepth = depth + 1)
    (h : x.Derives Integer config noNote (Body.Derives Integer config noNote depth)
      .extension i s) :
    Derives config i (.extension x) s
  | oneOf {i : Nat} {x : OneOfItem Unit} {s : List Symbol} (hdepth : config.maxDepth ≠ 0)
    (h : x.Derives config noNote i s) : Derives config i (.oneOf x) s
  | enumType {i : Nat} {x : EnumItem Unit} {s : List Symbol} (h : x.Derives Integer noNote i s) :
    Derives config i (.enumType x) s
  | service {i : Nat} {x : ServiceItem Unit} {s : List Symbol} (h : x.Derives noNote i s) :
    Derives config i (.service x) s

end Lone

/-- A text is read as what its symbols derive. -/
theorem exists_parse_of_spells {q : Char → Bool} {text : String} {ss : List Symbol}
    {config : Config}
    {y : Schema Unit} (htext : Spells q text ss) (h : y.Derives Integer config noNote 0 ss) :
    ∃ d, parse text config = .ok d ∧ d.schema.erase = y := by
  obtain ⟨hdivides, hcomment⟩ := htext.scans.divides
  exact exists_parse_of_divides hdivides ((uncommented_eq_self hcomment).symm ▸ h)

/-- A block of one statement. -/
theorem Phrase.Block.singleton {α : Type} {p : Phrase α} {i : Nat} {x : α} {s : List Symbol}
    (h : p (i + 1) x s) : Block p i [x] (.mark .leftBrace :: (s ++ [.mark .rightBrace])) := by
  have hstatements := Statements.cons h .nil
  rw [List.append_nil] at hstatements
  exact .mk rfl hstatements rfl

namespace Lone

variable {config : Config} {s : List Symbol}

/-- The symbols of the statement, with those of the body around them, are the file. -/
theorem Derives.schema {x : Lone Unit} (h : x.Derives config x.host.openingSymbols.length s) :
    x.schema.Derives Integer config noNote 0
      (x.host.openingSymbols ++ s ++ x.host.closingSymbols) := by
  have file {y : Directive Unit} {t : List Symbol} (hy : y.Derives Integer config noNote 0 t) :
      Schema.Derives Integer config noNote 0 ⟨none, [y]⟩ t := by
    have hdirectives := Statements.cons hy .nil
    rw [List.append_nil] at hdirectives
    exact .mk .none hdirectives
  have message {y : Member Unit} {t : List Symbol} {depth : Nat}
      (hdepth : config.maxDepth = depth + 1)
      (hy : y.Derives Integer config noNote (Body.Derives Integer config noNote depth)
        .message 3 t) :
      Schema.Derives Integer config noNote 0 ⟨none, [.member (.block (.message "M") [y] ())]⟩
        (.word "message" :: .word "M" :: .mark .leftBrace :: (t ++ [.mark .rightBrace])) := by
    have hbody : Body.Derives Integer config noNote config.maxDepth .message 2 [y]
        (.mark .leftBrace :: (t ++ [.mark .rightBrace])) := by
      rw [hdepth]
      exact Block.singleton hy
    exact file (.message (.mk rfl (Symbol.isName_word "M") hbody))
  cases h with
  | file h =>
    rw [host, Host.openingSymbols, Host.closingSymbols, List.nil_append, List.append_nil]
    exact file h
  | message hdepth h => exact message hdepth h
  | @extension _ _ x _ hdepth h =>
    have hbody : Body.Derives Integer config noNote config.maxDepth .extension 2 [x]
        (.mark .leftBrace :: (s ++ [.mark .rightBrace])) := by
      rw [hdepth]
      exact Block.singleton h
    have htype : TypeRef.Derives noNote 1 ⟨"E", ()⟩ [.word "E"] :=
      TypeRef.derives_rootless (by decide) []
    exact file (.extend (.mk (s := [.word "E"]) rfl htype hbody))
  | oneOf hdepth h =>
    obtain ⟨depth, hdepth⟩ := Nat.exists_eq_succ_of_ne_zero hdepth
    have honeOf : OneOf.Derives config noNote 3 _
        (.word "oneof" :: .word "o" :: .mark .leftBrace :: (s ++ [.mark .rightBrace])) :=
      .mk rfl rfl (Block.singleton h)
    have hmessage := message hdepth (.oneOf honeOf)
    rw [List.cons_append, List.cons_append, List.cons_append, List.append_assoc] at hmessage
    exact hmessage
  | enumType h =>
    exact file (.enumType (.mk rfl (Symbol.isName_word "E") (Block.singleton h)))
  | service h =>
    exact file (.service (.mk rfl (Symbol.isName_word "S") (Block.singleton h)))

/-- **A statement in a body is read as what its symbols derive.** -/
theorem exists_parse {x : Lone Unit} {text : String} (htext : Spells anything text s)
    (h : ∀ i, x.Derives config i s) :
    ∃ d, parse (x.host.around text) config = .ok d ∧ d.schema.erase = x.schema :=
  exists_parse_of_spells (q := anything) (x.host.spells_around htext) (h _).schema

end Lone

end ProtoSchema
