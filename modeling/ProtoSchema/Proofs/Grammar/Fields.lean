import ProtoSchema.Proofs.Grammar.Failing
import ProtoSchema.Proofs.Print.Handmade

/-!
# Fields by themselves

Fields stand in three sorts of bodies, and each has its own test for what the first two symbols of a
statement begin (`FieldHost.ReadsField`).  Here is how they come out if the type is a dotted name.
A dot behind the first word makes it a type in all of them, whatever word it is.

With a label in front it is the label that comes first, and then the word is looked at by itself.
If it is `group` the rules go on as for a group, where groups can stand, and fail at the dot.

## What is here

* `FieldHost` — a message, an extension or a oneof, as the body that a field stands in.
* `FieldHost.ReadsField` — the test of each, and `FieldHost.readsField_of_dot` and
  `FieldHost.readsField_of_label`, the two ways to pass it that matter for a dotted type.
* `FieldHost.fails_group` — a label and `group` in front of a dot, in a body that can have groups.
* `fieldText`, `Label.symbols`, `spells_fieldText`, `Field.derives_symbols` — a field as a text and
  as symbols, each written out.
* `parse_dotted_type` — a field with a dotted type in any of the bodies, with any label or none.  It
  is read as that field, unless a label stands in front of a type that begins with `group` in a
  message or an extension.
* `parse_dotted_type_map`, `parse_dotted_type_group` — a text for each of the two cases.
-/

set_option autoImplicit false

namespace ProtoSchema

-- Powers are those of the core library, whatever else is imported.
attribute [local instance(high)] instPowNat

open Grammar Rule Phrase Reader

/-! ## Bodies with fields -/

/-- The sorts of bodies that fields stand in. -/
inductive FieldHost where
  | message | extension | oneOf
  deriving DecidableEq, Repr

namespace FieldHost

/-- The sort of body, among all that statements can stand in. -/
def host : FieldHost → Host
  | message => .message
  | extension => .extension
  | oneOf => .oneOf

/-- A field that is all of the body. -/
def lone {ν : Type} : FieldHost → Field ν → Lone ν
  | message, f => .message (.field f)
  | extension, f => .extension (.field f)
  | oneOf, f => .oneOf (.field f)

/-- Whether what begins with the two symbols can be a field in the body. -/
def ReadsField : FieldHost → Symbol → Symbol → Prop
  | message, first, next => Body.message.readsField first next
  | extension, first, next => Body.extension.readsField first next
  | oneOf, first, next => first.isWord "option" → next.kind = .dot

theorem host_lone {ν : Type} (h : FieldHost) (f : Field ν) : (h.lone f).host = h.host := by
  cases h <;> rfl

variable {h : FieldHost} {first next : Symbol}

/-- A field that passes the test is a statement of the body. -/
theorem derives_lone {config : Config} {i : Nat} {f : Field Unit} {t : List Symbol}
    (hdepth : config.maxDepth ≠ 0) (hreads : h.ReadsField first next)
    (hf : f.Derives config noNote i (first :: next :: t)) :
    (h.lone f).Derives config i (first :: next :: t) := by
  obtain ⟨depth, hdepth'⟩ := Nat.exists_eq_succ_of_ne_zero hdepth
  cases h with
  | message => exact .message hdepth' (.field hf hreads)
  | extension => exact .extension hdepth' (.field hf hreads)
  | oneOf => exact .oneOf hdepth (.field hf hreads)

/-- In front of a dot every word begins a type. -/
theorem readsField_of_dot (h : FieldHost) (hnext : next.kind = .dot) : h.ReadsField first next := by
  have hgroup : ¬startsGroup first next := by
    rw [startsGroup, Bool.and_eq_true, not_and]
    exact fun hword ↦ absurd (hnext.symm.trans (Symbol.kind_of_isWord hword)) (by decide)
  cases h with
  | message =>
    rw [ReadsField, Body.readsField, Symbol.is_iff.mpr hnext]
    rfl
  | extension => simpa [ReadsField, Body.readsField] using hgroup
  | oneOf => exact fun _ ↦ hnext

/-- Behind a label stands the type of a field, unless it is the word of a group. -/
theorem readsField_of_label (label : Label) (hgroup : h = .oneOf ∨ ¬next.isWord "group") :
    h.ReadsField (.word label.word) next := by
  have hword {w : String} (hw : w ∈ statementWords) : ¬(Symbol.word label.word).isWord w := by
    rw [Symbol.isWord_iff, not_and]
    rintro - rfl
    exact label.word_mem.2 hw
  cases h with
  | message =>
    refine Body.readsField_of_not_word ?_ fun w hw ↦ hword hw
    rw [startsGroup, Bool.eq_false_iff.mpr (hgroup.resolve_left (by decide)), Bool.false_and]
    exact Bool.false_ne_true
  | extension => simp [ReadsField, Body.readsField, startsGroup, hgroup.resolve_left (by decide)]
  | oneOf => exact fun hoption ↦ absurd hoption (hword (by decide))

/-- Behind a label the word of a group is no type, even if a dot goes on with it. -/
theorem fails_group (hhost : h ≠ .oneOf) (label : Label) (r : Reader) (i : Nat) (t : List Symbol) :
    h.host.Fails r i ⟨i + 2, .unexpected (.kind .identifier) .dot "."⟩
      (.word label.word :: .word "group" :: .mark .dot :: t) := by
  have hl := labelOf?_word label
  have hfirst : (Symbol.word label.word).isWord label.word := isWord_of_labelOf? hl
  have hrun (rest : List Symbol) : r.run (fieldOrGroupFrom ⟨i, .word label.word⟩) (i + 1)
      (.word "group" :: .mark .dot :: (t ++ rest)) =
        .error ⟨i + 2, .unexpected (.kind .identifier) .dot "."⟩ := by
    refine bind_error_of_ok (run_current _) ?_
    have hgroup : (Symbol.word "group").isWord "group" := rfl
    simp only [current_cons, hgroup, if_true, hl]
    exact bind_error_of_ok (run_expectWord hgroup) (bind_error (run_name_error nofun))
  have hstarts := startsType_of_isWord hfirst
  cases h with
  | message =>
    exact ⟨_, _, rfl, hstarts, fun rest ↦ (run_memberFrom (.group hfirst rfl)).trans (hrun rest)⟩
  | extension => exact ⟨_, _, rfl, hstarts, hrun⟩
  | oneOf => exact absurd rfl hhost

end FieldHost

/-! ## The text of a field -/

/-- A field without options. -/
def fieldText (label? : Option Label) (type name number : String) : String :=
  (label?.elim "" fun label ↦ label.word ++ " ") ++ type ++ " " ++ name ++ " = " ++ number ++ ";"

/-- A label in front of a field, if there is one. -/
def Label.symbols (label? : Option Label) : List Symbol :=
  label?.toList.map fun label ↦ .word label.word

section Texts

variable {label? : Option Label} {type name number : String} {s t : List Symbol}

/-- The text of a field spells its symbols. -/
theorem spells_fieldText (htype : Spells endsWord type s) (hname : IsWord name)
    (hnumber : Spells closes number t) :
    Spells anything (fieldText label? type name number)
      (Label.symbols label? ++ (s ++ .word name :: .mark .equal :: (t ++ [.mark .semicolon]))) := by
  have hlabel : Spells anything (label?.elim "" fun label ↦ label.word ++ " ")
      (Label.symbols label?) := by
    cases label? with
    | none => exact .nil
    | some label => exact .keyword label.isWord_word rfl
  have hnamed : Spells anything (name ++ " = ") [.word name, .mark .equal] :=
    (Leads.named hname).spells
  have hnumbered : Spells anything (number ++ ";") (t ++ [.mark .semicolon]) :=
    hnumber.append_of_head .semicolon (c := ';') rfl rfl
  have hbehind := htype.append_of_head (Spells.blank.append (hnamed.append hnumbered)) (c := ' ')
    (by simp) rfl
  have hfield := hlabel.append hbehind
  simpa only [fieldText, String.append_assoc, List.nil_append, List.cons_append] using hfield

/-- A field of the words and marks that are written for it. -/
theorem Field.derives_symbols {config : Config} {i : Nat} {first : Symbol} {n : Int}
    (htype : ∀ i, TypeRef.Derives noNote i ⟨type, ()⟩ (first :: s)) (hfirst : labelOf? first = none)
    (hn : ∀ i, Integer i n t) (ha : 0 ≤ n ∨ config.allowNegative) :
    Field.Derives config noNote i ⟨label?, some ⟨type, ()⟩, name, n, [], ()⟩
      (Label.symbols label? ++
        (first :: s ++ .word name :: .mark .equal :: (t ++ [.mark .semicolon]))) := by
  have hnumbered (i : Nat) : Numbered Integer config noNote i (name, n, [])
      (.word name :: .mark .equal :: (t ++ [])) :=
    .mk (Symbol.isName_word name) rfl (.mk (hn _) ha) .none
  simp only [List.append_nil] at hnumbered
  have hsemi : (Symbol.mark .semicolon).kind = .semicolon := rfl
  cases label? with
  | none => exact .plain hfirst (htype _) (hnumbered _) hsemi
  | some label => exact .labelled (labelOf?_word label) (htype _) (hnumbered _) hsemi

/-- What is a field is one in the body, if its first two symbols tell so without a label, and if the
type does not begin with the word of a group behind one. -/
theorem FieldHost.derives_labelled {h : FieldHost} {config : Config} {i : Nat} {f : Field Unit}
    {first next : Symbol} (hdepth : config.maxDepth ≠ 0)
    (hplain : label? = none → h.ReadsField first next)
    (hlabel : label?.isSome → h = .oneOf ∨ ¬first.isWord "group")
    (hf : f.Derives config noNote i (Label.symbols label? ++ first :: next :: t)) :
    (h.lone f).Derives config i (Label.symbols label? ++ first :: next :: t) := by
  cases label? with
  | none => exact h.derives_lone hdepth (hplain rfl) hf
  | some label => exact h.derives_lone hdepth (readsField_of_label label (hlabel rfl)) hf

end Texts

/-! ## Dotted types -/

/-- **A dotted type is a type whatever its words**, in every body that fields stand in and with
every label, but for one word.  Behind a label `group` begins a group, where groups can stand, and
the dot behind it is no name for one. -/
theorem parse_dotted_type {h : FieldHost} {label? : Option Label} {first second name : String}
    {words : List String} {k : Nat} {config : Config} (hfirst : IsWord first)
    (hprimitive : first ∉ primitiveWords) (hlabel : ∀ label : Label, first ≠ label.word)
    (hwords : ∀ w ∈ second :: words, IsWord w) (hname : IsWord name) (hk : k < 2 ^ 63)
    (hdepth : config.maxDepth ≠ 0) :
    let type := ".".intercalate (first :: second :: words)
    let text := h.host.around (fieldText label? type name (toString k))
    if h ≠ .oneOf ∧ label?.isSome ∧ first = "group" then
      ∃ position, parse text config =
        .error (.syntactic ⟨.unexpected (.kind .identifier) .dot ".", position⟩)
    else
      ∃ d, parse text config = .ok d ∧
        d.schema.erase = (h.lone ⟨label?, some ⟨type, ()⟩, name, k, [], ()⟩).schema := by
  intro type text
  have htype (i : Nat) : TypeRef.Derives noNote i ⟨type, ()⟩
      (.word first :: .mark .dot :: .word second :: Symbol.dotted words) :=
    TypeRef.derives_rootless hprimitive (second :: words)
  have hspells := (htype 0).spells (Symbol.genuine_words hfirst hwords)
  have hfits : fitsInteger k := by
    simp only [fitsInteger, Bool.and_eq_true, decide_eq_true_eq]
    omega
  obtain ⟨t, ht, hn⟩ := prints_int hfits
  have htext : Spells anything (fieldText label? type name (toString k))
      (Label.symbols label? ++ .word first :: .mark .dot :: (.word second :: Symbol.dotted words ++
        .word name :: .mark .equal :: (t ++ [.mark .semicolon]))) := spells_fieldText hspells hname
          ht
  split
  · rename_i hgroup
    obtain ⟨hhost, hsome, rfl⟩ := hgroup
    obtain ⟨label, rfl⟩ := Option.isSome_iff_exists.mp hsome
    exact h.host.exists_parse_error hdepth htext fun i ↦
      ⟨i + 2, fun r _ ↦ h.fails_group hhost label r i _⟩
  · rename_i hgroup
    have hnone : labelOf? (.word first) = none := by
      cases hl : labelOf? (.word first) with
      | none => rfl
      | some label =>
        exact absurd (Symbol.isWord_iff.mp (isWord_of_labelOf? hl)).2 (hlabel label)
    have hword (hsome : label?.isSome) : h = .oneOf ∨ ¬(Symbol.word first).isWord "group" :=
      or_iff_not_imp_left.mpr fun hhost hword ↦
        hgroup ⟨hhost, hsome, (Symbol.isWord_iff.mp hword).2⟩
    have hparse := Lone.exists_parse htext fun i ↦
      FieldHost.derives_labelled hdepth (fun _ ↦ h.readsField_of_dot rfl) hword
        (Field.derives_symbols htype hnone hn (.inl (Int.natCast_nonneg k)))
    rwa [FieldHost.host_lone] at hparse

/-- The word of a map and that of a group, a type that is no word of its own, and the largest
number. -/
theorem parse_dotted_type_map :
    ∃ type name text, type = "map.group.int32" ∧ name = "reserved" ∧
      text = "extend E \x7brepeated map.group.int32 reserved = 9223372036854775807;\x7d" ∧
      ∃ d, parse text {} = .ok d ∧ d.schema.erase =
        (FieldHost.extension.lone
          ⟨some .repeated, some ⟨type, ()⟩, name, ((2 ^ 63 - 1 : Nat) : Int), [], ()⟩).schema := by
  have word {w : String} (h : w.toList.head?.any isWordStart ∧ w.toList.tail.all isWordPart) :
      IsWord w := isWord_of_all h.1 h.2
  have hwords : ∀ w ∈ ["group", "int32"], IsWord w := by
    simp only [List.forall_mem_cons]
    exact ⟨word (by decide), word (by decide), nofun⟩
  have hlabel (label : Label) : "map" ≠ label.word := by cases label <;> decide
  have hparse := @parse_dotted_type .extension (some .repeated) "map" "group" "reserved" ["int32"]
    (2 ^ 63 - 1) {} (word (by decide)) (by decide) hlabel hwords (word (by decide))
      (by decide) nofun
  dsimp only at hparse
  rw [if_neg (by decide)] at hparse
  exact ⟨_, _, _, rfl, rfl, by decide +kernel, hparse⟩

/-- Behind a label in a message the word of a group is no type, though a dot goes on with it. -/
theorem parse_dotted_type_group :
    IsWord "group" ∧ "group" ∉ primitiveWords ∧ (∀ label : Label, "group" ≠ label.word) ∧
      IsWord "Foo" ∧ IsWord "x" ∧
      Host.message.around (fieldText (some .optional) "group.Foo" "x" (toString 1)) =
        "message M \x7boptional group.Foo x = 1;\x7d" ∧
      ∀ d, parse "message M \x7boptional group.Foo x = 1;\x7d" {} ≠ .ok d := by
  have hfails : (parse "message M \x7boptional group.Foo x = 1;\x7d" {}).isOk = false := by
    decide +kernel
  refine ⟨isWord_of_all rfl rfl, by decide, fun label ↦ by cases label <;> decide,
    isWord_of_all rfl rfl, isWord_of_all rfl rfl, by decide +kernel, fun d h ↦ ?_⟩
  rw [h] at hfails
  cases hfails

end ProtoSchema
