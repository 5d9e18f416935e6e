import ProtoSchema.Proofs.Grammar.Assigning
import ProtoSchema.Proofs.Grammar.Dotted
import ProtoSchema.Proofs.Grammar.Integers
import ProtoSchema.Proofs.Grammar.WellFormed

/-!
# Names as constants

A value of an enum is referred to by its name, in the constant of an option.  What can be the name
of a package or of a value can be such a constant, too, wherever there is one, unless it begins with
the name of a primitive type.  A name may begin with such a word, but the rule for constants does
not take it for the start of one.

In front of every gap for a constant stands an equals sign (`Schema.Around.assigned`), and that is
why nothing else can come of such a word there.

## What is here

* `Gap.Assigned` — the last symbol in front of a gap is an equals sign.
* `Phrase.Separated.Around.assigned` to `Schema.Around.assigned` — that it is so of every gap for a
  constant, by cases on where the gap is.  Most cases are the same case of a part, and only
  `Setting.AroundEntry.assigned` has the equals sign.
* `Leads.dotted`, `fills_name` — a name with dots as a text, and as a constant.
* `Package.isDotted_of_parse`, `exists_parse_package` — the names of packages are words with dots
  between them, all of them.
* `exists_parse_enumValue` — any word is the name of a value of an enum.
* `parse_constant_name` — such a name in the place of any constant in any file: it is read, with the
  name as the constant and everything else as it was, unless its first word is that of a primitive
  type; then it is refused.  Names that begin with `true` or `false` are left out.
* `parse_constant_name_option`, `parse_constant_name_type` — a text for each of the two cases.
-/

set_option autoImplicit false

namespace ProtoSchema

open Grammar Phrase

/-! ## In front of a gap -/

/-- The last symbol in front of the gap is an equals sign. -/
def Gap.Assigned {slot : Slot} {β : Type} (g : Gap slot β) : Prop :=
  ∃ u eq, g.before = u ++ [eq] ∧ eq.kind = .equal

/-- What is put around a gap does not change what is directly in front of it. -/
theorem Gap.Assigned.within {slot : Slot} {β γ : Type} {g : Gap slot β} {u w : List Symbol}
    {f : β → γ} (h : g.Assigned) : (g.within u f w).Assigned := by
  obtain ⟨v, eq, hbefore, heq⟩ := h
  exact ⟨u ++ v, eq, by rw [Gap.within, hbefore, List.append_assoc], heq⟩

section Rows

variable {slot : Slot} {β : Type} {p : Phrase β} {around : Gap slot β → Prop}
  {g : Gap slot (List β)} (hp : ∀ ⦃g⦄, around g → g.Assigned)

include hp

theorem Phrase.Separated.Around.assigned (h : Separated.Around p around g) : g.Assigned := by
  cases h with
  | first hg | next _ _ hg => exact (hp hg).within

theorem Phrase.Statements.Around.assigned (h : Statements.Around p around g) : g.Assigned := by
  obtain ⟨-, hg, -⟩ := h
  exact (hp hg).within

theorem Phrase.Block.Around.assigned (h : Block.Around p around g) : g.Assigned := by
  obtain ⟨-, hg, -⟩ := h
  exact (hg.assigned hp).within

end Rows

/-! ### Options and fields -/

/-- In front of the value of an option stands its equals sign. -/
theorem Setting.AroundEntry.assigned {g : Gap .constant (Setting Unit)} (h : AroundEntry g) :
    g.Assigned := by
  obtain ⟨-, heq⟩ := h
  exact ⟨_, _, rfl, heq⟩

theorem Setting.AroundBracketed.assigned {g : Gap .constant (List (Setting Unit))}
    (h : AroundBracketed g) : g.Assigned := by
  obtain ⟨-, hg, -⟩ := h
  exact (hg.assigned fun _ h ↦ h.assigned).within

theorem Setting.Around.assigned {g : Gap .constant (Setting Unit)} (h : Around g) : g.Assigned := by
  obtain ⟨-, hg, -⟩ := h
  exact hg.assigned.within

variable {config : Config}

theorem Phrase.Numbered.Around.assigned {g : Gap .constant (String × Int × List (Setting Unit))}
    (h : Numbered.Around config .constant g) : g.Assigned := by
  cases h with
  | options _ _ _ hg => exact hg.assigned.within

theorem Field.Around.assigned {g : Gap .constant (Field Unit)}
    (h : Field.Around config .constant g) : g.Assigned := by
  cases h with
  | labelled _ _ hg | plain _ _ hg => exact hg.assigned.within

theorem MapField.Around.assigned {g : Gap .constant (MapField Unit)}
    (h : MapField.Around config .constant g) : g.Assigned := by
  obtain ⟨-, -, -, -, -, -, hg, -⟩ := h
  exact hg.assigned.within

theorem Field.AroundValue.assigned {g : Gap .constant (Field Unit)}
    (h : Field.AroundValue .constant g) : g.Assigned := by
  cases h with
  | options _ _ _ hg => exact hg.assigned.within

/-! ### Statements -/

theorem Extensions.Around.assigned {g : Gap .constant (Extensions Unit)}
    (h : Extensions.Around .constant g) : g.Assigned := by
  cases h with
  | options _ _ hg => exact hg.assigned.within

theorem Grammar.OneOfItem.Around.assigned {g : Gap .constant (OneOfItem Unit)}
    (h : OneOfItem.Around config .constant g) : g.Assigned := by
  cases h with
  | setting hg | field hg => exact hg.assigned

theorem OneOf.Around.assigned {g : Gap .constant (OneOf Unit)}
    (h : OneOf.Around config .constant g) : g.Assigned := by
  obtain ⟨-, -, hg⟩ := h
  exact (hg.assigned fun _ h ↦ h.assigned).within

theorem Grammar.EnumItem.Around.assigned {g : Gap .constant (EnumItem Unit)}
    (h : EnumItem.Around .constant g) : g.Assigned := by
  cases h with
  | setting hg | value hg => exact hg.assigned

theorem EnumType.Around.assigned {g : Gap .constant (EnumType Unit)}
    (h : EnumType.Around .constant g) : g.Assigned := by
  obtain ⟨-, -, hg⟩ := h
  exact (hg.assigned fun _ h ↦ h.assigned).within

/-! ### Blocks -/

section Members

variable {inner : Body → Phrase (List (Member Unit))}
  {around : Body → (slot : Slot) → Gap slot (List (Member Unit)) → Prop}
  (haround : ∀ {b : Body} {g : Gap .constant (List (Member Unit))},
    around b .constant g → g.Assigned) {g : Gap .constant (Member Unit)}

include haround

theorem Member.AroundMessage.assigned (h : AroundMessage around .constant g) : g.Assigned := by
  obtain ⟨-, -, hg⟩ := h
  exact (haround hg).within

theorem Member.AroundGroup.assigned (h : AroundGroup config inner around .constant g) :
    g.Assigned := by
  cases h with
  | header _ _ hg => exact hg.assigned.within
  | body _ _ _ hg => exact (haround hg).within

theorem Member.AroundExtend.assigned (h : AroundExtend around .constant g) : g.Assigned := by
  obtain ⟨-, -, hg⟩ := h
  exact (haround hg).within

/-- In front of a gap for a constant in a member stands an equals sign, if it is so in bodies. -/
theorem Member.Around.assigned {b : Body} (h : Member.Around config inner around b .constant g) :
    g.Assigned := by
  cases h with
  | field hg | enumType hg | extensions hg | setting hg | oneOf hg | mapField hg =>
    exact hg.assigned
  | group hg | message hg | extend hg => exact hg.assigned haround

end Members

theorem Body.Around.assigned {depth : Nat} {b : Body} {g : Gap .constant (List (Member Unit))}
    (h : Body.Around config depth b .constant g) : g.Assigned := by
  induction depth generalizing b g with
  | zero => exact h.elim
  | succ depth ih => exact Block.Around.assigned (fun _ hg ↦ hg.assigned ih) h

/-! ### Services and files -/

theorem Rpc.Around.assigned {g : Gap .constant (Rpc Unit)} (h : Rpc.Around g) : g.Assigned := by
  obtain ⟨-, -, -, -, -, hg⟩ := h
  exact (hg.assigned fun _ h ↦ h.assigned).within

theorem Service.Around.assigned {g : Gap .constant (Service Unit)} (h : Service.Around g) :
    g.Assigned := by
  obtain ⟨-, -, hg⟩ := h
  refine (hg.assigned fun _ h ↦ ?_).within
  cases h with
  | setting hg | rpc hg => exact hg.assigned

theorem Directive.Around.assigned {g : Gap .constant (Directive Unit)}
    (h : Directive.Around config .constant g) : g.Assigned := by
  cases h with
  | setting hg | enumType hg | service hg => exact hg.assigned
  | message hg | extend hg => exact hg.assigned fun h ↦ h.assigned

/-- In front of a gap for a constant in a file stands an equals sign. -/
theorem Schema.Around.assigned {g : Gap .constant (Schema Unit)}
    (h : Schema.Around config .constant g) : g.Assigned := by
  obtain ⟨-, hg⟩ := h
  exact (hg.assigned fun _ h ↦ h.assigned).within

/-! ## Names in a text -/

section Names

variable {first name : String} {words : List String}

/-- A name with dots in it is divided into its words and dots. -/
theorem Leads.dotted (hfirst : IsWord first) (hwords : ∀ w ∈ words, IsWord w) :
    Leads endsWord (".".intercalate (first :: words)) (.word first :: Symbol.dotted words) := by
  induction words generalizing first with
  | nil =>
    rw [String.intercalate_singleton]
    exact .word hfirst
  | cons w words ih =>
    obtain ⟨hw, hwords⟩ := List.forall_mem_cons.mp hwords
    have hdot : Leads anything "." [.mark .dot] := .mark (c := '.') rfl rfl
    have hbehind := hdot.append (ih hw hwords)
    have hhead : ("." ++ ".".intercalate (w :: words)).toList.head? = some '.' := by simp
    rw [String.intercalate_cons_cons, String.append_assoc]
    exact (Leads.word hfirst).append_of_head hbehind hhead rfl

/-- In the place of a constant they are a name, if the first of them can be the start of one
there. -/
theorem fills_name (hprimitive : first ∉ primitiveWords)
    (hbool : first ≠ "true" ∧ first ≠ "false") :
    Slot.constant.Fills (.name ⟨".".intercalate (first :: words), ()⟩)
      (.word first :: Symbol.dotted words) := by
  have hk := Symbol.kind_word_eq_identifier hprimitive
  have hlexeme : (Symbol.word first).lexeme = first := rfl
  have hstarts : startsNameValue (.word first) := by
    simp [startsNameValue, Symbol.is, Symbol.isWord, hk, hlexeme, hbool]
  exact fun i ↦ .name hstarts (FullName.derives_words first words)

/-- The name of a package that is read is made of words, the first of which can be any. -/
theorem Package.isDotted_of_parse {text : String} {config : Config} {d : Document}
    {p : Package Location} (h : parse text config = .ok d) (hp : .package p ∈ d.schema.directives) :
    ∃ first, IsWord first ∧ IsDotted first p.name.text := by
  obtain ⟨hderives, hgenuine⟩ := Document.derives_of_parse h
  have hnode : .fullName p.name ∈ d.schema.nodes := by
    refine List.mem_append_right _ (List.mem_flatMap.mpr ⟨_, hp, ?_⟩)
    exact List.mem_cons_of_mem _ (List.mem_singleton_self _)
  obtain ⟨u, v, w, huvw, hv⟩ := hderives.nodesOccur _ hnode
  cases hv with
  | fullName hv =>
    exact hv.wellFormed fun a ha ↦ hgenuine a (by rw [huvw]; simp [ha])

/-- Whatever they are, words with dots between them are the name of a package. -/
theorem exists_parse_package {config : Config} (hfirst : IsWord first)
    (hname : IsDotted first name) :
    ∃ d, parse (Host.file.around ("package " ++ (name ++ ";"))) config = .ok d ∧
      d.schema.erase = (Lone.file (.package ⟨⟨name, ()⟩, ()⟩)).schema := by
  obtain ⟨words, hwords, rfl⟩ := hname
  have hword : IsWord "package" := isWord_of_all rfl rfl
  have hnamed := (Leads.dotted hfirst hwords).append_of_head (Leads.semicolon (q := anything))
    (c := ';') rfl rfl
  have htext := (Leads.keyword (q := anything) hword rfl).append hnamed
  have hpackage (i : Nat) : Package.Derives noNote i ⟨⟨".".intercalate (first :: words), ()⟩, ()⟩
      (.word "package" :: (.word first :: Symbol.dotted words ++ [.mark .semicolon])) :=
    .mk rfl (FullName.derives_words first words) rfl
  exact Lone.exists_parse (x := .file (.package _)) htext.spells
    fun i ↦ .file (.package (hpackage i))

/-- A word is the name of an enum value. -/
theorem exists_parse_enumValue {config : Config} {word : String} {n : Int} (hword : IsWord word)
    (hn : fitsInteger n) :
    ∃ d, parse (Host.enumType.around (word ++ " = " ++ (toString n ++ ";"))) config = .ok d ∧
      d.schema.erase = (Lone.enumType (.value ⟨none, none, word, n, [], ()⟩)).schema := by
  obtain ⟨t, ht, hinteger⟩ := prints_int hn
  have hnumber : Spells anything (toString n ++ ";") (t ++ [.mark .semicolon]) :=
    ht.append_of_head .semicolon (c := ';') rfl rfl
  have htext := (Leads.named hword).spells.append hnumber
  have hvalue (i : Nat) : Field.DerivesValue noNote i ⟨none, none, word, n, [], ()⟩
      (.word word :: .mark .equal :: (t ++ ([] ++ [.mark .semicolon]))) :=
    .mk (Symbol.isName_word word) rfl (hinteger _) .none rfl
  exact Lone.exists_parse (x := .enumType (.value _)) htext fun i ↦ .enumType (.value (hvalue i))

end Names

/-! ## Constants -/

/-- **A name can be a constant, unless it begins with the name of a primitive type.**  Then nothing
is read, though it can be the name of a package, and its first word that of an enum value. -/
theorem parse_constant_name {first name before behind : String} {config : Config}
    {g : Gap .constant (Schema Unit)} (hfirst : IsWord first) (hname : IsDotted first name)
    (hbool : first ≠ "true" ∧ first ≠ "false") (hg : Schema.Around config .constant g)
    (hgap : g.Between before name behind) (hbehind : ∀ c ∈ behind.toList.head?, endsWord c) :
    let text := before ++ name ++ behind
    (∃ d, parse (Host.file.around ("package " ++ (name ++ ";"))) config = .ok d ∧
      d.schema.erase = (Lone.file (.package ⟨⟨name, ()⟩, ()⟩)).schema) ∧
    (∀ n, fitsInteger n →
      ∃ d, parse (Host.enumType.around (first ++ " = " ++ (toString n ++ ";"))) config = .ok d ∧
        d.schema.erase = (Lone.enumType (.value ⟨none, none, first, n, [], ()⟩)).schema) ∧
    if first ∈ primitiveWords then
      ∃ e, parse text config = .error (.syntactic e)
    else
      ∃ d, parse text config = .ok d ∧ d.schema.erase = g.said (.name ⟨name, ()⟩) := by
  intro text
  refine ⟨exists_parse_package hfirst hname, fun n hn ↦ exists_parse_enumValue hfirst hn, ?_⟩
  obtain ⟨words, hwords, rfl⟩ := hname
  have hleads := Leads.dotted hfirst hwords
  have hsymbols := uncommented_eq_self hleads.comment
  have hdivides := hleads.divides behind.toList hbehind
  split
  -- the first word stands behind the equals sign in front of the gap
  · rename_i hprimitive
    obtain ⟨ss, htext, hss⟩ := hgap.divides hdivides
    obtain ⟨u, eq, hbefore, heq⟩ := hg.assigned
    have hbehindEqual : uncommented ss =
        u ++ eq :: .word first :: (Symbol.dotted words ++ g.behind) := by
      rw [hss, hsymbols, hbefore]
      simp
    refine exists_parse_error_of_behind_equal htext hbehindEqual heq ?_
    rw [Symbol.kind_word_eq_primitiveType hprimitive]
    decide
  -- the words fill the gap
  · rename_i hprimitive
    refine hgap.exists_parse hg hdivides ?_
    rw [hsymbols]
    exact fills_name hprimitive hbool

/-- The name of a primitive type is a word of a constant, and the first word of none. -/
theorem parse_constant_name_option :
    ∃ before behind, before = "option x = " ∧ behind = ";" ∧
      (∃ d, parse (before ++ "a.int32" ++ behind) {} = .ok d ∧ d.schema.erase =
        ⟨none, [.member (.setting ⟨⟨"x", ()⟩, .name ⟨"a.int32", ()⟩, ()⟩)]⟩) ∧
      ∃ e, parse (before ++ "int32.a" ++ behind) {} = .error (.syntactic e) := by
  have hword : IsWord "a" := isWord_of_all rfl rfl
  have htype : IsWord "int32" := isWord_of_all rfl rfl
  have hname : IsDotted "a" "a.int32" := ⟨["int32"], List.forall_mem_singleton.mpr htype, rfl⟩
  have hname' : IsDotted "int32" "int32.a" := ⟨["a"], List.forall_mem_singleton.mpr hword, rfl⟩
  have hoption : IsWord "x" := isWord_of_all rfl rfl
  obtain ⟨g, hg, hgap, hsaid⟩ := Setting.exists_gap {} hoption
  obtain ⟨before, hbefore, hgap⟩ : ∃ before, before = "option x = " ∧
      ∀ number, g.Between before number ";" := ⟨_, by decide +kernel, hgap⟩
  have hsemicolon : ∀ c ∈ ";".toList.head?, endsWord c := by
    rintro _ ⟨⟩
    rfl
  refine ⟨before, ";", hbefore, rfl, ?_, ?_⟩
  · have hparse := parse_constant_name hword hname (by decide) hg (hgap _) hsemicolon
    have hread := hparse.2.2
    rwa [if_neg (by decide), hsaid] at hread
  · have hparse := parse_constant_name htype hname' (by decide) hg (hgap _) hsemicolon
    have hfails := hparse.2.2
    rwa [if_pos (by decide)] at hfails

/-- What is the name of a package, and of the value of an enum, is no constant. -/
theorem parse_constant_name_type :
    (∃ d, parse "package int32;" {} = .ok d ∧
      d.schema.erase = ⟨none, [.package ⟨⟨"int32", ()⟩, ()⟩]⟩) ∧
    (∃ d, parse "enum E \x7bint32 = 0;\x7d" {} = .ok d ∧ d.schema.erase =
      ⟨none, [.member (.enumType ⟨"E", [], [⟨none, none, "int32", 0, [], ()⟩], [], ()⟩)]⟩) ∧
    parse "option o = int32;" {} =
      .error (.syntactic ⟨.unexpected .constant .primitiveType "int32", ⟨1, 11⟩⟩) := by
  have hfails : (parse "option o = int32;" {}).map (fun _ ↦ ()) =
      .error (.syntactic ⟨.unexpected .constant .primitiveType "int32", ⟨1, 11⟩⟩) := by
    decide +kernel
  have htype : IsWord "int32" := isWord_of_all rfl rfl
  refine ⟨?_, ?_, eq_error_of_map hfails⟩
  · exact exists_parse_package htype ⟨[], nofun, rfl⟩
  · exact exists_parse_enumValue htype (n := 0) (by decide)

end ProtoSchema
