import ProtoSchema.Proofs.Grammar.Soundness.Parse

/-!
# Signs in front of bare numbers

In three lines of the grammar a number is `bare`: that of a map field, that of a group, and the two
of a range.  The rules read a sign there, as they do in fields and in the values of enums, and so
`parse_sound` derives what is read with `Phrase.Integer` in place of `bare`.  No less will do.  Were
`bare` no more than `Phrase.Unsigned`, each of the three lines would leave out something that is
read.

What refutes a derivation is a symbol that begins no bare number, behind symbols that leave no
choice.  So the lemmas go inwards: from a file to its first directive, from the body of a block to
its first statement, and from there to the number.

## What is here

* `Phrase.Statements.exists_head` and `Phrase.Block.exists_head` — the first of some statements, by
  the symbol that they begin with.
* `Schema.Derives.exists_member` and `Schema.Derives.exists_enumItem` — the first member of a
  message that begins a file, and the first item of an enum.
* `Member.Derives.exists_mapField`, `Member.Derives.derivesGroup` and
  `Grammar.EnumItem.Derives.exists_reserved` — which statement it is, by its first two symbols.
* `MapField.Derives.number?_isSome`, `Member.DerivesGroup.number?_isSome` and
  `Reserved.Derives.number?_isSome` — the three lines: where the number is bare, a symbol with a
  number stands there, and so no sign does.
* `NeedsSigns` — a text that is read and not derived, and `parse_signed_range`, one such text for
  each of the three lines.
-/

set_option autoImplicit false

namespace ProtoSchema

open Grammar Phrase

variable {ν : Type} {note : Extent → ν} {config : Config} {bare : Phrase Int} {i : Nat}
  {first : Symbol} {s t rest : List Symbol}

/-- A symbol is no two words. -/
theorem Symbol.isWord_unique {s : Symbol} {v w : String} (hv : s.isWord v) (hw : s.isWord w) :
    v = w :=
  (isWord_iff.mp hv).2.symm.trans (isWord_iff.mp hw).2

/-- Symbols do not begin with two words. -/
theorem Symbol.isWord_unique_of_cons {word : Symbol} {v w : String} (hs : word :: s = first :: t)
    (hv : word.isWord v) (hw : first.isWord w) : v = w := by
  obtain ⟨rfl, -⟩ := List.cons.inj hs
  exact isWord_unique hv hw

/-! ## First statements -/

/-- Statements in front of others begin with the first of them, if they begin with no semicolon. -/
theorem Phrase.Statements.exists_head {α : Type} {p : Phrase α} {xs : List α}
    (h : Statements p i xs s) (hs : s ++ rest = first :: t) (hsemi : first.kind ≠ .semicolon)
    (hrest : rest.head? ≠ some first) : ∃ x u w, p i x u ∧ u ++ w = first :: t := by
  cases h with
  | nil =>
    obtain rfl : rest = first :: t := hs
    exact absurd rfl hrest
  | empty hk =>
    obtain ⟨rfl, -⟩ := List.cons.inj hs
    exact absurd hk hsemi
  | cons hx => exact ⟨_, _, _, hx, (List.append_assoc _ _ _).symm.trans hs⟩

/-- The first statement between braces. -/
theorem Phrase.Block.exists_head {α : Type} {p : Phrase α} {xs : List α} {brace : Symbol}
    (h : Block p i xs s) (hs : s ++ rest = brace :: first :: t) (hsemi : first.kind ≠ .semicolon)
    (hbrace : first.kind ≠ .rightBrace) : ∃ x u w, p (i + 1) x u ∧ u ++ w = first :: t := by
  obtain ⟨-, hxs, hr⟩ := h
  simp only [List.cons_append, List.append_assoc, List.cons.injEq] at hs
  refine hxs.exists_head hs.2 hsemi ?_
  rintro hhead
  obtain rfl := Option.some.inj hhead
  exact hbrace hr

/-- A file that begins with no semicolon and no version begins with a directive. -/
theorem Schema.Derives.exists_directive {x : Schema ν}
    (h : x.Derives bare config note i (first :: t))
    (hsemi : first.kind ≠ .semicolon) (hversion : ¬first.isWord "syntax") :
    ∃ d u w, Directive.Derives bare config note i d u ∧ u ++ w = first :: t := by
  generalize hs : first :: t = s at h
  obtain ⟨hv, hds⟩ := h
  cases hv with
  | none =>
    obtain rfl : first :: t = _ := hs
    exact hds.exists_head (List.append_nil _) hsemi nofun
  | some hv =>
    obtain ⟨hword, -⟩ := hv
    obtain ⟨rfl, -⟩ := List.cons.inj hs
    exact absurd hword hversion

/-! ## From a file to a message and to an enum -/

/-- The word of a message begins that message. -/
theorem Directive.Derives.exists_message {d : Directive ν} (h : d.Derives bare config note i s)
    (hs : s ++ rest = first :: t) (hfirst : first.isWord "message") :
    ∃ x, Member.DerivesMessage note (Body.Derives bare config note config.maxDepth) i x s := by
  rcases h with ⟨hword, -⟩ | ⟨hword, -⟩ | ⟨hword, -⟩ | h | ⟨hword, -⟩ | ⟨hword, -⟩ | ⟨hword, -⟩
  case message => exact ⟨_, h⟩
  all_goals exact absurd (Symbol.isWord_unique_of_cons hs hword hfirst) (by decide)

/-- The word of an enum begins that enum. -/
theorem Directive.Derives.exists_enumType {d : Directive ν} (h : d.Derives bare config note i s)
    (hs : s ++ rest = first :: t) (hfirst : first.isWord "enum") :
    ∃ x : EnumType ν, x.Derives bare note i s := by
  rcases h with ⟨hword, -⟩ | ⟨hword, -⟩ | ⟨hword, -⟩ | ⟨hword, -⟩ | h | ⟨hword, -⟩ | ⟨hword, -⟩
  case enumType => exact ⟨_, h⟩
  all_goals exact absurd (Symbol.isWord_unique_of_cons hs hword hfirst) (by decide)

section File

variable {x : Schema ν} {word name brace : Symbol}
  (h : x.Derives bare config note i (word :: name :: brace :: first :: t))
  (hsemi : first.kind ≠ .semicolon) (hbrace : first.kind ≠ .rightBrace)

include h hsemi hbrace

/-- A file that begins with a message whose body is not empty has a first member. -/
theorem Schema.Derives.exists_member (hword : word.isWord "message") : ∃ depth j m u w,
    Member.Derives bare config note (Body.Derives bare config note depth) .message j m u ∧
      u ++ w = first :: t := by
  have hk := Symbol.kind_of_isWord hword
  obtain ⟨d, u, w, hd, hs⟩ := h.exists_directive (by simp [hk])
    fun hsyntax ↦ absurd (Symbol.isWord_unique hword hsyntax) (by decide)
  obtain ⟨_, -, -, hbody⟩ := hd.exists_message hs hword
  obtain ⟨-, -, hs⟩ := by simpa only [List.cons_append, List.cons.injEq] using hs
  generalize config.maxDepth = depth at hbody
  cases depth with
  | zero => exact hbody.elim
  | succ depth =>
    obtain ⟨m, u, w, hm, hs⟩ := Block.exists_head hbody hs hsemi hbrace
    exact ⟨depth, _, m, u, w, hm, hs⟩

/-- A file that begins with an enum whose body is not empty has a first item. -/
theorem Schema.Derives.exists_enumItem (hword : word.isWord "enum") : ∃ j item u w,
    EnumItem.Derives bare note j item u ∧ u ++ w = first :: t := by
  have hk := Symbol.kind_of_isWord hword
  obtain ⟨d, u, w, hd, hs⟩ := h.exists_directive (by simp [hk])
    fun hsyntax ↦ absurd (Symbol.isWord_unique hword hsyntax) (by decide)
  obtain ⟨_, -, -, hitems⟩ := hd.exists_enumType hs hword
  obtain ⟨-, -, hs⟩ := by simpa only [List.cons_append, List.cons.injEq] using hs
  obtain ⟨item, u, w, hitem, hs⟩ := hitems.exists_head hs hsemi hbrace
  exact ⟨_, item, u, w, hitem, hs⟩

end File

/-! ## From a statement to its number -/

section Statement

variable {next : Symbol} (hs : s ++ rest = first :: next :: t)

include hs

/-- An item that begins with the word `reserved`, not in front of an equals sign, is that
statement. -/
theorem Grammar.EnumItem.Derives.exists_reserved {x : EnumItem ν} (h : x.Derives bare note i s)
    (hfirst : first.isWord "reserved") (hnext : next.kind ≠ .equal) :
    ∃ r : Reserved ν, r.Derives bare note i s := by
  rcases h with ⟨hword, -⟩ | h | ⟨-, heq⟩
  · exact absurd (Symbol.isWord_unique_of_cons hs hword hfirst) (by decide)
  · exact ⟨_, h⟩
  · simp only [List.cons_append, List.cons.injEq] at hs
    exact absurd (hs.2.1 ▸ heq) hnext

variable {inner : Body → Phrase (List (Member ν))} {m : Member ν}
  (h : Member.Derives bare config note inner .message i m s)

include h

/-- A member that begins with no word of a statement is a field, a group or a map field. -/
theorem Member.Derives.cases_of_not_word (hwords : ∀ w ∈ statementWords, ¬first.isWord w) :
    (∃ x : Field ν, x.Derives config note i s ∧ Body.message.readsField first next) ∨
      m.DerivesGroup bare config note inner i s ∨
      ∃ x : MapField ν, x.Derives bare config note i s := by
  have other {word : Symbol} {w : String} {u : List Symbol} (hword : word.isWord w)
      (hmem : w ∈ statementWords) (hs : word :: u = first :: next :: t) : False := by
    obtain ⟨rfl, -⟩ := List.cons.inj hs
    exact hwords w hmem hword
  cases h with
  | field h hb =>
    simp only [List.cons_append, List.cons.injEq] at hs
    obtain ⟨rfl, rfl, -⟩ := hs
    exact .inl ⟨_, h, hb⟩
  | group h => exact .inr (.inl h)
  | mapField h => exact .inr (.inr ⟨_, h⟩)
  | message h | enumType h | setting h | oneOf h =>
    obtain ⟨hword, -⟩ := h
    exact (other hword (by decide) hs).elim
  | @extend _ _ word _ u h | @extensions _ _ word _ u h | @reserved _ _ word _ u h =>
    generalize hu : word :: _ :: u = v at h hs
    obtain ⟨hword, -⟩ := h
    exact (other hword (by decide) hs).elim

/-- A member that begins with `map` and `<` is a map field. -/
theorem Member.Derives.exists_mapField (hfirst : first.isWord "map") (hnext : next.kind = .less) :
    ∃ x : MapField ν, x.Derives bare config note i s := by
  have hwords : ∀ w ∈ statementWords, ¬first.isWord w := by
    simp only [Symbol.isWord_eq hfirst]
    decide
  rcases h.cases_of_not_word hs hwords with ⟨x, hx, -⟩ | ⟨-, hgroup⟩ | hmap
  · obtain ⟨first', next', u, rfl⟩ := hx.exists_cons_cons
    simp only [List.cons_append, List.cons.injEq] at hs
    have hstarts := kind_of_startsType (hs.2.1 ▸ hx.startsType_next)
    simp [hnext] at hstarts
  · simp only [List.cons_append, List.cons.injEq] at hs
    exact nomatch (Symbol.kind_of_isWord (hs.2.1 ▸ hgroup)).symm.trans hnext
  · exact hmap

/-- A member that begins with a label and `group` is a group. -/
theorem Member.Derives.derivesGroup (label : Label) (hfirst : first.isWord label.word)
    (hnext : next.isWord "group") : m.DerivesGroup bare config note inner i s := by
  have hk := Symbol.kind_of_isWord hnext
  have hwords : ∀ w ∈ statementWords, ¬first.isWord w := by
    simp only [Symbol.isWord_eq hfirst]
    cases label <;> decide
  rcases h.cases_of_not_word hs hwords with ⟨-, -, hb⟩ | hgroup | ⟨-, -, hless⟩
  · have hlabel : (labelOf? first).isSome := by
      obtain ⟨hkind, hlexeme⟩ := Symbol.isWord_iff.mp hfirst
      rw [labelOf?, if_pos (Symbol.is_iff.mpr hkind), hlexeme]
      cases label <;> rfl
    simp [Body.readsField, startsGroup, Symbol.is, hk, hnext, hlabel] at hb
  · exact hgroup
  · simp only [List.cons_append, List.cons.injEq] at hs
    obtain ⟨-, rfl, -⟩ := hs
    exact absurd (hk.symm.trans hless) (by decide)

end Statement

/-! ## Bare numbers -/

theorem Phrase.Unsigned.number?_isSome {n : Int} (h : Unsigned i n s) :
    ∃ first, s = [first] ∧ first.number?.isSome := by
  obtain ⟨hs, -⟩ := h
  exact ⟨_, rfl, by simp [hs]⟩

theorem NumberRange.Derives.number?_isSome {x : NumberRange} (h : x.Derives Unsigned i s) :
    ∃ first t, s = first :: t ∧ first.number?.isSome := by
  rcases h with hn | ⟨hn, -⟩ | ⟨hn, -⟩
  all_goals
    obtain ⟨a, rfl, ha⟩ := hn.number?_isSome
    exact ⟨_, _, rfl, ha⟩

section Bare

variable {name eq number : Symbol}

/-- Behind the word of a statement that reserves stands a string or a number. -/
theorem Reserved.Derives.number?_isSome {x : Reserved ν} (h : x.Derives Unsigned note i s)
    (hs : s ++ rest = first :: number :: t) (hstring : number.kind ≠ .string) :
    number.number?.isSome := by
  obtain ⟨-, hitems, -⟩ := h
  rcases hitems with ⟨⟨⟨hk, -⟩, -⟩⟩ | ⟨⟨hrange, -⟩⟩
  · simp only [List.cons_append, List.nil_append, List.cons.injEq] at hs
    exact absurd (hs.2.1 ▸ hk) hstring
  · obtain ⟨a, u, rfl, ha⟩ := hrange.number?_isSome
    simp only [List.cons_append, List.cons.injEq] at hs
    exact hs.2.1 ▸ ha

/-- Behind a name and an equals sign stands a number. -/
theorem Phrase.Numbered.number?_isSome {x : String × Int × List (Setting ν)}
    (h : Numbered Unsigned config note i x s) (hs : s ++ rest = name :: eq :: number :: t) :
    number.number?.isSome := by
  obtain ⟨-, -, ⟨hn, -⟩, -⟩ := h
  obtain ⟨a, rfl, ha⟩ := hn.number?_isSome
  simp only [List.cons_append, List.nil_append, List.cons.injEq] at hs
  exact hs.2.2.1 ▸ ha

/-- The number of a map field whose values are of a primitive type. -/
theorem MapField.Derives.number?_isSome {x : MapField ν} {less key comma type greater : Symbol}
    (h : x.Derives Unsigned config note i s) (htype : type.kind = .primitiveType)
    (hs : s ++ rest =
      first :: less :: key :: comma :: type :: greater :: name :: eq :: number :: t) :
    number.number?.isSome := by
  obtain ⟨-, -, -, -, hvalue, -, hn, -⟩ := h
  cases hvalue with
  | primitive =>
    simp only [List.cons_append, List.nil_append, List.append_assoc, List.cons.injEq] at hs
    obtain ⟨-, -, -, -, -, -, hs⟩ := hs
    exact hn.number?_isSome hs
  | named hroot hk =>
    cases hroot with
    | none =>
      simp only [List.cons_append, List.nil_append, List.append_assoc, List.cons.injEq] at hs
      obtain ⟨-, -, -, -, rfl, -⟩ := hs
      exact nomatch htype.symm.trans hk
    | some hdot =>
      simp only [List.cons_append, List.nil_append, List.append_assoc, List.cons.injEq] at hs
      obtain ⟨-, -, -, -, rfl, -⟩ := hs
      exact nomatch htype.symm.trans hdot

/-- The number of a group. -/
theorem Member.DerivesGroup.number?_isSome {inner : Body → Phrase (List (Member ν))}
    {m : Member ν} {word : Symbol} (h : m.DerivesGroup Unsigned config note inner i s)
    (hs : s ++ rest = first :: word :: name :: eq :: number :: t) : number.number?.isSome := by
  obtain ⟨-, -, hn, -⟩ := h
  simp only [List.cons_append, List.append_assoc, List.cons.injEq] at hs
  exact hn.number?_isSome hs.2.2

end Bare

/-! ## Texts with signs -/

/-- The text is read, and no schema is derived from its symbols if the numbers of map fields, groups
and ranges are unsigned. -/
def NeedsSigns (text : String) : Prop :=
  ∃ d ts stop, parse text {} = .ok d ∧ scan text = .ok (ts ++ [stop]) ∧ stop.kind = .eof ∧
    (∀ t ∈ ts, t.kind ≠ .eof) ∧ ∀ (note : Extent → Location) (x : Schema Location),
      ¬x.Derives Unsigned {} note 0 (significant ts)

/-- It is enough to refute what the symbols of the text are. -/
theorem NeedsSigns.of_symbols {text : String} (symbols : List Symbol) (hok : (parse text {}).isOk)
    (hsymbols : (scan text).toOption.map (fun tokens ↦ significant tokens.dropLast) = some symbols)
    (hnot : ∀ (note : Extent → Location) (x : Schema Location),
      ¬x.Derives Unsigned {} note 0 symbols) : NeedsSigns text := by
  obtain ⟨d, h⟩ := exists_ok_of_isOk hok
  obtain ⟨ts, stop, hscan, hstop, htiled, -⟩ := exists_tiled_of_parse (fun _ ↦ ()) h
  simp only [hscan, Except.toOption, Option.map_some, List.dropLast_concat, Option.some.injEq]
    at hsymbols
  exact ⟨d, ts, stop, h, hscan, hstop, htiled.kind_ne_eof, hsymbols ▸ hnot⟩

/-- **Each of the three lines needs its sign**: an enum that reserves a negative number, a map field
with a negative number and a group with one are read, and none of them is derived without. -/
theorem parse_signed_range :
    NeedsSigns "enum E \x7b reserved -5; \x7d" ∧
      NeedsSigns "message M \x7b map<int32, int32> m = -1; \x7d" ∧
      NeedsSigns "message M \x7b optional group G = -1 \x7b\x7d \x7d" := by
  have minus : (Symbol.mk .minus "-" none).number?.isSome → False := by decide
  refine ⟨.of_symbols [⟨.identifier, "enum", none⟩,
      ⟨.identifier, "E", none⟩, ⟨.leftBrace, "\x7b", none⟩, ⟨.identifier, "reserved", none⟩,
      ⟨.minus, "-", none⟩, ⟨.number, "5", some (.number (.integer 5))⟩, ⟨.semicolon, ";", none⟩,
      ⟨.rightBrace, "\x7d", none⟩] (by decide +kernel) (by decide +kernel) fun note x h ↦ ?_,
    .of_symbols [⟨.identifier, "message", none⟩,
      ⟨.identifier, "M", none⟩, ⟨.leftBrace, "\x7b", none⟩, ⟨.identifier, "map", none⟩,
      ⟨.less, "<", none⟩, ⟨.primitiveType, "int32", none⟩, ⟨.comma, ",", none⟩,
      ⟨.primitiveType, "int32", none⟩, ⟨.greater, ">", none⟩, ⟨.identifier, "m", none⟩,
      ⟨.equal, "=", none⟩, ⟨.minus, "-", none⟩, ⟨.number, "1", some (.number (.integer 1))⟩,
      ⟨.semicolon, ";", none⟩, ⟨.rightBrace, "\x7d", none⟩]
      (by decide +kernel) (by decide +kernel) fun note x h ↦ ?_,
    .of_symbols [⟨.identifier, "message", none⟩,
      ⟨.identifier, "M", none⟩, ⟨.leftBrace, "\x7b", none⟩, ⟨.identifier, "optional", none⟩,
      ⟨.identifier, "group", none⟩, ⟨.identifier, "G", none⟩, ⟨.equal, "=", none⟩,
      ⟨.minus, "-", none⟩, ⟨.number, "1", some (.number (.integer 1))⟩,
      ⟨.leftBrace, "\x7b", none⟩, ⟨.rightBrace, "\x7d", none⟩, ⟨.rightBrace, "\x7d", none⟩]
      (by decide +kernel) (by decide +kernel) fun note x h ↦ ?_⟩
  · obtain ⟨j, item, u, w, hitem, hs⟩ := h.exists_enumItem (by decide) (by decide) (by decide)
    obtain ⟨r, hr⟩ := hitem.exists_reserved hs (by decide) (by decide)
    exact minus (hr.number?_isSome hs (by decide))
  · obtain ⟨depth, j, m, u, w, hm, hs⟩ := h.exists_member (by decide) (by decide) (by decide)
    obtain ⟨field, hfield⟩ := hm.exists_mapField hs (by decide) rfl
    exact minus (hfield.number?_isSome rfl hs)
  · obtain ⟨depth, j, m, u, w, hm, hs⟩ := h.exists_member (by decide) (by decide) (by decide)
    have hgroup := hm.derivesGroup hs .optional (by decide) (by decide)
    exact minus (hgroup.number?_isSome hs)

end ProtoSchema
