import ProtoSchema.Proofs.Grammar.Lone
import ProtoSchema.Proofs.Print.RoundTrip
import ProtoSchema.Proofs.Schema.Sayable

/-!
# Statements that were made by hand

`parse_print` is about schemas that were read, and whatever was read has symbols to begin with.  A
statement that was made by hand has none.  If it is sayable, symbols for it are found here, a name
being taken apart into its words; then it is printed as what it is, and read again.

The symbols of a value are those that are printed for it, so only names take work.  A text that is
words with dots between them is the spelling of as many symbols, and the first of them decides what
the whole is read as: the word of a scalar type, the beginning of a name, a dot.

## What is here

* `OptionName.IsHead.exists_symbols`, `OptionName.WellFormed.exists_symbols`,
  `TypeRef.Sayable.exists_symbols` — names taken apart.  A type that can be said begins with none of
  the contextual words, which is carried along up to the place where the first symbol is looked at.
* `Literal.Sayable.said`, `Constant.Sayable.said`, `Setting.Sayable.said`,
  `Numbered.Sayable.exists_symbols` — values, options and numbers.
* `Field.Sayable.exists_symbols`, `MapField.Sayable.said`, `Extensions.Sayable.said`,
  `Reserved.said`, `Member.Sayable.said`, `Rpc.Sayable.said`, `Import.said` — statements.  A
  negative number needs a configuration that allows it, as the default one does.
* `Statement` — the sorts of statements that can stand by themselves in a file, a message or a
  service, with the body that each is put in (`Statement.lone`).
* `Statement.parse_printed` — such a statement is read back, at any level of nesting.
-/

set_option autoImplicit false

namespace ProtoSchema

-- Powers are those of the core library, whatever else is imported.
attribute [local instance(high)] instPowNat

open Grammar Phrase

variable {ν : Type} {f : ν → Unit} {config : Config} {i : Nat}

/-- What is printed as a phrase is said. -/
theorem Phrase.Prints.said {α : Type} {q : Char → Bool} {p : Phrase α} {text : String} {x : α}
    (h : p.Prints q text x) : p.Said x := by
  obtain ⟨s, hs, hx⟩ := h
  exact ⟨0, s, hx 0, hs.scans.genuine⟩

/-! ## Names -/

theorem isWord_of_mem_primitiveWords {word : String} (h : word ∈ primitiveWords) : IsWord word := by
  have hall : ∀ w ∈ primitiveWords, w.toList.head?.any isWordStart ∧
      w.toList.tail.all isWordPart := by
    decide
  obtain ⟨hhead, htail⟩ := hall word h
  exact isWord_of_all hhead htail

/-- The head of an option name is a name or an extension in parentheses. -/
theorem OptionName.IsHead.exists_symbols {head : String} (h : OptionName.IsHead head) :
    ∃ s, spelled s = head ∧ (∀ a ∈ s, a.Genuine) ∧
      ((∀ i, Name i head s) ∨ ∀ i, OptionName.Extension noNote i s) := by
  cases h with
  | plain hword =>
    refine ⟨[.word head], ?_, List.forall_mem_singleton.mpr (.word hword), .inl fun i ↦ .word head⟩
    rw [spelled_cons, Symbol.spelling_word, spelled_nil, String.append_empty]
  | @extension root first name hroot hfirst hname =>
    obtain ⟨words, hwords, rfl⟩ := hname
    refine ⟨.mark .leftParen :: (Symbol.root root ++ (.word first :: Symbol.dotted words ++
      [.mark .rightParen])), ?_, ?_, .inr fun i ↦ ?_⟩
    · have hleft : (Symbol.mark .leftParen).spelling = "(" := rfl
      have hright : (Symbol.mark .rightParen).spelling = ")" := rfl
      rw [spelled_cons, spelled_append, spelled_append, spelled_cons, spelled_cons, spelled_nil,
        spelled_root hroot, Symbol.spelling_word, spelled_dotted, hleft, hright,
          String.append_empty]
      simp only [String.append_assoc]
    · rw [List.forall_mem_cons, List.forall_mem_append, List.forall_mem_append,
        List.forall_mem_singleton]
      exact ⟨.operator rfl, Symbol.genuine_root root, Symbol.genuine_words hfirst hwords,
        .operator rfl⟩
    · exact .mk rfl (optionalDot_root root) (FullName.derives_words first words) rfl

/-- The name of an option that is well formed has symbols. -/
theorem OptionName.WellFormed.exists_symbols {n : OptionName ν} (h : n.WellFormed) :
    ∃ s, (∀ a ∈ s, a.Genuine) ∧ ∀ i, (n.map f).Derives noNote i s := by
  obtain ⟨head, hhead, words, hwords, htext⟩ := h
  obtain ⟨s, rfl, hg, hs⟩ := hhead.exists_symbols
  rw [← spelled_dotted, ← spelled_append] at htext
  refine ⟨s ++ Symbol.dotted words,
    List.forall_mem_append.mpr ⟨hg, Symbol.genuine_dotted hwords⟩, fun i ↦ ?_⟩
  have hn : n.map f = ⟨spelled (s ++ Symbol.dotted words), ()⟩ := by rw [← htext]; rfl
  rw [hn]
  rcases hs with hs | hs
  · exact .plain (hs i) (many_dotted words)
  · exact .extension (hs i) (many_dotted words)

/-- A type that can be said begins with none of the words that mean something else. -/
theorem TypeRef.Sayable.exists_symbols {t : TypeRef ν} (h : t.Sayable) :
    ∃ first s, (∀ a ∈ first :: s, a.Genuine) ∧ (∀ w ∈ contextualWords, ¬first.isWord w) ∧
      ∀ i, (t.map f).Derives noNote i (first :: s) := by
  have not_isWord {first : Symbol} (hk : first.kind ≠ .identifier) :
      ∀ w ∈ contextualWords, ¬first.isWord w :=
    fun w _ hword ↦ hk (Symbol.kind_of_isWord hword)
  obtain ⟨text, loc⟩ := t
  have ht : (TypeRef.mk text loc).map f = ⟨text, ()⟩ := rfl
  rw [ht]
  cases h with
  | primitive hword =>
    have hk := Symbol.kind_word_eq_primitiveType hword
    have hgenuine : (Symbol.word text).Genuine := .word (isWord_of_mem_primitiveWords hword)
    exact ⟨_, [], List.forall_mem_singleton.mpr hgenuine, not_isWord (by rw [hk]; nofun),
      fun i ↦ .primitive hk⟩
  | @named root first name hroot hfirst hprimitive hcontextual hname =>
    obtain ⟨words, hwords, rfl⟩ := hname
    have hderives (i : Nat) := TypeRef.derives_words (i := i) hroot hprimitive words
    have hgenuine := Symbol.genuine_words hfirst hwords
    rcases hroot with rfl | rfl
    · refine ⟨_, _, hgenuine, fun w hw hword ↦ hcontextual ?_, hderives⟩
      obtain rfl : first = w := (Symbol.isWord_iff.mp hword).2
      exact hw
    · have hdot : (Symbol.mark .dot).Genuine := .operator rfl
      exact ⟨_, _, List.forall_mem_cons.mpr ⟨hdot, hgenuine⟩, not_isWord nofun, hderives⟩

/-! ## Values -/

/-- A text that can be quoted is printed as itself. -/
theorem Quotable.prints_text {q : Char → Bool} {content : String} (h : Quotable content) :
    Text.Prints q (quoted content) content :=
  ⟨[.quoted content], .quoted (isQuote_quoteFor _) h.enclosed, fun _ ↦ .mk rfl rfl⟩

/-- A literal that can be said has symbols. -/
theorem Literal.Sayable.said {v : Literal} (h : v.Sayable) : Literal.Derives.Said v := by
  cases v with
  | text content =>
    obtain ⟨s, hs, ht⟩ := Quotable.prints_text (q := closes) h
    exact ⟨0, s, .text (ht 0), hs.scans.genuine⟩
  | integer negative n => exact (prints_integer h).said
  | float x => exact (prints_float x).said
  | bool b => exact (prints_bool b).said

/-- A value that can be said has symbols. -/
theorem Constant.Sayable.said {v : Constant ν} (h : v.Sayable) :
    (Constant.Derives noNote).Said (v.map f) := by
  cases v with
  | name n =>
    obtain ⟨first, hfirst, hother, words, hwords, htext⟩ := h
    rw [List.mem_cons, List.mem_cons, not_or, not_or] at hother
    obtain ⟨htrue, hfalse, hprimitive⟩ := hother
    have hn : n.map f = ⟨".".intercalate (first :: words), ()⟩ := by rw [← htext]; rfl
    have hk := Symbol.kind_word_eq_identifier hprimitive
    have hstarts : startsNameValue (.word first) := by
      have hne {w : String} (h : first ≠ w) : (Symbol.word first).isWord w = false :=
        Bool.eq_false_iff.mpr fun hw ↦ h (Symbol.isWord_iff.mp hw).2
      rw [startsNameValue, Symbol.is_iff.mpr hk, hne htrue, hne hfalse]
      rfl
    refine ⟨0, _, ?_, Symbol.genuine_words hfirst hwords⟩
    rw [Constant.map, hn]
    exact .name hstarts (FullName.derives_words first words)
  | literal v loc =>
    obtain ⟨i, s, hv, hg⟩ := Literal.Sayable.said h
    exact ⟨i, s, .literal hv, hg⟩

/-! ## Options and numbers -/

theorem Setting.Sayable.said_entry {x : Setting ν} (h : x.Sayable) :
    (Setting.DerivesEntry noNote).Said (x.map f) := by
  obtain ⟨s, hgs, hn⟩ := h.name.exists_symbols (f := f)
  obtain ⟨t, ht, hv⟩ := Constant.prints (h.value.said (f := f))
  refine ⟨0, s ++ .mark .equal :: t, .mk (hn 0) rfl (hv _), ?_⟩
  rw [List.forall_mem_append, List.forall_mem_cons]
  exact ⟨hgs, .operator rfl, ht.scans.genuine⟩

theorem said_entries {xs : List (Setting ν)} (h : ∀ x ∈ xs, x.Sayable) :
    ∀ x ∈ xs.map (Setting.map f), (Setting.DerivesEntry noNote).Said x :=
  List.forall_mem_map.mpr fun x hx ↦ (h x hx).said_entry

/-- An option that can be said has symbols. -/
theorem Setting.Sayable.said {x : Setting ν} (h : x.Sayable) :
    (Setting.Derives noNote).Said (x.map f) := by
  obtain ⟨t, ht, hentry⟩ := Setting.prints_entry (h.said_entry (f := f))
  refine ⟨0, .word "option" :: (t ++ [.mark .semicolon]), (hentry 1).statement rfl rfl, ?_⟩
  rw [List.forall_mem_cons, List.forall_mem_append, List.forall_mem_singleton]
  exact ⟨.word (isWord_of_all rfl rfl), ht.scans.genuine, .operator rfl⟩

/-- A name with a number and options has symbols. -/
theorem Numbered.Sayable.exists_symbols {name : String} {n : Int} {options : List (Setting ν)}
    (h : Numbered.Sayable name n options) (hconfig : config.allowNegative) :
    ∃ s, (∀ a ∈ Symbol.word name :: s, a.Genuine) ∧
      ∀ i, Phrase.Numbered Integer config noNote i (name, n, options.map (Setting.map f))
        (.word name :: s) := by
  obtain ⟨t, u, htext, hint, hoptions⟩ :=
    spells_numbered (.word h.name) (Symbol.isName_word name) h.number
      (said_entries h.options (f := f))
  exact ⟨_, htext.scans.genuine, fun i ↦
    .mk (Symbol.isName_word name) rfl (.mk (hint _) (.inr hconfig)) (hoptions _)⟩

theorem NumberRange.Sayable.said {x : NumberRange} (h : x.Sayable) :
    (NumberRange.Derives Integer).Said x := by
  have hto : (Symbol.word "to").Genuine := .word (isWord_of_all rfl rfl)
  have hmax : (Symbol.word "max").Genuine := .word (isWord_of_all rfl rfl)
  cases x with
  | single n =>
    obtain ⟨t, ht, hn⟩ := prints_int h
    exact ⟨0, t, .single (hn 0), ht.scans.genuine⟩
  | span low high =>
    cases high with
    | max =>
      obtain ⟨t, ht, hn⟩ := prints_int h
      refine ⟨0, t ++ [.word "to", .word "max"], .toMax (hn 0) rfl rfl, ?_⟩
      rw [List.forall_mem_append]
      exact ⟨ht.scans.genuine, by simp [hto, hmax]⟩
    | number high =>
      obtain ⟨t, ht, hn⟩ := prints_int h.1
      obtain ⟨u, hu, hm⟩ := prints_int h.2
      refine ⟨0, t ++ .word "to" :: u, .span (hn 0) rfl (hm _) fun first hfirst hword ↦ ?_, ?_⟩
      · obtain ⟨a, v, rfl, ha⟩ := (hm 0).head_of_genuine hu.scans.genuine
        obtain rfl := Option.some.inj hfirst
        have hk := Symbol.kind_of_isWord hword
        rcases ha with ha | ha <;> exact nomatch hk.symm.trans ha
      · rw [List.forall_mem_append, List.forall_mem_cons]
        exact ⟨ht.scans.genuine, hto, hu.scans.genuine⟩

/-! ## Statements -/

theorem statementWords_subset : statementWords ⊆ contextualWords := by decide

theorem Label.isWord_word (label : Label) : IsWord label.word := by
  cases label <;> exact isWord_of_all rfl rfl

theorem Label.word_mem (label : Label) :
    label.word ∈ contextualWords ∧ label.word ∉ statementWords := by
  cases label <;> decide

theorem labelOf?_eq_none {first : Symbol} (h : ∀ w ∈ contextualWords, ¬first.isWord w) :
    labelOf? first = none := by
  cases hlabel : labelOf? first with
  | none => rfl
  | some label => exact absurd (Reader.isWord_of_labelOf? hlabel) (h _ label.word_mem.1)

theorem labelOf?_word (label : Label) : labelOf? (.word label.word) = some label := by
  cases label <;> rfl

/-- A field that can be said has symbols, and in a message these are those of a field. -/
theorem Field.Sayable.exists_symbols {x : Field ν} (h : x.Sayable)
    (hconfig : config.allowNegative) :
    ∃ first next s, (∀ a ∈ first :: next :: s, a.Genuine) ∧ Body.message.readsField first next ∧
      ∀ i, (x.map f).Derives config noNote i (first :: next :: s) := by
  obtain ⟨⟨type, htype, hsayable⟩, hnumbered⟩ := h
  obtain ⟨first, s, hgtype, hfirst, hderives⟩ := hsayable.exists_symbols (f := f)
  obtain ⟨t, hgn, hn⟩ := hnumbered.exists_symbols (f := f) hconfig
  obtain ⟨label?, type?, name, number, options, loc⟩ := x
  obtain rfl : type? = some type := htype
  have hsemi : (Symbol.mark .semicolon).kind = .semicolon := rfl
  have hgsemi : ∀ a ∈ [Symbol.mark .semicolon], a.Genuine :=
    List.forall_mem_singleton.mpr (.operator rfl)
  cases label? with
  | some label =>
    have hlabel : (Symbol.word label.word).Genuine := .word label.isWord_word
    refine ⟨.word label.word, first, s ++ (.word name :: t ++ [.mark .semicolon]), ?_, ?_,
      fun i ↦ ?_⟩
    · refine List.forall_mem_cons.mpr ⟨hlabel, ?_⟩
      rw [← List.cons_append, List.forall_mem_append, List.forall_mem_append]
      exact ⟨hgtype, hgn, hgsemi⟩
    · refine Body.readsField_of_not_word ?_ fun w hw hword ↦ ?_
      · rw [startsGroup, Bool.eq_false_iff.mpr (hfirst "group" (by decide)), Bool.false_and]
        exact Bool.false_ne_true
      · obtain rfl : label.word = w := (Symbol.isWord_iff.mp hword).2
        exact label.word_mem.2 hw
    · exact .labelled (labelOf?_word label) (hderives _) (hn _) hsemi
  | none =>
    have hderives (i : Nat) : Field.Derives config noNote i
        (Field.map f ⟨none, some type, name, number, options, loc⟩)
        (first :: (s ++ (.word name :: t ++ [.mark .semicolon]))) :=
      .plain (labelOf?_eq_none hfirst) (hderives _) (hn _) hsemi
    have hgenuine : ∀ a ∈ first :: (s ++ (.word name :: t ++ [.mark .semicolon])), a.Genuine := by
      rw [← List.cons_append, List.forall_mem_append, List.forall_mem_append]
      exact ⟨hgtype, hgn, hgsemi⟩
    obtain ⟨next, u, hu⟩ : ∃ next u, s ++ (.word name :: t ++ [.mark .semicolon]) = next :: u := by
      cases s <;> exact ⟨_, _, rfl⟩
    rw [hu] at hgenuine
    refine ⟨first, next, u, hgenuine, ?_, fun i ↦ hu ▸ hderives i⟩
    refine Body.readsField_of_not_word ?_ fun w hw ↦ hfirst w (statementWords_subset hw)
    rw [startsGroup, labelOf?_eq_none hfirst, Option.isSome_none, Bool.and_false]
    exact Bool.false_ne_true

theorem MapField.Sayable.said {x : MapField ν} (h : x.Sayable) (hconfig : config.allowNegative) :
    (MapField.Derives Integer config noNote).Said (x.map f) := by
  obtain ⟨hkey, htype, hnumbered⟩ := h
  obtain ⟨first, s, hgtype, -, hderives⟩ := htype.exists_symbols (f := f)
  obtain ⟨t, hgn, hn⟩ := hnumbered.exists_symbols (f := f) hconfig
  refine ⟨0, .word "map" :: .mark .less :: .word x.keyType :: .mark .comma :: (first :: s ++
    .mark .greater :: (.word x.name :: t ++ [.mark .semicolon])), .mk rfl rfl
    (Symbol.kind_word_eq_primitiveType hkey) rfl (hderives _) rfl (hn _) rfl, ?_⟩
  simp only [List.forall_mem_cons, List.forall_mem_append] at hgtype hgn ⊢
  exact ⟨.word (isWord_of_all rfl rfl), .operator rfl, .word (isWord_of_mem_primitiveWords hkey),
    .operator rfl, hgtype, .operator rfl, hgn, .operator rfl, nofun⟩

theorem prints_sayable {xs : List NumberRange} (hne : xs ≠ []) (h : ∀ x ∈ xs, x.Sayable) :
    (Separated (NumberRange.Derives Integer)).Prints closes
      (commaSeparated (xs.map NumberRange.print)) xs :=
  prints_commaSeparated hne fun x hx ↦ NumberRange.prints (h x hx).said

theorem Extensions.Sayable.said {x : Extensions ν} (h : x.Sayable) :
    (Extensions.Derives Integer noNote).Said (x.map f) := by
  obtain ⟨s, hs, hranges⟩ := prints_sayable h.nonempty h.ranges
  obtain ⟨t, ht, hoptions⟩ := Setting.prints_bracketed (said_entries h.options (f := f))
  refine ⟨0, .word "extensions" :: (s ++ (t ++ [.mark .semicolon])), .mk rfl (hranges _)
    (hoptions _) rfl, ?_⟩
  simp only [List.forall_mem_cons, List.forall_mem_append]
  exact ⟨.word (isWord_of_all rfl rfl), hs.scans.genuine, ht.scans.genuine, .operator rfl, nofun⟩

theorem ReservedItems.Sayable.said {x : ReservedItems} (h : x.Sayable) :
    (ReservedItems.Derives Integer).Said x := by
  cases x with
  | ranges xs =>
    obtain ⟨s, hs, hranges⟩ := prints_sayable h.1 h.2
    refine ⟨0, s, .ranges (hranges 0) fun first hfirst hk ↦ ?_, hs.scans.genuine⟩
    obtain ⟨a, u, rfl, ha⟩ := (hranges 0).head_of_genuine hs.scans.genuine
    obtain rfl := Option.some.inj hfirst
    rcases ha with ha | ha <;> exact nomatch hk.symm.trans ha
  | names xs =>
    obtain ⟨s, hs, hnames⟩ := prints_commaSeparated h.1 fun x hx ↦ (h.2 x hx).prints_text
    exact ⟨0, s, .names (hnames 0), hs.scans.genuine⟩

theorem Reserved.said {x : Reserved ν} (h : x.items.Sayable) :
    (Reserved.Derives Integer noNote).Said (x.map f) := by
  obtain ⟨s, hs, hitems⟩ := ReservedItems.prints h.said
  refine ⟨0, .word "reserved" :: (s ++ [.mark .semicolon]), .mk rfl (hitems _) rfl, ?_⟩
  simp only [List.forall_mem_cons, List.forall_mem_append]
  exact ⟨.word (isWord_of_all rfl rfl), hs.scans.genuine, .operator rfl, nofun⟩

/-- A statement of a message that can be said has symbols. -/
theorem Member.Sayable.said {x : Member ν} (h : x.Sayable) (hconfig : config.allowNegative)
    {inner : Body → Phrase (List (Member Unit))} :
    (Member.Derives Integer config noNote inner .message).Said (x.map f) := by
  cases h with
  | field h =>
    obtain ⟨first, next, s, hg, hreads, hx⟩ := h.exists_symbols (f := f) hconfig
    exact ⟨0, _, .field (hx 0) hreads, hg⟩
  | mapField h =>
    obtain ⟨i, s, hx, hg⟩ := h.said (f := f) hconfig
    exact ⟨i, s, .mapField hx, hg⟩
  | setting h =>
    obtain ⟨i, s, hx, hg⟩ := h.said (f := f)
    exact ⟨i, s, .setting hx, hg⟩
  | extensions h =>
    obtain ⟨i, s, hx, hg⟩ := h.said (f := f)
    obtain ⟨word, next, t, rfl⟩ := hx.exists_cons_cons
    refine ⟨i, _, .extensions hx ?_, hg⟩
    rcases hx.kind_next hg with hk | hk <;> simp [hk]
  | reserved h =>
    obtain ⟨i, s, hx, hg⟩ := Reserved.said (f := f) h
    obtain ⟨word, next, t, rfl⟩ := hx.exists_cons_cons
    refine ⟨i, _, .reserved hx ?_, hg⟩
    rcases hx.kind_next hg with hk | hk | hk <;> simp [hk]

/-! ### Calls -/

theorem TypeRef.Sayable.endpoint {t : TypeRef ν} (h : t.Sayable) (stream : Bool) :
    ∃ s, (∀ a ∈ s, a.Genuine) ∧ ∀ i, Rpc.Endpoint noNote i (stream, t.map f) s := by
  obtain ⟨first, s, hg, hfirst, hderives⟩ := h.exists_symbols (f := f)
  have hleft : (Symbol.mark .leftParen).Genuine := .operator rfl
  have hright : (Symbol.mark .rightParen).Genuine := .operator rfl
  cases stream with
  | false =>
    refine ⟨.mark .leftParen :: first :: (s ++ [.mark .rightParen]), ?_, fun i ↦
      .plain rfl (hderives _) (fun hword ↦ absurd hword (hfirst "stream" (by decide))) rfl⟩
    rw [List.forall_mem_cons, ← List.cons_append, List.forall_mem_append, List.forall_mem_singleton]
    exact ⟨hleft, hg, hright⟩
  | true =>
    refine ⟨.mark .leftParen :: .word "stream" :: (first :: s ++ [.mark .rightParen]), ?_, fun i ↦
      .stream rfl rfl (hderives _) rfl⟩
    rw [List.forall_mem_cons, List.forall_mem_cons, List.forall_mem_append,
      List.forall_mem_singleton]
    exact ⟨hleft, .word (isWord_of_all rfl rfl), hg, hright⟩

/-- A call that can be said has symbols. -/
theorem Rpc.Sayable.said {x : Rpc ν} (h : x.Sayable) : (Rpc.Derives noNote).Said (x.map f) := by
  obtain ⟨s, hgs, hin⟩ := h.input.endpoint (f := f) x.inputStream
  obtain ⟨t, hgt, hout⟩ := h.output.endpoint (f := f) x.outputStream
  have hoptions : ∀ o ∈ x.options.map (Setting.map f), (Setting.Derives noNote).Said o :=
    List.forall_mem_map.mpr fun o ho ↦ (h.options o ho).said
  obtain ⟨u, hu, hstatements⟩ := printed_all fun o ho ↦ Setting.printed (hoptions o ho)
  have hend (i : Nat) : Rpc.End noNote i (x.options.map (Setting.map f))
      (.mark .leftBrace :: (u ++ [.mark .rightBrace])) := .block (.mk rfl (hstatements _) rfl)
  refine ⟨0, .word "rpc" :: .word x.name :: (s ++ .word "returns" :: (t ++ .mark .leftBrace ::
    (u ++ [.mark .rightBrace]))),
    .mk rfl (Symbol.isName_word x.name) (hin _) rfl (hout _) (hend _), ?_⟩
  simp only [List.forall_mem_cons, List.forall_mem_append]
  exact ⟨.word (isWord_of_all rfl rfl), .word h.name, hgs, .word (isWord_of_all rfl rfl), hgt,
    .operator rfl, hu.genuine, .operator rfl, nofun⟩

theorem Import.said {x : Import ν} (h : Quotable x.file) :
    (Import.Derives noNote).Said (x.map f) := by
  obtain ⟨s, hs, hfile⟩ := Quotable.prints_text (q := closes) h
  have hmodifier : ∃ u, (∀ a ∈ u, a.Genuine) ∧ Import.Modifier x.modifier? u := by
    cases x.modifier? with
    | none => exact ⟨[], nofun, .none⟩
    | some m =>
      refine ⟨[.word m.word], List.forall_mem_singleton.mpr (.word (isWord_modifier m)), .some ?_⟩
      cases m <;> rfl
  obtain ⟨u, hu, hm⟩ := hmodifier
  refine ⟨0, .word "import" :: (u ++ (s ++ [.mark .semicolon])), .mk rfl hm (hfile _) rfl, ?_⟩
  simp only [List.forall_mem_cons, List.forall_mem_append]
  exact ⟨.word (isWord_of_all rfl rfl), hu, hs.scans.genuine, .operator rfl, nofun⟩

/-! ## Reading what was printed -/

/-- A statement of a sort that stands by itself in a file, a message or a service. -/
inductive Statement (ν : Type) where
  | importFile (x : Import ν)
  | member (x : Member ν)
  | rpc (x : Rpc ν)

namespace Statement

/-- The statement can be said. -/
def Sayable : Statement ν → Prop
  | importFile x => Quotable x.file
  | member x => x.Sayable
  | rpc x => x.Sayable

/-- Prints the statement. -/
def printTo : Statement ν → Printer → Printer
  | importFile x => x.printTo
  | member x => x.printTo
  | rpc x => x.printTo

/-- The statement without its notes in the body that it stands in. -/
def lone : Statement ν → Lone Unit
  | importFile x => .file (.importFile (x.map fun _ => ()))
  | member x => .message (x.map fun _ => ())
  | rpc x => .service (.rpc (x.map fun _ => ()))

/-- A sayable statement is printed as what it is. -/
theorem Sayable.printed {x : Statement ν} (h : x.Sayable) (hconfig : config.allowNegative)
    (hdepth : config.maxDepth ≠ 0) : (Lone.Derives config).Printed x.printTo x.lone := by
  cases x with
  | importFile x => exact (Import.printed (Import.said h)).imp fun _ _ h ↦ .file (.importFile h)
  | member x =>
    obtain ⟨depth, hdepth⟩ := Nat.exists_eq_succ_of_ne_zero hdepth
    have hsaid : (Member.Derives Integer config noNote (Body.Derives Integer config noNote depth)
        .message).Said (x.map fun _ ↦ ()) := h.said hconfig
    have hprinted := Member.printed (Body.bodied depth) hsaid
    rw [Member.printTo_map] at hprinted
    exact hprinted.imp fun _ _ h ↦ .message hdepth h
  | rpc x =>
    have hprinted := Rpc.printed (Rpc.Sayable.said h (f := fun _ ↦ ()))
    rw [Rpc.printTo_map] at hprinted
    exact hprinted.imp fun _ _ h ↦ .service (.rpc h)

/-- **A statement that was made by hand is read as what it is.**  Printed with any indentation, and
with a body around it if it needs one, it is a file in which it stands alone. -/
theorem parse_printed {x : Statement ν} (h : x.Sayable) (indent : Nat) :
    ∃ d, parse (x.lone.host.around (x.printTo ⟨"", indent⟩).out) {} = .ok d ∧
      d.schema.erase = x.lone.schema := by
  have hprinted : (Lone.Derives {}).Printed x.printTo x.lone := h.printed rfl nofun
  obtain ⟨s, hwrites, hderives⟩ := hprinted
  obtain ⟨text, htext, hspells⟩ := hwrites ⟨"", indent⟩
  rw [htext, String.empty_append]
  exact Lone.exists_parse hspells hderives

/-- A field with the least number, a type that starts at the root, and options of several sorts: a
string with an escape, the largest magnitude below zero and a name. -/
theorem parse_printed_field :
    ∃ (x : Statement Unit) (d : Document),
      x = .member (.field ⟨some .optional, some ⟨".a.message", ()⟩, "string", -2 ^ 63,
        [⟨⟨"(.x.y).z", ()⟩, .literal (.text "\\'\"") (), ()⟩,
          ⟨⟨"int32", ()⟩, .literal (.integer true (2 ^ 64 - 1)) (), ()⟩,
          ⟨⟨"n", ()⟩, .name ⟨"inf.true", ()⟩, ()⟩], ()⟩) ∧ x.Sayable ∧
      parse (x.lone.host.around (x.printTo ⟨"", 1⟩).out) {} = .ok d ∧
      d.schema.erase = x.lone.schema := by
  have word {w : String} (h : w.toList.head?.any isWordStart ∧ w.toList.tail.all isWordPart) :
      IsWord w := isWord_of_all h.1 h.2
  have others {w : String} (h : w.toList.head?.any isWordStart ∧ w.toList.tail.all isWordPart) :
      ∀ v ∈ [w], IsWord v := List.forall_mem_singleton.mpr (word h)
  have htype : TypeRef.IsPlain ("." ++ "a.message") :=
    .named (.inr rfl) (word (w := "a") (by decide)) (by decide) (by decide)
      ⟨["message"], others (by decide), rfl⟩
  have hdotted : IsDotted "x" "x.y" := ⟨["y"], others (by decide), rfl⟩
  have hname : OptionName.IsHead ("(" ++ "." ++ "x.y" ++ ")") :=
    .extension (.inr rfl) (word (by decide)) hdotted
  have hplain {name : String} (h : IsWord name) : (⟨name, ()⟩ : OptionName Unit).WellFormed :=
    ⟨name, .plain h, [], nofun, rfl⟩
  have htext : Quotable "\\'\"" := ⟨by decide, by decide, by decide⟩
  have hlimit : 2 ^ 64 - 1 < Numeral.integerLimit := by decide
  obtain ⟨x, hx⟩ : ∃ x : Statement Unit,
      x = .member (.field ⟨some .optional, some ⟨".a.message", ()⟩, "string", -2 ^ 63,
        [⟨⟨"(.x.y).z", ()⟩, .literal (.text "\\'\"") (), ()⟩,
          ⟨⟨"int32", ()⟩, .literal (.integer true (2 ^ 64 - 1)) (), ()⟩,
          ⟨⟨"n", ()⟩, .name ⟨"inf.true", ()⟩, ()⟩], ()⟩) := ⟨_, rfl⟩
  have hsayable : x.Sayable := by
    rw [hx]
    refine .field ⟨⟨_, rfl, htype⟩, word (by decide), by decide, ?_⟩
    simp only [List.forall_mem_cons]
    exact ⟨⟨⟨_, hname, ["z"], others (by decide), rfl⟩, htext⟩,
      ⟨hplain (word (by decide)), hlimit⟩,
      ⟨hplain (word (by decide)), "inf", word (by decide), by decide, ["true"], others (by decide),
        rfl⟩,
      nofun⟩
  obtain ⟨d, h, hd⟩ := parse_printed hsayable 1
  exact ⟨x, d, hx, hsayable, h, hd⟩

end Statement

end ProtoSchema
