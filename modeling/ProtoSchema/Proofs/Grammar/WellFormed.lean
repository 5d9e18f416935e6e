import ProtoSchema.Proofs.Grammar.Coverage
import ProtoSchema.Proofs.Schema.WellFormed
import ProtoSchema.Proofs.Token.Scans

/-!
# What is read is well formed

The symbols of a text are genuine: what is a name is a word, what is a string stands between quotes.
A node that is derived from genuine symbols is well formed, and each node of a schema is derived
from symbols of its own, so all nodes of a schema that is read are well formed.

This does not hold of buffers that are made by hand, which can have a name with anything for its
lexeme.

## What is here

* `Symbol.Genuine.mem_primitiveWords`, `Symbol.Genuine.quotable` — what the lexeme of a genuine
  symbol is.
* `isDotted_spelled` and the lemmas behind it — names of several symbols are words with dots between
  them.
* `TypeRef.Derives.wellFormed`, `TypeRef.Derives.sort_of_cons` — type references, and what the first
  symbol of one tells of it.
* `Literal.Derives.wellFormed`, `Constant.Derives.wellFormed` — values.
* `Field.Derives.isWord` to `EnumType.Derives.wellFormed` — statements.
* `Node.Derives.wellFormed` — a node of any sort.
* `Document.derives_of_parse` — the symbols of a text, with the places of the tokens as notes.
* `TypeRef.Derives.marked` — the first token of a reference.
* `Document.nodes_wellFormed` — all nodes of a document, by `Schema.Derives.nodesOccur`, and
  `Document.nodes_wellFormed_references`, references of all sorts in one text.
-/

set_option autoImplicit false

namespace ProtoSchema

open Grammar Phrase

/-! ## Symbols -/

namespace Symbol.Genuine

variable {s : Symbol}

/-- The lexeme of a scalar type is one of the words for them. -/
theorem mem_primitiveWords (h : s.Genuine) (hk : s.kind = .primitiveType) :
    s.lexeme ∈ primitiveWords := by
  obtain ⟨-, heq⟩ := h.isWord_lexeme (by simp [isName, hk])
  rw [heq, Symbol.word, Kind.ofWord] at hk
  split at hk
  · rename_i hword
    exact List.contains_iff_mem.mp hword
  · cases hk

/-- That of another word is not. -/
theorem not_mem_primitiveWords (h : s.Genuine) (hk : s.kind = .identifier) :
    s.lexeme ∉ primitiveWords := by
  obtain ⟨-, heq⟩ := h.isWord_lexeme (isName_of_kind hk)
  rw [heq, Symbol.word, Kind.ofWord] at hk
  split at hk
  · cases hk
  · rename_i hword
    exact fun hmem ↦ hword (List.contains_iff_mem.mpr hmem)

/-- The content of a string can be quoted. -/
theorem quotable (h : s.Genuine) {content : String} (hk : s.kind = .string)
    (hc : s.text? = some content) : Quotable content := by
  cases h with
  | string hq henclosed =>
    obtain rfl := Option.some.inj hc
    exact henclosed.quotable hq
  | word =>
    rw [Kind.ofWord] at hk
    split at hk <;> cases hk
  | operator h =>
    obtain rfl : _ = Kind.string := hk
    cases h
  | integer | float | lineComment | blockComment => cases hk

end Symbol.Genuine

/-- The word of a scalar type has no dot. -/
theorem dot_not_mem_of_mem_primitiveWords {word : String} (h : word ∈ primitiveWords) :
    '.' ∉ word.toList := by
  revert h word
  decide

/-! ## Names -/

variable {i : Nat} {s : List Symbol}

/-- A name is a word. -/
theorem Phrase.Name.isWord {w : String} (h : Name i w s) (hg : ∀ a ∈ s, a.Genuine) : IsWord w := by
  obtain ⟨hs⟩ := h
  exact ((hg _ List.mem_cons_self).isWord_lexeme hs).1

/-- Names with a dot in front of each. -/
theorem isDotted_spelled {words : List String} (h : Many (Behind .dot Name) i words s)
    (hg : ∀ a ∈ s, a.Genuine) (head : String) : IsDotted head (head ++ spelled s) := by
  suffices hwords : (∀ w ∈ words, IsWord w) ∧
      ∀ head, head ++ spelled s = ".".intercalate (head :: words) from
    ⟨words, hwords.1, hwords.2 head⟩
  induction h with
  | nil =>
    exact ⟨nofun, fun head ↦ by rw [spelled_nil, String.append_empty, String.intercalate_singleton]⟩
  | @cons i w ws s t hw _ ih =>
    obtain ⟨hdot, hname⟩ := hw
    rw [List.forall_mem_append, List.forall_mem_cons] at hg
    obtain ⟨hwords, hspelled⟩ := ih hg.2
    refine ⟨List.forall_mem_cons.mpr ⟨hname.isWord hg.1.2, hwords⟩, fun head ↦ ?_⟩
    rw [spelled_append, spelled_cons, Symbol.spelling_of_kind hdot rfl, hname.spelled_eq,
      String.intercalate_cons_cons, ← hspelled]
    simp only [String.append_assoc]

theorem OptionalDot.isRoot (h : OptionalDot s) : IsRoot (spelled s) := by
  cases h with
  | none => exact .inl rfl
  | some hs =>
    refine .inr ?_
    rw [spelled_cons, Symbol.spelling_of_kind hs rfl, spelled_nil, String.append_empty]

variable {ν : Type} {note : Extent → ν}

theorem FullName.Derives.isDotted {n : FullName ν} {first : Symbol}
    (h : n.Derives note i (first :: s)) (hg : ∀ a ∈ first :: s, a.Genuine) :
    IsWord first.lexeme ∧ IsDotted first.lexeme n.text := by
  generalize ht : first :: s = t at h hg
  cases h with
  | mk head tail =>
    rw [List.forall_mem_append] at hg
    rw [spelled_append, head.spelled_eq]
    have hword := head.isWord hg.1
    obtain ⟨hname⟩ := head
    obtain ⟨rfl, -⟩ := List.cons.inj ht
    exact ⟨hword, isDotted_spelled tail hg.2 _⟩

/-- A name is words with dots between them. -/
theorem FullName.Derives.wellFormed {n : FullName ν} (h : n.Derives note i s)
    (hg : ∀ a ∈ s, a.Genuine) : n.WellFormed := by
  obtain ⟨first, t, rfl, -⟩ := h.exists_cons
  exact ⟨_, h.isDotted hg⟩

theorem OptionName.Extension.isHead (h : OptionName.Extension note i s) (hg : ∀ a ∈ s, a.Genuine) :
    OptionName.IsHead (spelled s) := by
  obtain ⟨hl, hroot, hn, hr⟩ := h
  rw [List.forall_mem_cons, List.forall_mem_append, List.forall_mem_append] at hg
  obtain ⟨first, hfirst, hdotted⟩ := hn.wellFormed hg.2.2.1
  rw [spelled_cons, spelled_append, spelled_append, spelled_cons, spelled_nil, String.append_empty,
    Symbol.spelling_of_kind hl rfl, Symbol.spelling_of_kind hr rfl, hn.spelled_eq,
    ← String.append_assoc, ← String.append_assoc]
  exact .extension hroot.isRoot hfirst hdotted

/-- So is the name of an option, but for the parentheses of an extension. -/
theorem OptionName.Derives.wellFormed {n : OptionName ν} (h : n.Derives note i s)
    (hg : ∀ a ∈ s, a.Genuine) : n.WellFormed := by
  rcases h with ⟨head, tail⟩ | ⟨head, tail⟩ <;> rw [List.forall_mem_append] at hg
  · refine ⟨_, .plain (head.isWord hg.1), ?_⟩
    rw [← head.spelled_eq, spelled_append]
    exact isDotted_spelled tail hg.2 _
  · refine ⟨_, head.isHead hg.1, ?_⟩
    rw [spelled_append]
    exact isDotted_spelled tail hg.2 _

/-! ## Type references -/

/-- The text of a reference that is not the word of a scalar type has a dot, or is another word. -/
theorem IsDotted.not_mem_primitiveWords {root first name : String} (hroot : IsRoot root)
    (hprimitive : first ∉ primitiveWords) (h : IsDotted first name) :
    root ++ name ∉ primitiveWords := by
  obtain ⟨words, -, rfl⟩ := h
  intro hmem
  have hdot := dot_not_mem_of_mem_primitiveWords hmem
  rcases hroot with rfl | rfl
  · cases words with
    | nil => exact hprimitive (by simpa using hmem)
    | cons w ws => simp [String.intercalate_cons_cons] at hdot
  · simp at hdot

/-- A reference is the word of a scalar type, or words with dots between them. -/
theorem TypeRef.Derives.wellFormed {t : TypeRef ν} (h : t.Derives note i s)
    (hg : ∀ a ∈ s, a.Genuine) : t.WellFormed := by
  cases h with
  | primitive hs => exact .primitive ((hg _ List.mem_cons_self).mem_primitiveWords hs)
  | @named _ first ws root t hroot hs tail =>
    rw [List.forall_mem_append, List.forall_mem_cons] at hg
    have hname := Symbol.isName_of_kind hs
    show IsReference (spelled (root ++ first :: t))
    rw [spelled_append, spelled_cons, Symbol.spelling_of_isName hname]
    exact .named hroot.isRoot (hg.2.1.isWord_lexeme hname).1 (hg.2.1.not_mem_primitiveWords hs)
      (isDotted_spelled tail hg.2.2 _)

/-- A reference begins with the symbol of a scalar type, a dot or another word, and the text says
which of them it is. -/
theorem TypeRef.Derives.sort_of_cons {t : TypeRef ν} {first : Symbol}
    (h : t.Derives note i (first :: s)) (hg : ∀ a ∈ first :: s, a.Genuine) :
    (t.isPrimitive ↔ first.kind = .primitiveType) ∧ (t.isRooted ↔ first.kind = .dot) := by
  generalize hu : first :: s = u at h hg
  have hdot : ∀ word ∈ primitiveWords, word.toList.head? ≠ some '.' :=
    fun word hword hhead ↦ dot_not_mem_of_mem_primitiveWords hword (List.mem_of_mem_head? hhead)
  cases h with
  | primitive hs =>
    obtain ⟨rfl, -⟩ := List.cons.inj hu
    have hmem := (hg _ List.mem_cons_self).mem_primitiveWords hs
    simp [isPrimitive, isPrimitiveWord, TypeRef.isRooted, hs, hmem, hdot]
  | @named _ a ws root t hroot hs tail =>
    rw [List.forall_mem_append, List.forall_mem_cons] at hg
    have hname := Symbol.isName_of_kind hs
    have hdotted := isDotted_spelled tail hg.2.2 a.lexeme
    have hnot := hdotted.not_mem_primitiveWords hroot.isRoot (hg.2.1.not_mem_primitiveWords hs)
    rw [← Symbol.spelling_of_isName hname, ← spelled_cons, ← spelled_append] at hnot
    have hprimitive : ¬isPrimitiveWord (spelled (root ++ a :: t)) :=
      fun h ↦ hnot (List.contains_iff_mem.mp h)
    cases hroot with
    | none =>
      obtain ⟨rfl, -⟩ := List.cons.inj hu
      refine ⟨iff_of_false hprimitive (by rw [hs]; nofun), iff_of_false ?_ (by rw [hs]; nofun)⟩
      obtain ⟨c, cs, hword, hc, -⟩ := (hg.2.1.isWord_lexeme hname).1
      have hhead : c ≠ '.' := by
        rintro rfl
        exact absurd hc (by decide)
      rw [TypeRef.isRooted, List.nil_append, spelled_cons, Symbol.spelling_of_isName hname, hword]
      simpa using hhead
    | some hd =>
      obtain ⟨rfl, -⟩ := List.cons.inj hu
      refine ⟨iff_of_false hprimitive (by rw [hd]; nofun), iff_of_true ?_ hd⟩
      rw [TypeRef.isRooted, List.singleton_append, spelled_cons, Symbol.spelling_of_kind hd rfl]
      simp

/-! ## Values -/

theorem Phrase.Text.quotable {content : String} (h : Text i content s) (hg : ∀ a ∈ s, a.Genuine) :
    Quotable content := by
  obtain ⟨hs, hc⟩ := h
  exact (hg _ List.mem_cons_self).quotable hs hc

theorem Literal.Derives.wellFormed {v : Literal} (h : v.Derives i s) (hg : ∀ a ∈ s, a.Genuine) :
    v.WellFormed := by
  cases h with
  | text ht => exact ht.quotable hg
  | @number _ _ n => cases n <;> trivial
  | @signed _ _ _ _ n => cases n <;> trivial
  | bool | infinity | nan => trivial

theorem Constant.Derives.wellFormed {v : Constant ν} (h : v.Derives note i s)
    (hg : ∀ a ∈ s, a.Genuine) : v.WellFormed := by
  cases h with
  | @name _ first t n hs hn =>
    rw [startsNameValue, Bool.and_eq_true, Bool.and_eq_true, Bool.not_eq_true', Bool.not_eq_true',
      Symbol.is_iff] at hs
    obtain ⟨⟨hk, htrue⟩, hfalse⟩ := hs
    have hother {word : String} (h : first.isWord word = false) : first.lexeme ≠ word :=
      fun heq ↦ absurd (Symbol.isWord_iff.mpr ⟨hk, heq⟩) (by rw [h]; nofun)
    obtain ⟨hword, hdotted⟩ := hn.isDotted hg
    refine ⟨first.lexeme, hword, ?_, hdotted⟩
    rw [List.mem_cons, List.mem_cons, not_or, not_or]
    exact ⟨hother htrue, hother hfalse, (hg _ List.mem_cons_self).not_mem_primitiveWords hk⟩
  | literal hv => exact hv.wellFormed hg

/-! ## Statements -/

theorem ReservedItems.Derives.wellFormed {bare : Phrase Int} {x : ReservedItems}
    (h : x.Derives bare i s) (hg : ∀ a ∈ s, a.Genuine) : x.WellFormed := by
  cases h with
  | ranges h => exact h.ne_nil
  | names h =>
    refine ⟨h.ne_nil, fun name hname ↦ ?_⟩
    obtain ⟨u, v, w, rfl, hv⟩ := h.occurs hname
    exact hv.quotable fun a ha ↦ hg a (List.mem_append_left _ (List.mem_append_right _ ha))

/-! ## Fields -/

variable {bare : Phrase Int} {config : Config}

theorem Phrase.Numbered.isWord {number : Phrase Int} {name : String} {n : Int}
    {options : List (Setting ν)} (h : Numbered number config note i (name, n, options) s)
    (hg : ∀ a ∈ s, a.Genuine) : IsWord name := by
  obtain ⟨hname, -⟩ := h
  exact ((hg _ List.mem_cons_self).isWord_lexeme hname).1

theorem Field.Derives.type?_isSome {f : Field ν} (h : f.Derives config note i s) :
    f.type?.isSome := by
  cases h <;> rfl

theorem Field.Derives.isWord {f : Field ν} (h : f.Derives config note i s)
    (hg : ∀ a ∈ s, a.Genuine) : IsWord f.name := by
  rcases h with ⟨-, -, hn, -⟩ | ⟨-, -, hn, -⟩ <;>
    · rw [List.forall_mem_cons, List.forall_mem_append, List.forall_mem_append] at hg
      exact hn.isWord hg.2.2.1

theorem MapField.Derives.wellFormed {m : MapField ν} (h : m.Derives bare config note i s)
    (hg : ∀ a ∈ s, a.Genuine) : IsWord m.name ∧ m.keyType ∈ primitiveWords := by
  obtain ⟨-, -, hkey, -, -, -, hn, -⟩ := h
  simp only [List.forall_mem_cons, List.forall_mem_append] at hg
  obtain ⟨-, -, hgkey, -, -, -, hgn, -⟩ := hg
  exact ⟨hn.isWord hgn, hgkey.mem_primitiveWords hkey⟩

/-! ## Bodies -/

theorem Body.Derives.type?_isSome {depth : Nat} {b : Body} {xs : List (Member ν)}
    (h : Body.Derives bare config note depth b i xs s) :
    ∀ f, .field f ∈ xs → f.type?.isSome := by
  intro f hf
  cases depth with
  | zero => exact h.elim
  | succ depth =>
    obtain ⟨u, v, w, -, hv⟩ := Block.occurs h hf
    cases hv with
    | field h _ => exact h.type?_isSome
    | group h => cases h
    | message h => cases h
    | extend h => cases h

theorem OneOf.Derives.wellFormed {o : OneOf ν} (h : o.Derives config note i s)
    (hg : ∀ a ∈ s, a.Genuine) : IsWord o.name ∧ ∀ f ∈ o.fields, f.type?.isSome := by
  obtain ⟨-, hname, hitems⟩ := h
  refine ⟨((hg _ (by simp)).isWord_lexeme hname).1, fun f hf ↦ ?_⟩
  obtain ⟨item, hitem, hf⟩ := List.mem_filterMap.mp hf
  obtain ⟨u, v, w, -, hv⟩ := hitems.occurs hitem
  cases hv with
  | setting => cases hf
  | field h _ =>
    obtain rfl := Option.some.inj hf
    exact h.type?_isSome

theorem EnumType.Derives.wellFormed {e : EnumType ν} (h : e.Derives bare note i s)
    (hg : ∀ a ∈ s, a.Genuine) :
    IsWord e.name ∧ ∀ v ∈ e.values, v.type? = none ∧ v.label? = none := by
  obtain ⟨-, hname, hitems⟩ := h
  refine ⟨((hg _ (by simp)).isWord_lexeme hname).1, fun v hv ↦ ?_⟩
  obtain ⟨item, hitem, hv⟩ := List.mem_filterMap.mp hv
  obtain ⟨u, t, w, -, ht⟩ := hitems.occurs hitem
  cases ht with
  | value h =>
    obtain rfl := Option.some.inj hv
    cases h
    exact ⟨rfl, rfl⟩
  | setting | reserved => cases hv

/-! ## Nodes -/

/-- A node that is made of genuine symbols is well formed. -/
theorem Node.Derives.wellFormed {n : Node ν} (h : n.Derives bare config note i s)
    (hg : ∀ a ∈ s, a.Genuine) : n.WellFormed := by
  have hword {a : Symbol} (ha : a ∈ s) (hname : a.isName) : IsWord a.lexeme :=
    ((hg a ha).isWord_lexeme hname).1
  cases h with
  | version => trivial
  | importFile h =>
    obtain ⟨-, -, hfile, -⟩ := h
    rw [List.forall_mem_cons, List.forall_mem_append, List.forall_mem_append] at hg
    exact hfile.quotable hg.2.2.1
  | package => trivial
  | service h =>
    obtain ⟨-, hname, -⟩ := h
    exact hword (by simp) hname
  | rpc h =>
    obtain ⟨-, hname, -⟩ := h
    exact hword (by simp) hname
  | field h => exact h.isWord hg
  | value h =>
    obtain ⟨hname, -⟩ := h
    exact hword (by simp) hname
  | mapField h => exact h.wellFormed hg
  | oneOf h => exact h.wellFormed hg
  | enumType h => exact h.wellFormed hg
  | extensions h =>
    obtain ⟨-, hranges, -⟩ := h
    exact hranges.ne_nil
  | reserved h =>
    obtain ⟨-, hitems, -⟩ := h
    rw [List.forall_mem_cons, List.forall_mem_append] at hg
    exact hitems.wellFormed hg.2.1
  | setting => trivial
  | entry => trivial
  | message _ h =>
    obtain ⟨-, hname, hbody⟩ := h
    exact ⟨hword (by simp) hname, hbody.type?_isSome⟩
  | group _ h =>
    obtain ⟨-, -, hn, hbody⟩ := h
    rw [List.forall_mem_cons, List.forall_mem_cons, List.forall_mem_append] at hg
    exact ⟨hn.isWord hg.2.2.1, hbody.type?_isSome⟩
  | extend _ h =>
    obtain ⟨-, -, hbody⟩ := h
    exact ⟨trivial, hbody.type?_isSome⟩
  | fullName h => exact h.wellFormed hg
  | optionName h => exact h.wellFormed hg
  | typeRef h => exact h.wellFormed hg
  | constant h => exact h.wellFormed hg
  | literal h => exact h.wellFormed hg

/-! ## Documents -/

/-- The symbols of a text that is read are genuine, and derive the schema. -/
theorem Document.derives_of_parse {text : String} {config : Config} {d : Document}
    (h : parse text config = .ok d) :
    d.schema.Derives Integer config (Sentence.ofBuffer d.tokens).locate 0
        (Sentence.ofBuffer d.tokens).cursor.rest ∧
      ∀ s ∈ (Sentence.ofBuffer d.tokens).cursor.rest, s.Genuine := by
  obtain ⟨tokens, hscan, hread⟩ := parse_eq_ok_iff.mp h
  obtain ⟨x, hx, htokens, hd⟩ :=
    Document.derives_of_ofTokens (Sentence.ofBuffer d.tokens).locate hread
  obtain ⟨ts, rfl, htiled⟩ := tiled_of_scanFrom hscan
  rw [← hx] at hd
  refine ⟨hd, fun s hs ↦ ?_⟩
  rw [htokens, endedBuffer_append rfl,
    Sentence.rest_cursor_append htiled.kind_ne_eof rfl] at hs
  exact genuine_of_mem_significant htiled hs

/-- What sort of reference it is, its first token tells. -/
theorem TypeRef.Derives.marked {tokens : List Token} {u v w : List Symbol} {t : TypeRef Location}
    (hrest : (Sentence.ofBuffer tokens).cursor.rest = u ++ v ++ w)
    (h : t.Derives (Sentence.ofBuffer tokens).locate u.length v) (hg : ∀ a ∈ v, a.Genuine) :
    t.Marked tokens := by
  obtain ⟨first, s, rfl, -⟩ := h.exists_cons
  obtain ⟨hprimitive, hrooted⟩ := h.sort_of_cons hg
  have hsplit : (Sentence.ofBuffer tokens).cursor.rest = u ++ first :: (s ++ w) := by simp [hrest]
  obtain ⟨-, token, htoken, rfl⟩ := Sentence.exists_place_token hsplit
  have hfirst : tokens[t.loc.firstToken]? = some token := by
    rw [h.loc_eq, ← htoken, Sentence.locate]
  constructor
  · rw [hprimitive, hfirst]
    simp
  · rw [hrooted, hfirst]
    simp

/-- **What is read is well formed**, at every depth, and the first token of each type reference
tells what sort of reference it is. -/
theorem Document.nodes_wellFormed {text : String} {config : Config} {d : Document}
    (h : parse text config = .ok d) :
    (∀ n ∈ d.schema.nodes, n.WellFormed) ∧
      ∀ t, .typeRef t ∈ d.schema.nodes → t.Marked d.tokens := by
  obtain ⟨hderives, hgenuine⟩ := Document.derives_of_parse h
  have hnode : ∀ n ∈ d.schema.nodes, ∃ u v w,
      (Sentence.ofBuffer d.tokens).cursor.rest = u ++ v ++ w ∧
        n.Derives Integer config (Sentence.ofBuffer d.tokens).locate u.length v ∧
          ∀ a ∈ v, a.Genuine := by
    intro n hn
    obtain ⟨u, v, w, huvw, hv⟩ := hderives.nodesOccur n hn
    rw [huvw] at hgenuine
    exact ⟨u, v, w, huvw, Nat.zero_add u.length ▸ hv, fun a ha ↦
      hgenuine a (List.mem_append_left _ (List.mem_append_right _ ha))⟩
  constructor
  · intro n hn
    obtain ⟨u, v, w, -, hv, hg⟩ := hnode n hn
    exact hv.wellFormed hg
  · intro t ht
    obtain ⟨u, v, w, huvw, hv, hg⟩ := hnode _ ht
    cases hv with
    | typeRef hv => exact hv.marked huvw hg

/-- References of all sorts, strings with quotes and escapes, and a group in an extension. -/
theorem Document.nodes_wellFormed_references :
    ∃ text d, text =
      "import 'a\\'\"'; message M \x7b repeated .int.int32 bool = 1; map<string, M.N> m = 2; " ++
        "reserved 'x'; extend int.M \x7b optional group G = 3 \x7b\x7d \x7d " ++
        "oneof o \x7b int32 i = 4; \x7d \x7d " ++
        "enum E \x7b option (.a.b).true = int.int32; A = 0; \x7d" ∧
      parse text {} = .ok d ∧ (∀ n ∈ d.schema.nodes, n.WellFormed) ∧
      ∀ t, .typeRef t ∈ d.schema.nodes → t.Marked d.tokens := by
  obtain ⟨d, h⟩ := exists_ok_of_isOk (x := parse
    ("import 'a\\'\"'; message M \x7b repeated .int.int32 bool = 1; map<string, M.N> m = 2; " ++
      "reserved 'x'; extend int.M \x7b optional group G = 3 \x7b\x7d \x7d " ++
      "oneof o \x7b int32 i = 4; \x7d \x7d " ++
      "enum E \x7b option (.a.b).true = int.int32; A = 0; \x7d") {}) (by decide +kernel)
  exact ⟨_, d, rfl, h, Document.nodes_wellFormed h⟩

end ProtoSchema
