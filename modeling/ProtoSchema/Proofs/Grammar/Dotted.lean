import ProtoSchema.Proofs.Print.Statement
import ProtoSchema.Proofs.Schema.WellFormed

/-!
# Names from their words

A name with dots in it is kept as one text, and a derivation has a symbol for each word and each
dot.  Here the symbols are made from the words, so that a name that was never read has symbols, too.

The words of a name are a list whose first item stands apart, as it does in the grammar: the first
word decides what the name can be, and the others are any words at all.  The text of the name is
then `".".intercalate (first :: words)`, which is how such a name is written in every statement that
uses this module.

## What is here

* `Symbol.dotted`, `Symbol.root` — the symbols of further words behind dots, and of the dot of a
  name that starts at the root.
* `Symbol.kind_word_eq_primitiveType`, `Symbol.kind_word_eq_identifier` — the kind of a word depends
  on whether it is the name of a primitive type.
* `spelled_dotted`, `spelled_root` — these symbols spell the text of the name again.
* `Symbol.genuine_words`, `Symbol.genuine_root` — they are symbols that a text can have, if the
  words are words.
* `FullName.derives_words` — any words are a name.
* `TypeRef.derives_words`, `TypeRef.derives_rootless` — and a type, unless the first of them is the
  name of a primitive type.

They serve where a tree is given and a text is looked for: `Proofs/Grammar/Constants.lean`,
`Proofs/Grammar/Fields.lean` and `Proofs/Print/Handmade.lean`.
-/

set_option autoImplicit false

namespace ProtoSchema

open Grammar Phrase

/-- The words with a dot in front of each. -/
def Symbol.dotted (words : List String) : List Symbol :=
  words.flatMap fun w => [.mark .dot, .word w]

/-- The dot of a name that starts at the root. -/
def Symbol.root (root : String) : List Symbol := if root = "." then [.mark .dot] else []

section Words

variable {first root : String} {words : List String} {i : Nat}

/-- The name of a primitive type has a kind of its own. -/
theorem Symbol.kind_word_eq_primitiveType (h : first ∈ primitiveWords) :
    (Symbol.word first).kind = .primitiveType :=
  if_pos (List.contains_iff_mem.mpr h)

/-- Any other word is an identifier. -/
theorem Symbol.kind_word_eq_identifier (h : first ∉ primitiveWords) :
    (Symbol.word first).kind = .identifier :=
  if_neg fun hmem ↦ h (List.contains_iff_mem.mp hmem)

theorem Symbol.isName_word (w : String) : (Symbol.word w).isName := by
  by_cases h : w ∈ primitiveWords
  · simp [isName, kind_word_eq_primitiveType h]
  · exact isName_of_kind (kind_word_eq_identifier h)

theorem Symbol.spelling_word (w : String) : (Symbol.word w).spelling = w :=
  spelling_of_isName (isName_word w)

theorem Phrase.Name.word (w : String) : Name i w [.word w] := .mk (Symbol.isName_word w)

/-- Words behind dots, as a row of phrases. -/
theorem many_dotted (words : List String) :
    Many (Behind .dot Name) i words (Symbol.dotted words) := by
  induction words generalizing i with
  | nil => exact .nil
  | cons w ws ih => exact .cons (s := [.mark .dot, .word w]) (.mk rfl (.word w)) ih

/-- The symbols of a name spell its text. -/
theorem spelled_dotted (first : String) (words : List String) :
    first ++ spelled (Symbol.dotted words) = ".".intercalate (first :: words) := by
  induction words generalizing first with
  | nil => rw [Symbol.dotted, List.flatMap_nil, spelled_nil, String.append_empty,
      String.intercalate_singleton]
  | cons w ws ih =>
    have hdot : (Symbol.mark .dot).spelling = "." := rfl
    rw [String.intercalate_cons_cons, ← ih, Symbol.dotted, List.flatMap_cons, spelled_append,
      spelled_cons, spelled_cons, spelled_nil, hdot, Symbol.spelling_word, String.append_empty,
      Symbol.dotted]
    simp only [String.append_assoc]

theorem spelled_root (h : IsRoot root) : spelled (Symbol.root root) = root := by
  rcases h with rfl | rfl <;> rfl

theorem optionalDot_root (root : String) : OptionalDot (Symbol.root root) := by
  rw [Symbol.root]
  split
  · exact .some rfl
  · exact .none

theorem Symbol.genuine_root (root : String) : ∀ a ∈ Symbol.root root, a.Genuine := by
  rw [Symbol.root]
  split
  · exact List.forall_mem_singleton.mpr (.operator rfl)
  · nofun

theorem Symbol.genuine_dotted (h : ∀ w ∈ words, IsWord w) :
    ∀ a ∈ Symbol.dotted words, a.Genuine := by
  intro a ha
  obtain ⟨w, hw, ha⟩ := List.mem_flatMap.mp ha
  rcases List.mem_pair.mp ha with rfl | rfl
  · exact .operator rfl
  · exact .word (h w hw)

/-- The symbols of a name are those of a text. -/
theorem Symbol.genuine_words (hfirst : IsWord first) (h : ∀ w ∈ words, IsWord w) :
    ∀ a ∈ Symbol.word first :: Symbol.dotted words, a.Genuine :=
  List.forall_mem_cons.mpr ⟨.word hfirst, genuine_dotted h⟩

/-- **Words with dots between them are a name**, whatever the words are. -/
theorem FullName.derives_words (first : String) (words : List String) :
    FullName.Derives noNote i ⟨".".intercalate (first :: words), ()⟩
      (.word first :: Symbol.dotted words) := by
  have hname : FullName.Derives noNote i _ _ := .mk (.word first) (many_dotted words)
  rwa [spelled_append, spelled_cons, spelled_nil, Symbol.spelling_word, String.append_empty,
    spelled_dotted] at hname

/-- They are a type, at the root or not, unless the first is the name of a primitive type. -/
theorem TypeRef.derives_words (hroot : IsRoot root) (hfirst : first ∉ primitiveWords)
    (words : List String) :
    TypeRef.Derives noNote i ⟨root ++ ".".intercalate (first :: words), ()⟩
      (Symbol.root root ++ .word first :: Symbol.dotted words) := by
  have htype : TypeRef.Derives noNote i _ _ :=
    .named (optionalDot_root root) (Symbol.kind_word_eq_identifier hfirst) (many_dotted words)
  rwa [spelled_append, spelled_cons, Symbol.spelling_word, spelled_root hroot,
    spelled_dotted] at htype

theorem TypeRef.derives_rootless (hfirst : first ∉ primitiveWords) (words : List String) :
    TypeRef.Derives noNote i ⟨".".intercalate (first :: words), ()⟩
      (.word first :: Symbol.dotted words) := by
  have htype := TypeRef.derives_words (i := i) (.inl rfl) hfirst words
  rwa [String.empty_append] at htype

end Words

end ProtoSchema
