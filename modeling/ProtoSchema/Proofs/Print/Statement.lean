import ProtoSchema.Proofs.Grammar.Elsewhere
import ProtoSchema.Proofs.Number.Written
import ProtoSchema.Proofs.Print.Writing

/-!
# Printed statements say what they were

Names are printed as they are spelled, and their symbols are those that they were made of.  Values
are printed in a form of their own, so the symbols of a value change, but they still make up the
value: strings get the quotes that are chosen for them, and numbers are written in base ten.

The notes are left out here: what is printed has other places.

## What is here

* `FullName.Derives.spells`, `OptionName.Derives.spells`, `TypeRef.Derives.spells` — the text of a
  name spells the symbols that it was read from.  Nothing is printed between them, so a name that
  was written with blanks around its dots loses them.
* `prints_integer`, `prints_float`, `prints_bool`, `Literal.prints`, `Constant.prints` — values.  A
  float is a number that reads back or the word of an infinity or of the NaN, which needs a sign in
  front to be a literal and not a name.
* `prints_int`, `NumberRange.prints` — integers with their sign, and ranges.
* `Setting.prints_entry`, `Setting.printed`, `Setting.prints_bracketed` — options in both places.
* `prints_numbered` — what a name, a number and options have in common wherever they stand.
* `Field.printed`, `MapField.printed`, `Field.printed_value` — fields and the values of enums.  The
  first two symbols of a field are printed as they were, so it cannot turn into something else.
-/

set_option autoImplicit false

namespace ProtoSchema

-- Powers are those of the core library, whatever else is imported.
attribute [local instance(high)] instPowNat

open Grammar Phrase

/-! ## Names -/

theorem Symbol.Genuine.spells_dot {q : Char → Bool} {s : Symbol} (h : s.Genuine)
    (hs : s.kind = .dot) : Spells q "." [s] := by
  rw [h.eq_mark hs rfl]
  exact .mark (c := '.') rfl rfl

section Names

variable {i : Nat} {ws : List String} {s ss ts : List Symbol} {text : String}

/-- A name with further ones behind dots is spelled as they are. -/
theorem Spells.dots (h : Spells endsWord text ss) (hws : Many (Behind .dot Name) i ws ts)
    (hg : ∀ a ∈ ts, a.Genuine) : Spells endsWord (text ++ spelled ts) (ss ++ ts) := by
  induction hws generalizing text ss with
  | nil => simpa using h
  | @cons i w ws s t hw _ ih =>
    obtain @⟨_, dot, _, _, hdot, @⟨_, name, hname⟩⟩ := hw
    rw [List.forall_mem_append] at hg
    obtain ⟨hgdot, hgname⟩ := List.forall_mem_cons.mp hg.1
    have hgn := hgname _ (List.mem_singleton_self _)
    have hword := (hgdot.spells_dot (q := anything) hdot).append (hgn.spells_name hname)
    have hhead : ("." ++ name.lexeme).toList.head? = some '.' := by simp
    have htext := ih (h.append_of_head hword hhead rfl) hg.2
    simpa [Symbol.spelling_of_kind hdot rfl, Symbol.spelling_of_isName hname,
      String.append_assoc] using htext

theorem Spells.name {j : Nat} {w : String} {t : List Symbol} (hw : Name i w s)
    (hws : Many (Behind .dot Name) j ws t) (hg : ∀ a ∈ s ++ t, a.Genuine) :
    Spells endsWord (spelled (s ++ t)) (s ++ t) := by
  obtain ⟨hname⟩ := hw
  obtain ⟨hgname, hgt⟩ := List.forall_mem_cons.mp hg
  rw [spelled_append, spelled_cons, spelled_nil, String.append_empty,
    Symbol.spelling_of_isName hname]
  exact (hgname.spells_name hname).dots hws hgt

theorem Spells.optionalDot {q : Char → Bool} (h : OptionalDot s) (hg : ∀ a ∈ s, a.Genuine) :
    Spells q (spelled s) s := by
  cases h with
  | none => exact .nil
  | @some dot hdot =>
    rw [spelled_cons, spelled_nil, String.append_empty, Symbol.spelling_of_kind hdot rfl]
    exact (hg dot List.mem_cons_self).spells_dot hdot

variable {note : Extent → Unit}

/-- A name is printed as it is spelled. -/
theorem FullName.Derives.spells {x : FullName Unit} (h : x.Derives note i s)
    (hg : ∀ a ∈ s, a.Genuine) : Spells endsWord x.text s := by
  obtain ⟨head, tail⟩ := h
  exact .name head tail hg

theorem OptionName.Extension.spells (h : Extension note i s) (hg : ∀ a ∈ s, a.Genuine) :
    Spells anything (spelled s) s := by
  obtain @⟨l, r, _, _, _, hl, hroot, hx, hr⟩ := h
  simp only [List.forall_mem_cons, List.forall_mem_append] at hg
  obtain ⟨hgl, hgroot, hgx, hgr, -⟩ := hg
  have hopen : Spells anything "(" [l] := by
    rw [hgl.eq_mark hl rfl]
    exact .leftParen
  have hclose : Spells anything ")" [r] := by
    rw [hgr.eq_mark hr rfl]
    exact .mark (c := ')') rfl rfl
  have htext := hopen.append ((Spells.optionalDot hroot hgroot).append
    ((hx.spells hgx).append_of_head hclose (c := ')') rfl rfl))
  simpa [Symbol.spelling_of_kind hl rfl, Symbol.spelling_of_kind hr rfl, hx.spelled_eq]
    using htext

/-- The name of an option is printed as it is spelled, parentheses included. -/
theorem OptionName.Derives.spells {x : OptionName Unit} (h : x.Derives note i s)
    (hg : ∀ a ∈ s, a.Genuine) : Spells endsWord x.text s := by
  rcases h with ⟨head, tail⟩ | ⟨head, tail⟩
  · exact .name head tail hg
  · rw [List.forall_mem_append] at hg
    rw [spelled_append]
    exact (head.spells hg.1).of_anything.dots tail hg.2

/-- A type is printed as it is spelled. -/
theorem TypeRef.Derives.spells {x : TypeRef Unit} (h : x.Derives note i s)
    (hg : ∀ a ∈ s, a.Genuine) : Spells endsWord x.text s := by
  cases h with
  | @primitive _ a ha => exact (hg a List.mem_cons_self).spells_name (by simp [Symbol.isName, ha])
  | @named _ a ws root t hroot ha tail =>
    rw [List.forall_mem_append] at hg
    obtain ⟨hgroot, hgname⟩ := hg
    rw [spelled_append]
    exact (Spells.optionalDot hroot hgroot).append
      (.name (i := i) (.mk (Symbol.isName_of_kind ha)) tail hgname)

end Names

/-! ## Values -/

section Values

variable {i : Nat} {s : List Symbol}

theorem Symbol.Genuine.enclosed {a : Symbol} {content : String} (h : a.Genuine)
    (ha : a.kind = .string) (hc : a.text? = some content) :
    ∃ quote, isQuote quote ∧ Enclosed quote content.toList := by
  cases h with
  | @string quote content hq h =>
    obtain rfl := Option.some.inj hc
    exact ⟨quote, hq, by rwa [String.toList_ofList]⟩
  | operator | word | integer | float | lineComment | blockComment => cases hc <;> cases ha

theorem Symbol.Genuine.lt_of_number? {a : Symbol} {n : Nat} (h : a.Genuine)
    (hn : a.number? = some (.integer n)) : n < Numeral.integerLimit := by
  cases h with
  | integer _ h =>
    cases hn
    exact h
  | operator | word | string | float | lineComment | blockComment => cases hn

/-- A text that was read as a string is printed as a string that says the same. -/
theorem prints_text {q : Char → Bool} {content : String} (h : Text.Said content) :
    Text.Prints q (quoted content) content := by
  obtain ⟨_, _, ⟨hs, hc⟩, hg⟩ := h
  obtain ⟨quote, hq, hcontent⟩ := (hg _ List.mem_cons_self).enclosed hs hc
  exact ⟨[.quoted content], .quoted hq hcontent, fun _ ↦ .mk rfl rfl⟩

theorem spells_sign {q : Char → Bool} (negative : Bool) :
    Spells q (if negative then "-" else "+") [.mark (signKind negative)] := by
  cases negative with
  | false => exact .mark (c := '+') rfl rfl
  | true => exact .mark (c := '-') rfl rfl

/-- A number with a sign in front of it. -/
theorem prints_signed {text : String} {digits : List Char} {n : Number}
    (h : Spells closes text [.numeral digits n]) :
    Literal.Derives.Prints closes ("-" ++ text) (n.literal true) :=
  ⟨_, (spells_sign true).append h, fun _ ↦ .signed rfl rfl nofun nofun⟩

theorem prints_unsigned {text : String} {digits : List Char} {n : Number}
    (h : Spells closes text [.numeral digits n]) :
    Literal.Derives.Prints closes text (n.literal false) :=
  ⟨_, h, fun _ ↦ .number rfl rfl⟩

/-- An integer literal of 64 bits is printed as one that says the same, its sign included. -/
theorem prints_integer {negative : Bool} {n : Nat} (hn : n < Numeral.integerLimit) :
    Literal.Derives.Prints closes (Literal.integer negative n).print (.integer negative n) := by
  cases negative with
  | false => exact prints_unsigned (.natural hn)
  | true => exact prints_signed (.natural hn)

/-- A float is printed as a literal that says the same, infinities and the NaN included. -/
theorem prints_float (x : Binary64) :
    Literal.Derives.Prints closes (Literal.float x).print (.float x) := by
  have spells_word {word : String} (h : IsWord word) : Spells closes word [.word word] :=
    (Spells.word h).closes_of_endsWord
  have hplus : (Symbol.mark .plus).kind = signKind false := rfl
  cases x with
  | finite negative rank =>
    have hspells := Binary64.spells_shortest rank
    rw [Binary64.ofRank_val] at hspells
    cases negative with
    | false =>
      have htext : (Literal.float (.finite false rank)).print =
          String.ofList (Binary64.shortest rank).text := by
        rw [Literal.print, Binary64.text, if_neg Bool.false_ne_true, List.nil_append]
      rw [htext]
      exact prints_unsigned hspells
    | true =>
      have htext : (Literal.float (.finite true rank)).print =
          "-" ++ String.ofList (Binary64.shortest rank).text := by
        apply String.toList_injective
        simp [Literal.print, Binary64.text]
      rw [htext]
      exact prints_signed hspells
  | infinity negative =>
    have htext : (Literal.float (.infinity negative)).print =
        (if negative then "-" else "+") ++ "inf" := by
      cases negative <;> rfl
    rw [htext]
    exact ⟨_, (spells_sign negative).append (spells_word (isWord_of_all rfl rfl)),
      fun _ ↦ .infinity rfl rfl⟩
  | nan =>
    have hword : Spells closes "nan" [.word "nan"] := spells_word (isWord_of_all rfl rfl)
    exact ⟨[.mark .plus, .word "nan"], (spells_sign false).append hword, fun _ ↦ .nan hplus rfl⟩

theorem prints_bool (b : Bool) :
    Literal.Derives.Prints closes (Literal.bool b).print (.bool b) := by
  cases b with
  | false =>
    exact ⟨[.word "false"], (Spells.word (isWord_of_all rfl rfl)).closes_of_endsWord,
      fun _ ↦ .bool rfl⟩
  | true =>
    exact ⟨[.word "true"], (Spells.word (isWord_of_all rfl rfl)).closes_of_endsWord,
      fun _ ↦ .bool rfl⟩

/-- **A literal of a text is printed as a literal that says the same.** -/
theorem Literal.prints {v : Literal} (h : Literal.Derives.Said v) :
    Literal.Derives.Prints closes v.print v := by
  obtain ⟨i, s, hv, hg⟩ := h
  have number {n : Number} (negative : Bool) {a : Symbol} (ha : a.Genuine)
      (hn : a.number? = some n) :
      Literal.Derives.Prints closes (n.literal negative).print (n.literal negative) := by
    cases n with
    | integer n => exact prints_integer (ha.lt_of_number? hn)
    | float x => exact prints_float _
  cases hv with
  | bool => exact prints_bool _
  | text ht =>
    obtain ⟨s, hs, ht⟩ := prints_text (q := closes) ⟨i, s, ht, hg⟩
    exact ⟨s, hs, fun i ↦ .text (ht i)⟩
  | @number _ a n _ hn => exact number false (hg a List.mem_cons_self) hn
  | @signed _ _ a _ n _ hn => exact number _ (hg a (by simp)) hn
  | infinity => exact prints_float _
  | nan => exact prints_float _

/-- A value of a text is printed as a value that says the same. -/
theorem Constant.prints {v : Constant Unit} (h : (Constant.Derives noNote).Said v) :
    (Constant.Derives noNote).Prints closes v.print v := by
  obtain ⟨i, s, hv, hg⟩ := h
  cases hv with
  | name hs hn =>
    exact ⟨_, (hn.spells hg).closes_of_endsWord, fun i ↦ .name hs (hn.elsewhere .noNote)⟩
  | literal hv =>
    obtain ⟨t, ht, hv⟩ := Literal.prints ⟨i, s, hv, hg⟩
    exact ⟨t, ht, fun i ↦ .literal (hv i)⟩

/-! ## Integers and ranges -/

/-- An integer that was read has 64 bits. -/
theorem Phrase.Integer.fits {n : Int} (h : Integer i n s) : fitsInteger n := by
  rcases h with ⟨⟨-, hn⟩, -⟩ | ⟨-, -, hn⟩ <;> exact hn

/-- An integer of a text begins with a number or a minus sign. -/
theorem Phrase.Integer.head_of_genuine {n : Int} (h : Integer i n s) (hg : ∀ a ∈ s, a.Genuine) :
    ∃ first t, s = first :: t ∧ (first.kind = .number ∨ first.kind = .minus) := by
  rcases h with ⟨⟨hn, -⟩, -⟩ | ⟨hm, -, -⟩
  · exact ⟨_, _, rfl, .inl ((hg _ List.mem_cons_self).kind_of_number? (by simp [hn]))⟩
  · exact ⟨_, _, rfl, .inr hm⟩

/-- An integer of 64 bits is printed as symbols that are that integer. -/
theorem exists_leads_int {n : Int} (h : fitsInteger n) :
    ∃ t, Leads closes (toString n) t ∧ ∀ i, Integer i n t := by
  have hbounds : -2 ^ 63 ≤ n ∧ n < 2 ^ 63 := by simpa [fitsInteger] using h
  have hdigits : Leads closes (toString n.natAbs)
      [.numeral (Nat.toDigits 10 n.natAbs) (.integer n.natAbs)] :=
    .natural (by simp only [Numeral.integerLimit]; omega)
  rw [toString_int]
  by_cases hn : n < 0
  · obtain ⟨k, hk⟩ : ∃ k : Nat, n = -k := ⟨n.natAbs, by omega⟩
    have hminus : Leads anything "-" [.mark .minus] := .mark (c := '-') rfl rfl
    rw [if_pos hn]
    refine ⟨_, hminus.append hdigits, fun i ↦ ?_⟩
    subst hk
    simp only [Int.natAbs_neg, Int.natAbs_natCast]
    exact .negative rfl rfl h
  · obtain ⟨k, rfl⟩ := Int.eq_ofNat_of_zero_le (not_lt.mp hn)
    rw [if_neg hn, String.empty_append]
    exact ⟨_, hdigits, fun i ↦ .plain (.mk rfl h) nofun⟩

theorem prints_int {n : Int} (h : fitsInteger n) : Integer.Prints closes (toString n) n := by
  obtain ⟨t, ht, hn⟩ := exists_leads_int h
  exact ⟨t, ht.spells, hn⟩

/-- A range is printed as a range that says the same. -/
theorem NumberRange.prints {x : NumberRange} (h : (NumberRange.Derives Integer).Said x) :
    (NumberRange.Derives Integer).Prints closes x.print x := by
  obtain ⟨i, s, hx, hg⟩ := h
  have hto : Spells anything " to " [.word "to"] := by
    have hword : Spells anything "to " [.word "to"] := .keyword (isWord_of_all rfl rfl) rfl
    exact Spells.blank.append hword
  cases hx with
  | single hn =>
    obtain ⟨t, ht, hn⟩ := prints_int hn.fits
    exact ⟨t, ht, fun i ↦ .single (hn i)⟩
  | toMax hn =>
    obtain ⟨t, ht, hn⟩ := prints_int hn.fits
    have hmax : Spells closes "max" [.word "max"] :=
      (Spells.word (isWord_of_all rfl rfl)).closes_of_endsWord
    have htext := (ht.append_of_head hto (c := ' ') rfl rfl).append hmax
    rw [List.append_assoc] at htext
    exact ⟨_, htext, fun i ↦ .toMax (hn i) rfl rfl⟩
  | span hn _ hm =>
    obtain ⟨t, ht, hn⟩ := prints_int hn.fits
    obtain ⟨u, hu, hm⟩ := prints_int hm.fits
    have htext := (ht.append_of_head hto (c := ' ') rfl rfl).append hu
    rw [List.append_assoc] at htext
    refine ⟨_, htext, fun i ↦ .span (hn i) rfl (hm _) fun first hfirst hword ↦ ?_⟩
    obtain ⟨a, v, rfl, ha⟩ := (hm 0).head_of_genuine hu.scans.genuine
    obtain rfl := Option.some.inj hfirst
    have hk := Symbol.kind_of_isWord hword
    rcases ha with ha | ha <;> exact nomatch hk.symm.trans ha

end Values

/-! ## Options -/

section Options

variable {i : Nat} {s : List Symbol} {x : Setting Unit} {xs : List (Setting Unit)}

/-- An option in brackets is printed as what it is. -/
theorem Setting.prints_entry (h : (Setting.DerivesEntry noNote).Said x) :
    (Setting.DerivesEntry noNote).Prints closes x.entry x := by
  obtain ⟨i, s, ⟨hn, -, hv⟩, hg⟩ := h
  rw [List.forall_mem_append, List.forall_mem_cons] at hg
  obtain ⟨hgn, -, hgv⟩ := hg
  obtain ⟨t, ht, hv⟩ := Constant.prints ⟨_, _, hv, hgv⟩
  have htext := ((hn.spells hgn).append_of_head .equals (c := ' ') rfl rfl).append ht
  rw [List.append_assoc] at htext
  exact ⟨_, htext, fun i ↦ .mk (hn.elsewhere .noNote) rfl (hv _)⟩

/-- An option statement is the word `option`, an entry and a semicolon. -/
theorem Setting.Derives.said_entry (h : x.Derives noNote i s) (hg : ∀ a ∈ s, a.Genuine) :
    (Setting.DerivesEntry noNote).Said x := by
  obtain ⟨-, hn, heq, hv, -⟩ := h
  refine ⟨_, _, .mk hn heq hv, fun a ha ↦ hg a ?_⟩
  simp only [List.mem_append, List.mem_cons] at ha ⊢
  tauto

theorem Setting.DerivesEntry.statement {word semi : Symbol} (h : x.DerivesEntry noNote (i + 1) s)
    (hword : word.isWord "option") (hsemi : semi.kind = .semicolon) :
    x.Derives noNote i (word :: (s ++ [semi])) := by
  obtain ⟨hn, heq, hv⟩ := h
  rw [List.append_assoc]
  exact .mk hword hn heq hv hsemi

/-- An option statement is printed as what it is. -/
theorem Setting.printed (h : (Setting.Derives noNote).Said x) :
    (Setting.Derives noNote).Printed x.printTo x := by
  obtain ⟨i, s, hx, hg⟩ := h
  obtain ⟨t, ht, hentry⟩ := Setting.prints_entry (hx.said_entry hg)
  have hword : Spells anything "option " [.word "option"] := .keyword (isWord_of_all rfl rfl) rfl
  exact ⟨_, .statement (hword.append ht), fun i ↦ (hentry (i + 1)).statement rfl rfl⟩

theorem Setting.Bracketed.said (h : Bracketed noNote i xs s) (hg : ∀ a ∈ s, a.Genuine) :
    ∀ x ∈ xs, (Setting.DerivesEntry noNote).Said x := by
  rcases h with _ | ⟨-, hxs, -⟩
  · nofun
  · rw [List.forall_mem_cons, List.forall_mem_append] at hg
    exact hxs.said hg.2.1

/-- The list of options, if it is written, begins with a blank. -/
theorem Setting.head?_bracketed : ∀ c ∈ (bracketed xs).toList.head?, closes c := by
  rw [bracketed]
  split
  · nofun
  · intro c hc
    obtain rfl : c = ' ' := by simpa using hc.symm
    rfl

/-- A list of options is printed as what it is, also if there are none. -/
theorem Setting.prints_bracketed (h : ∀ x ∈ xs, (Setting.DerivesEntry noNote).Said x) :
    (Setting.Bracketed noNote).Prints closes (bracketed xs) xs := by
  rw [bracketed]
  split
  · rename_i hempty
    obtain rfl := List.isEmpty_iff.mp hempty
    exact ⟨[], .nil, fun _ ↦ .none⟩
  · rename_i hempty
    obtain ⟨t, ht, hxs⟩ := prints_commaSeparated (fun hnil ↦ hempty (List.isEmpty_iff.mpr hnil))
      fun x hx ↦ Setting.prints_entry (h x hx)
    have hopen : Spells anything " [" [.mark .leftBracket] :=
      Spells.blank.append (Spells.mark (c := '[') rfl rfl)
    have hclose : Spells closes "]" [.mark .rightBracket] := Spells.mark (c := ']') rfl rfl
    have htext := (hopen.append ht).append_of_head hclose (c := ']') rfl rfl
    exact ⟨_, htext, fun _ ↦ .some rfl (hxs _) rfl⟩

end Options

/-! ## Fields

The first two symbols of a field tell it from other statements.  They are of its label, type and
name, and so they are printed as they were. -/

section Fields

variable {config : Config} {i : Nat} {s : List Symbol}

theorem Symbol.Genuine.spells_label {q : Char → Bool} {l : Symbol} {label : Label} (hg : l.Genuine)
    (hl : labelOf? l = some label) : Spells q (label.word ++ " ") [l] := by
  simp only [labelOf?] at hl
  split at hl
  · rename_i hk
    have hlexeme : l.lexeme = label.word := by
      unfold Label.ofWord? at hl
      split at hl
      · cases hl; assumption
      · split at hl
        · cases hl; assumption
        · split at hl
          · cases hl; assumption
          · cases hl
    have hname := hg.spells_name (Symbol.isName_of_kind (Symbol.is_iff.mp hk))
    rw [hlexeme] at hname
    exact hname.append_of_head .blank (c := ' ') rfl rfl
  · cases hl

theorem TypeRef.Derives.spells_blank {q : Char → Bool} {x : TypeRef Unit} (h : x.Derives noNote i s)
    (hg : ∀ a ∈ s, a.Genuine) : Spells q (x.text ++ " ") s := by
  have htext := (h.spells hg).append_of_head (.blank (q := q)) (c := ' ') rfl rfl
  rwa [List.append_nil] at htext

/-- A name with a number and options, and the symbols that are printed for it. -/
theorem spells_numbered {a : Symbol} {n : Int} {options : List (Setting Unit)} (ha : a.Genuine)
    (hname : a.isName) (hn : fitsInteger n)
    (ho : ∀ x ∈ options, (Setting.DerivesEntry noNote).Said x) :
    ∃ t u, Spells closes (numbered a.lexeme n options) (a :: .mark .equal :: (t ++ u)) ∧
      (∀ i, Integer i n t) ∧ ∀ i, Setting.Bracketed noNote i options u := by
  obtain ⟨t, ht, hint⟩ := prints_int hn
  obtain ⟨u, hu, hoptions⟩ := Setting.prints_bracketed ho
  have htext := (((ha.spells_name hname).append_of_head .equals (c := ' ') rfl rfl).append
    ht).append_of_heads hu Setting.head?_bracketed
  exact ⟨t, u, by simpa [numbered] using htext, hint, hoptions⟩

/-- A name with a number and options is printed with the same name. -/
theorem prints_numbered {name : String} {n : Int} {options : List (Setting Unit)} {a : Symbol}
    (h : Numbered Integer config noNote i (name, n, options) (a :: s))
    (hg : ∀ b ∈ a :: s, b.Genuine) :
    ∃ t, Spells closes (numbered name n options) (a :: t) ∧
      ∀ j, Numbered Integer config noNote j (name, n, options) (a :: t) := by
  obtain ⟨hname, -, ⟨hn, ha⟩, ho⟩ := h
  simp only [List.forall_mem_cons, List.forall_mem_append] at hg
  obtain ⟨hgname, -, -, hgo⟩ := hg
  obtain ⟨t, u, htext, hint, hoptions⟩ := spells_numbered hgname hname hn.fits (ho.said hgo)
  exact ⟨_, htext, fun j ↦ .mk hname rfl (.mk (hint _) ha) (hoptions _)⟩

/-- A field is printed with the same first two symbols. -/
theorem Field.printed {x : Field Unit} {first next : Symbol}
    (h : x.Derives config noNote i (first :: next :: s))
    (hg : ∀ a ∈ first :: next :: s, a.Genuine) :
    ∃ t, Writes x.printTo (first :: next :: t) ∧
      ∀ j, x.Derives config noNote j (first :: next :: t) := by
  generalize hs : first :: next :: s = u at h hg
  cases h with
  | @labelled _ l semi label type name n options v w hl htype hn hsemi =>
    simp only [List.forall_mem_cons, List.forall_mem_append] at hg
    obtain ⟨hgl, hgtype, hgn, -⟩ := hg
    obtain ⟨a, w, rfl, -⟩ := hn.exists_cons
    obtain ⟨t, ht, hnumbered⟩ := prints_numbered hn hgn
    have hline := Writes.statement
      (((hgl.spells_label hl).append (htype.spells_blank hgtype)).append ht)
    have hsemi : (Symbol.mark .semicolon).kind = .semicolon := rfl
    have htypes (j : Nat) : type.Derives noNote j v := htype.elsewhere .noNote
    have hderives (j : Nat) := Field.Derives.labelled hl (htypes (j + 1)) (hnumbered _) hsemi
    obtain ⟨b, v, rfl, -⟩ := htype.exists_cons
    simp only [List.cons_append, List.cons.injEq] at hs
    obtain ⟨rfl, rfl, -⟩ := hs
    refine ⟨v ++ (a :: (t ++ [.mark .semicolon])), ?_, by simpa using hderives⟩
    simpa [Field.printTo, Field.qualifiers] using hline
  | @plain _ _ semi type name n options v w hl htype hn hsemi =>
    obtain ⟨rfl, htail⟩ := List.cons.inj hs
    rw [← List.cons_append, List.forall_mem_append, List.forall_mem_append] at hg
    obtain ⟨hgtype, hgn, -⟩ := hg
    obtain ⟨a, w, rfl, -⟩ := hn.exists_cons
    obtain ⟨t, ht, hnumbered⟩ := prints_numbered hn hgn
    have hline := Writes.statement ((htype.spells_blank hgtype).append ht)
    have hsemi : (Symbol.mark .semicolon).kind = .semicolon := rfl
    have hderives (j : Nat) := Field.Derives.plain hl (htype.elsewhere (j := j) .noNote)
      (hnumbered _) hsemi
    have hwrites : Writes (Field.printTo ⟨none, some type, name, n, options, ()⟩)
        (first :: (v ++ (a :: (t ++ [.mark .semicolon])))) := by
      simpa [Field.printTo, Field.qualifiers] using hline
    -- behind a type of one symbol the name comes second
    cases v with
    | nil =>
      obtain ⟨rfl, -⟩ := List.cons.inj htail
      exact ⟨t ++ [Symbol.mark .semicolon], hwrites, hderives⟩
    | cons b v =>
      obtain ⟨rfl, -⟩ := List.cons.inj htail
      exact ⟨v ++ (a :: (t ++ [Symbol.mark .semicolon])), hwrites, hderives⟩

/-- The word of a map and the bracket behind it, which an equals sign must not follow. -/
theorem leads_map : Leads isWordStart "map<" [.word "map", .mark .less] := by
  have hword : Leads endsWord "map" [.word "map"] := .word (isWord_of_all rfl rfl)
  have hless : Leads isWordStart "<" [.mark .less] := by
    refine .operator (c := '<') rfl (by decide) fun d hd ↦ .inr ?_
    rintro rfl
    exact absurd hd (by decide)
  exact hword.append_of_head hless (c := '<') rfl rfl

theorem leads_greater {q : Char → Bool} : Leads q "> " [.mark .greater] := by
  have hgreater : Leads closes ">" [.mark .greater] := by
    refine .operator (c := '>') rfl (by decide) fun d hd ↦ .inr ?_
    rintro rfl
    exact absurd hd (by decide)
  exact hgreater.append_of_head .blank (c := ' ') rfl rfl

/-- A map field is printed as what it is. -/
theorem MapField.printed {x : MapField Unit}
    (h : (MapField.Derives Integer config noNote).Said x) :
    (MapField.Derives Integer config noNote).Printed x.printTo x := by
  obtain ⟨i, s, @⟨_, word, less, key, comma, greater, semi, type, name, n, options, v, w,
    hword, hless, hkey, hcomma, htype, hgreater, hn, hsemi⟩, hg⟩ := h
  simp only [List.forall_mem_cons, List.forall_mem_append] at hg
  obtain ⟨-, -, hgkey, -, hgtype, -, hgn, -⟩ := hg
  have hkeyname : key.isName := by simp [Symbol.isName, hkey]
  have hkeytext := (hgkey.spells_name hkeyname).append_of_head (.comma (q := anything)) (c := ',')
    rfl rfl
  obtain ⟨c, cs, hlexeme, hc, -⟩ := (hgkey.isWord_lexeme hkeyname).1
  have hmap := leads_map.spells.append_of_head hkeytext (c := c) (by simp [hlexeme]) hc
  have hclose : Spells anything "> " [.mark .greater] := leads_greater.spells
  obtain ⟨a, w, rfl, -⟩ := hn.exists_cons
  obtain ⟨t, ht, hnumbered⟩ := prints_numbered hn hgn
  have hline := Writes.statement
    (((hmap.append (htype.spells hgtype)).append_of_head hclose (c := '>') rfl rfl).append ht)
  refine ⟨.word "map" :: .mark .less :: key :: .mark .comma ::
    (v ++ .mark .greater :: (a :: t ++ [.mark .semicolon])), ?_, fun j ↦
    .mk rfl rfl hkey rfl (htype.elsewhere .noNote) rfl (hnumbered _) rfl⟩
  simpa [MapField.printTo, String.append_assoc] using hline

/-- The value of an enum is printed as what it is. -/
theorem Field.printed_value {x : Field Unit} (h : (Field.DerivesValue noNote).Said x) :
    (Field.DerivesValue noNote).Printed x.printTo x := by
  obtain ⟨i, s, @⟨_, name, eq, semi, n, options, v, w, hname, heq, hn, ho, hsemi⟩, hg⟩ := h
  simp only [List.forall_mem_cons, List.forall_mem_append] at hg
  obtain ⟨hgname, -, -, hgo, -⟩ := hg
  obtain ⟨t, u, htext, hint, hoptions⟩ := spells_numbered hgname hname hn.fits (ho.said hgo)
  have hwrites : Writes (Field.printTo ⟨none, none, name.lexeme, n, options, ()⟩)
      (name :: .mark .equal :: (t ++ (u ++ [.mark .semicolon]))) := by
    simpa [Field.printTo, Field.qualifiers] using Writes.statement htext
  exact ⟨_, hwrites, fun j ↦ .mk hname rfl (hint _) (hoptions _) rfl⟩

end Fields

end ProtoSchema
