import ProtoSchema.Proofs.Grammar.Closing
import ProtoSchema.Proofs.Grammar.Failing
import ProtoSchema.Proofs.Grammar.Overflowing
import ProtoSchema.Proofs.Token.Spelling

/-!
# Integers from the text to the tree

Two limits meet where the spelling of a natural number, with or without a minus sign, stands in a
file (`parse_spelled`).  One of more than 64 bits is no token, whatever stands around it.  Any other
one can be the magnitude of an option constant, whatever the sign, but where the grammar has an
integer the sign counts too.

The text around the number is known by what it is divided into (`Gap.Between`), so blanks and
comments may be in it.

## What is here

* `signText`, `signSymbols`, `signed` — a sign as a text, as symbols, and as what it does to a
  number.
* `Signed.mk`, `fills_constant` — a sign and the numeral of a number are the symbols of an integer,
  and they are a constant of any magnitude.
* `Gap.Between` — texts in front of a gap and behind it that are divided into its symbols.
* `Gap.Between.not_cutShort` — no letter that would change the value of octal digits stands behind.
* `Gap.Between.exists_parse` and `Gap.Between.exists_parse_error` — what is in the gap is read, or
  it is an integer of more than 64 bits and an error at its place.
* `Setting.exists_gap`, `EnumType.exists_gap` — the constant of an option and the number of an enum
  value, as gaps of the shortest files that have them.
* `parse_spelled` — every spelling of every natural number, with and without a sign, in every place
  of every file: read exactly, or refused for being too large.
* `parse_spelled_enum` — spellings in the bases eight and sixteen, with letters of either case, at
  the limits of both places.
-/

set_option autoImplicit false

namespace ProtoSchema

-- Powers are those of the core library, whatever else is imported.
attribute [local instance(high)] instPowNat

open Lexical Grammar Reader Phrase

/-! ## Signs -/

/-- What is written in front of a magnitude. -/
def signText (negative : Bool) : String := if negative then "-" else ""

/-- The symbols of what is written in front of a magnitude. -/
def signSymbols (negative : Bool) : List Symbol := if negative then [.mark .minus] else []

/-- The integer with the sign and the magnitude. -/
def signed (negative : Bool) (n : Nat) : Int := if negative then -n else n

section Signs

variable (negative : Bool) (digits : List Char) (n : Nat)

/-- A sign can stand in front of anything. -/
theorem leads_sign : Leads anything (signText negative) (signSymbols negative) := by
  cases negative with
  | false => exact .nil
  | true => exact .mark (c := '-') rfl rfl

theorem uncommented_signed : uncommented (signSymbols negative ++ [.numeral digits (.integer n)]) =
    signSymbols negative ++ [.numeral digits (.integer n)] := by
  cases negative <;> rfl

theorem spelled_signed : spelled (signSymbols negative ++ [.numeral digits (.integer n)]) =
    signText negative ++ String.ofList digits := by
  rw [spelled_append, spelled_cons, spelled_nil, String.append_empty]
  cases negative <;> rfl

/-- A sign and a numeral are an integer. -/
theorem Signed.mk :
    Signed (signed negative n) (signSymbols negative ++ [.numeral digits (.integer n)]) := by
  cases negative with
  | false => exact .plain rfl rfl
  | true => exact .negative rfl rfl rfl

/-- As a constant it keeps its sign even if the magnitude is zero. -/
theorem fills_constant : Slot.constant.Fills (.literal (.integer negative n) ())
    (signSymbols negative ++ [.numeral digits (.integer n)]) := by
  intro i
  have hnumeral : (Symbol.numeral digits (.integer n)).number? = some (.integer n) := rfl
  have hword (w : String) : ¬(Symbol.numeral digits (.integer n)).isWord w := nofun
  cases negative with
  | false => exact .literal (Literal.Derives.number rfl hnumeral)
  | true => exact .literal (Literal.Derives.signed rfl hnumeral (hword _) (hword _))

end Signs

/-- The integers that fit are those of 64 bits with a sign. -/
theorem fitsInteger_iff {n : Int} : fitsInteger n ↔ -2 ^ 63 ≤ n ∧ n < 2 ^ 63 := by
  rw [fitsInteger, Bool.and_eq_true, decide_eq_true_eq, decide_eq_true_eq]

/-! ## Numbers in a text -/

theorem Divides.exists_word {c : Char} {behind cs : List Char} {ss : List Symbol}
    (h : Divides behind (c :: cs) ss) (hc : isWordStart c) :
    ∃ tail ts, ss = .word (String.ofList (c :: tail)) :: ts := by
  cases h with
  | blank hblank => exact absurd hblank (not_of_isWordStart hc).1
  | @piece _ p rest ss hp =>
    rw [pieceAt_of_isWordStart hc] at hp
    generalize p.tail ++ rest ++ behind = cs at hp
    obtain rfl := Option.some.inj (Except.ok.inj hp)
    exact ⟨_, ss, rfl⟩

/-- The texts around the number are divided into the symbols around the gap, and into comments. -/
structure Gap.Between {slot : Slot} {β : Type} (g : Gap slot β) (before number behind : String) :
    Prop where
  before : ∃ ss, Divides (number.toList ++ behind.toList) before.toList ss ∧
    uncommented ss = g.before
  behind : ∃ ss, Divides [] behind.toList ss ∧ uncommented ss = g.behind

section

variable {slot : Slot} {config : Config} {g : Gap slot (Schema Unit)}
  {before number behind : String} {s : List Symbol}

/-- The whole text is divided into what is around the gap and what fills it. -/
theorem Gap.Between.divides (h : g.Between before number behind)
    (hnumber : Divides behind.toList number.toList s) :
    ∃ ss, Divides [] (before ++ number ++ behind).toList ss ∧
      uncommented ss = g.before ++ uncommented s ++ g.behind := by
  obtain ⟨⟨us, hbefore, hus⟩, ws, hbehind, hws⟩ := h
  refine ⟨us ++ (s ++ ws), ?_, ?_⟩
  · rw [String.toList_append, String.toList_append, List.append_assoc]
    refine Divides.append ?_ (Divides.append ?_ hbehind)
    · rwa [List.append_nil]
    · rwa [List.append_nil]
  · rw [uncommented_append, uncommented_append, hus, hws, List.append_assoc]

/-- A letter that cuts an octal numeral short would begin a word, and none stands there. -/
theorem Gap.Between.not_cutShort {digits : List Char} (h : g.Between before number behind)
    (hg : Schema.Around config slot g) : ¬Numeral.CutShort digits behind.toList := by
  rintro ⟨-, c, hc, hletter⟩
  obtain ⟨ss, hdivides, hss⟩ := h.behind
  obtain ⟨cs, hcs⟩ := List.head?_eq_some_iff.mp hc
  have hstart : isWordStart c := by rcases hletter with rfl | rfl <;> decide
  rw [hcs] at hdivides
  obtain ⟨tail, ts, rfl⟩ := hdivides.exists_word hstart
  obtain ⟨next, u, hnext, hto⟩ := hg.endsValue
  rw [← hss, uncommented_cons (kind_ofWord_ne_comment _)] at hnext
  obtain ⟨rfl, -⟩ := List.cons.inj hnext
  have hword := (Symbol.isWord_iff.mp (hto (Symbol.isName_word _))).2
  obtain ⟨rfl, -⟩ := List.cons.inj (String.ofList_injective hword)
  rcases hletter with hletter | hletter <;> cases hletter

/-- What fills the gap is read. -/
theorem Gap.Between.exists_parse {v : slot.Value} (h : g.Between before number behind)
    (hg : Schema.Around config slot g) (hnumber : Divides behind.toList number.toList s)
    (hv : slot.Fills v (uncommented s)) :
    ∃ d, parse (before ++ number ++ behind) config = .ok d ∧ d.schema.erase = g.said v := by
  obtain ⟨ss, hdivides, hss⟩ := h.divides hnumber
  exact exists_parse_of_divides hdivides (hss.symm ▸ hg.carries hv 0)

/-- An integer that does not fit is not. -/
theorem Gap.Between.exists_parse_error {g : Gap .integer (Schema Unit)} {k : Int}
    (h : g.Between before number behind) (hg : Schema.Around config .integer g)
    (hnumber : Divides behind.toList number.toList s) (hk : Signed k (uncommented s))
    (hfits : ¬fitsInteger k) :
    ∃ position, parse (before ++ number ++ behind) config =
      .error (.syntactic
        ⟨.violation (.integerOutOfRange (spelled (uncommented s))), position⟩) := by
  obtain ⟨ss, hdivides, hss⟩ := h.divides hnumber
  obtain ⟨e, hfault, hfront⟩ : ∃ e : Failure,
      e.fault = .violation (.integerOutOfRange (spelled (uncommented s))) ∧
        Gap.Overflows (Schema.Around config .integer) 0 e (g.before ++ uncommented s) :=
    ⟨_, rfl, hg, .mk hk hfits⟩
  rw [← hfault]
  refine exists_parse_error_of_divides hdivides fun hstop ↦ ?_
  rw [hss]
  exact schema_overflows hfront g.behind

end

/-! ## Two places -/

section

variable {type name : String}

/-- The constant of an option that is all of a file. -/
theorem Setting.exists_gap (config : Config) (hname : IsWord name) :
    ∃ g : Gap .constant (Schema Unit), Schema.Around config .constant g ∧
      (∀ number, g.Between ("option " ++ (name ++ " = ")) number ";") ∧
      ∀ v, g.said v = ⟨none, [.member (.setting ⟨⟨name, ()⟩, v, ()⟩)]⟩ := by
  have hderives : (OptionName.Derives noNote).Anywhere ⟨name, ()⟩ [.word name] := by
    intro i
    have h : OptionName.Derives noNote i _ _ := .plain (.word name) .nil
    rwa [List.append_nil, spelled_cons, spelled_nil, String.append_empty, Symbol.spelling_word] at h
  have hentry : Setting.AroundEntry ⟨[.word name, .mark .equal], fun v ↦ ⟨⟨name, ()⟩, v, ()⟩, []⟩ :=
    .mk hderives rfl
  have hsetting : Setting.Around (Gap.within _ [.word "option"] id [.mark .semicolon]) :=
    .mk rfl hentry rfl
  refine ⟨_, .mk (fun _ ↦ .none) (.mk (s := []) (t := []) (fun _ ↦ .nil) (.setting hsetting)
    fun _ ↦ .nil), fun number ↦ ⟨?_, ?_⟩, fun v ↦ rfl⟩
  · have hword : IsWord "option" := isWord_of_all rfl rfl
    have hbefore : Leads anything ("option " ++ (name ++ " = "))
        [.word "option", .word name, .mark .equal] := .append (.keyword hword rfl) (.named hname)
    exact ⟨_, hbefore.divides _ fun _ _ ↦ rfl, uncommented_eq_self hbefore.comment⟩
  · exact ⟨_, (Leads.semicolon (q := anything)).divides [] nofun, rfl⟩

/-- The number of the only value of an enum that is all of a file. -/
theorem EnumType.exists_gap (config : Config) (htype : IsWord type) (hname : IsWord name) :
    ∃ g : Gap .integer (Schema Unit), Schema.Around config .integer g ∧
      (∀ number, g.Between ("enum " ++ (type ++ " " ++ ("\x7b" ++ (name ++ " = ")))) number
        (";" ++ "\x7d")) ∧
      ∀ k, g.said k =
        ⟨none, [.member (.enumType ⟨type, [], [⟨none, none, name, k, [], ()⟩], [], ()⟩)]⟩ := by
  have hvalue : Field.AroundValue .integer ⟨[.word name, .mark .equal],
      fun k ↦ ⟨none, none, name, k, [], ()⟩, [.mark .semicolon]⟩ :=
    .number (Symbol.isName_word name) rfl (fun _ ↦ .none) rfl
  have hblock : Block.Around (EnumItem.Derives Integer noNote) (EnumItem.Around .integer)
      (Gap.within _ [.mark .leftBrace] id [.mark .rightBrace]) :=
    .mk rfl (.mk (s := []) (t := []) (fun _ ↦ .nil) (.value hvalue) fun _ ↦ .nil) rfl
  have hwhole : EnumType.Around .integer (Gap.within _ [.word "enum", .word type] _ []) :=
    .mk rfl (Symbol.isName_word type) hblock
  refine ⟨_, .mk (fun _ ↦ .none) (.mk (s := []) (t := []) (fun _ ↦ .nil) (.enumType hwhole)
    fun _ ↦ .nil), fun number ↦ ⟨?_, ?_⟩, fun v ↦ rfl⟩
  · have hword : IsWord "enum" := isWord_of_all rfl rfl
    have hbefore : Leads anything ("enum " ++ (type ++ " " ++ ("\x7b" ++ (name ++ " = "))))
        [.word "enum", .word type, .mark .leftBrace, .word name, .mark .equal] :=
      .append (.keyword hword rfl) (.append (.keyword htype rfl)
        (.append (.mark (c := '\x7b') rfl rfl) (.named hname)))
    exact ⟨_, hbefore.divides _ fun _ _ ↦ rfl, uncommented_eq_self hbefore.comment⟩
  · have hbehind : Leads anything (";" ++ "\x7d") [.mark .semicolon, .mark .rightBrace] :=
      Leads.append .semicolon (.mark (c := '\x7d') rfl rfl)
    exact ⟨_, hbehind.divides [] nofun, rfl⟩

end

/-! ## Every spelling in every place -/

/-- **Integers are exact up to their limits.**  A magnitude of 64 bits is kept with its sign in an
option constant.  In the place of an integer it is read with the sign, if that fits; the file is not
read otherwise, and the fault tells the number as it is spelled.  A larger magnitude is a fault of
its own wherever it stands, which tells it without the sign. -/
theorem parse_spelled {s before behind : String} {n : Nat} {negative : Bool} {config : Config}
    (hs : Numeral.Spelling s.toList n)
    (hnumeral : Longest Lexical.numerals s.toList (s.toList ++ behind.toList)) :
    let number := signText negative ++ s
    let text := before ++ number ++ behind
    let k := signed negative n
    (n < 2 ^ 64 →
      (∀ g : Gap .constant (Schema Unit), Schema.Around config .constant g →
        g.Between before number behind →
        ∃ d, parse text config = .ok d ∧
          d.schema.erase = g.said (.literal (.integer negative n) ())) ∧
      ∀ g : Gap .integer (Schema Unit), Schema.Around config .integer g →
        g.Between before number behind →
        if -2 ^ 63 ≤ k ∧ k < 2 ^ 63 then
          ∃ d, parse text config = .ok d ∧ d.schema.erase = g.said k
        else
          ∃ position, parse text config =
            .error (.syntactic ⟨.violation (.integerOutOfRange number), position⟩)) ∧
      (2 ^ 64 ≤ n → (∃ ss, Divides (number.toList ++ behind.toList) before.toList ss) →
        ∃ position, parse text config = .error (.lexical ⟨.numberOutOfRange s, position⟩)) := by
  intro number text k
  have hsign (rest : List Char) : Divides rest (signText negative).toList (signSymbols negative) :=
    (leads_sign negative).divides rest fun _ _ ↦ rfl
  refine ⟨fun hn ↦ ?_, fun hn ⟨ss, hbefore⟩ ↦ ?_⟩
  · have hnumber (hcut : ¬Numeral.CutShort s.toList behind.toList) : Divides behind.toList
        number.toList (signSymbols negative ++ [.numeral s.toList (.integer n)]) := by
      rw [String.toList_append]
      exact (hsign _).append (hs.divides hn hnumeral hcut)
    have hall := uncommented_signed negative s.toList n
    refine ⟨fun g hg hgap ↦ ?_, fun g hg hgap ↦ ?_⟩
    · have hfills := fills_constant negative s.toList n
      exact hgap.exists_parse hg (hnumber (hgap.not_cutShort hg)) (hall.symm ▸ hfills)
    · have hk : Signed k (uncommented (signSymbols negative ++ [.numeral s.toList (.integer n)])) :=
        hall.symm ▸ .mk negative s.toList n
      have hnumber := hnumber (hgap.not_cutShort hg)
      split
      · rename_i hfits
        exact hgap.exists_parse hg hnumber ⟨hk, fitsInteger_iff.mpr hfits⟩
      · rename_i hfits
        have herror := hgap.exists_parse_error hg hnumber hk (mt fitsInteger_iff.mp hfits)
        rwa [hall, spelled_signed, String.ofList_toList] at herror
  · have hfront : Divides (s.toList ++ behind.toList) (before ++ signText negative).toList
        (ss ++ signSymbols negative) := by
      rw [String.toList_append]
      rw [String.toList_append, List.append_assoc] at hbefore
      exact hbefore.append (hsign _)
    obtain ⟨position, hscan⟩ := hs.exists_scan_error hn hfront hnumeral
    refine ⟨position, ?_⟩
    have htext : text = before ++ signText negative ++ s ++ behind :=
      congrArg (· ++ behind) String.append_assoc.symm
    rw [htext, parse, hscan]

/-- The largest magnitude below zero and one with every letter in an option, the least integer, the
same without its sign, and a magnitude that is too large. -/
theorem parse_spelled_enum :
    ∃ before front behind : String, before = "option x = " ∧ front = "enum E \x7bA = " ∧
      behind = ";\x7d" ∧
      (∃ d, parse (before ++ "-01777777777777777777777" ++ ";") {} = .ok d ∧ d.schema.erase =
        ⟨none, [.member (.setting ⟨⟨"x", ()⟩, .literal (.integer true (2 ^ 64 - 1)) (), ()⟩)]⟩) ∧
      (∃ d, parse (before ++ "0x00FeDcBa9876543210" ++ ";") {} = .ok d ∧ d.schema.erase =
        ⟨none, [.member (.setting
          ⟨⟨"x", ()⟩, .literal (.integer false 18364758544493064720) (), ()⟩)]⟩) ∧
      (∃ d, parse (front ++ "-0X08000000000000000" ++ behind) {} = .ok d ∧ d.schema.erase =
        ⟨none, [.member (.enumType ⟨"E", [], [⟨none, none, "A", -2 ^ 63, [], ()⟩], [], ()⟩)]⟩) ∧
      (∃ position, parse (front ++ "0X08000000000000000" ++ behind) {} =
        .error (.syntactic ⟨.violation (.integerOutOfRange "0X08000000000000000"), position⟩)) ∧
      ∃ position, parse (front ++ "02000000000000000000000" ++ behind) {} =
        .error (.lexical ⟨.numberOutOfRange "02000000000000000000000", position⟩) := by
  have hmost : Numeral.Spelling "01777777777777777777777".toList (2 ^ 64 - 1) :=
    .octal ⟨0, by decide +kernel⟩
  have hletters : Numeral.Spelling "0x00FeDcBa9876543210".toList 18364758544493064720 :=
    .hexadecimal (.inl rfl) ⟨2, by decide +kernel⟩
  have hleast : Numeral.Spelling "0X08000000000000000".toList (2 ^ 63) :=
    .hexadecimal (.inr rfl) ⟨1, by decide +kernel⟩
  have hlarge : Numeral.Spelling "02000000000000000000000".toList (2 ^ 64) :=
    .octal ⟨0, by decide +kernel⟩
  have hoption : IsWord "x" := isWord_of_all rfl rfl
  have htype : IsWord "E" := isWord_of_all rfl rfl
  have hname : IsWord "A" := isWord_of_all rfl rfl
  obtain ⟨g, hg, hgap, hsaid⟩ := Setting.exists_gap {} hoption
  obtain ⟨before, hbefore, hgap⟩ : ∃ before, before = "option x = " ∧
      ∀ number, g.Between before number ";" := ⟨_, by decide +kernel, hgap⟩
  obtain ⟨g', hg', hgap', hsaid'⟩ := EnumType.exists_gap {} htype hname
  obtain ⟨front, behind, hfront, hbehind, hgap'⟩ : ∃ front behind, front = "enum E \x7bA = " ∧
      behind = ";\x7d" ∧ ∀ number, g'.Between front number behind :=
    ⟨_, _, by decide +kernel, by decide +kernel, hgap'⟩
  have hcloses : ∀ d ∈ behind.toList.head?, closes d := by
    rw [hbehind]
    rintro _ ⟨⟩
    rfl
  have hsemicolon : ∀ d ∈ ";".toList.head?, closes d := by
    rintro _ ⟨⟩
    rfl
  refine ⟨before, front, behind, hbefore, hfront, hbehind, ?_, ?_, ?_, ?_, ?_⟩
  · have hparse := @parse_spelled _ before ";" _ true {} hmost (hmost.longest hsemicolon)
    rw [← hsaid]
    exact (hparse.1 (by decide)).1 g hg (hgap _)
  · have hparse := @parse_spelled _ before ";" _ false {} hletters (hletters.longest hsemicolon)
    rw [← hsaid]
    exact (hparse.1 (by decide)).1 g hg (hgap _)
  · have hparse := @parse_spelled _ front behind _ true {} hleast (hleast.longest hcloses)
    have hread := (hparse.1 (by decide)).2 g' hg' (hgap' _)
    rw [if_pos (by decide), hsaid'] at hread
    exact hread
  · have hparse := @parse_spelled _ front behind _ false {} hleast (hleast.longest hcloses)
    have hread := (hparse.1 (by decide)).2 g' hg' (hgap' _)
    rw [if_neg (by decide)] at hread
    exact hread
  · have hparse := @parse_spelled _ front behind _ false {} hlarge (hlarge.longest hcloses)
    obtain ⟨⟨ss, hdivides, -⟩, -⟩ := hgap' (signText false ++ "02000000000000000000000")
    exact hparse.2 (by decide) ⟨ss, hdivides⟩

end ProtoSchema
