import ProtoSchema.Proofs.Grammar.Elsewhere
import ProtoSchema.Proofs.Grammar.Promptness.Prompt

/-!
# The rules for statements are prompt

Each statement is proved from those of the rules that its rule is made of, in the order in which it
runs them; what has been taken is put together at the end, where the whole is a phrase.

Where a rule is given a value that it has no use for, such as the content of the string behind
`syntax`, any supply of the kind will do; where it does have a use, the supply is one that it
accepts (`Reader.stringText_promptAt`).

## What is here

* `Reader.name_prompt` to `Reader.typeRef_prompt` — names of all sorts.
* `Reader.stringText_promptAt`, `Reader.literal_promptAt`, `Reader.constant_prompt` — values.
* `Reader.integer_zero`, `Reader.integer_minus_zero`, `Reader.integer_promptAt` — integers.  A sign
  that has been taken is finished with zero, which any configuration admits.
* `Reader.fieldNumber_prompt`, `Reader.range_prompt` — numbers of fields, and ranges.
* `Reader.settingEntry_prompt`, `Reader.bracketedSettings_prompt`, `Reader.settingFrom_prompt` —
  options.
* `Reader.numbered_prompt` — the name, number and options that all sorts of fields have.
* `Reader.fieldFrom_prompt`, `Reader.mapFieldFrom_prompt`, `Reader.enumValueFrom_prompt` — fields.
* `Reader.extensionsFrom_prompt`, `Reader.reservedFrom_prompt` — numbers and names that are set
  apart.
-/

set_option autoImplicit false

namespace ProtoSchema

open Grammar Rule Phrase

namespace Reader

variable {r : Reader} {i : Nat} {rest : List Symbol}

/-! ## Names -/

theorem name_prompt : r.Prompt name (One fun s ↦ s.isName) :=
  prompt_take (fun _ hs ↦ Symbol.kind_ne_of_isName hs nofun nofun) (by decide) fun e he ↦
    prompt_pure ⟨e.symbol, rfl, he⟩

theorem dotted_prompt (head : String) :
    r.Prompt (dotted head) (Says (Many (Behind .dot Name))) := by
  refine (many_prompt fun e he ↦ name_prompt.imp ?_).returning fun _ hs ↦ hs
  rintro _ ⟨a, rfl, ha⟩
  exact Says.behind (Symbol.is_iff.mp he) fun i ↦ ⟨a.lexeme, .mk ha⟩

theorem fullName_prompt : r.Prompt fullName (Says (FullName.Derives noNote)) := by
  refine prompt_current fun first ↦ name_prompt.bind_one fun w a ha ↦ ?_
  refine (dotted_prompt w).noting fun s hs ↦ ?_
  choose ws hws using hs
  exact fun i ↦ ⟨_, .mk (.mk ha) (hws _)⟩

theorem extensionName_prompt :
    r.Prompt extensionName fun s ↦ ∀ i, OptionName.Extension noNote i s := by
  have behind {a : Symbol} {root : List Symbol} (ha : a.kind = .leftParen)
      (hroot : OptionalDot root) (f : FullName Extent → String) :
      r.Prompt (do
        let name ← fullName
        let _ ← expect .rightParen
        return f name) fun t ↦ ∀ i, OptionName.Extension noNote i (a :: (root ++ t)) := by
    refine fullName_prompt.bind fun _ s hs ↦ ?_
    refine (expect_prompt .rightParen (by decide)).bind_one fun _ b hb ↦ prompt_pure ?_
    choose n hn using hs
    exact fun i ↦ .mk ha hroot (hn _) hb
  refine (expect_prompt .leftParen (by decide)).bind_one fun _ a ha ↦ ?_
  exact prompt_takeIf (kind_ne_eof_of_is .dot nofun) (behind ha .none _) fun e he ↦
    behind ha (.some (Symbol.is_iff.mp he)) _

theorem optionName_prompt : r.Prompt optionName (Says (OptionName.Derives noNote)) := by
  refine prompt_current fun first ↦ ?_
  split
  · refine extensionName_prompt.bind fun head s hs ↦ (dotted_prompt head).noting fun t ht ↦ ?_
    choose ws hws using ht
    exact fun i ↦ ⟨_, .extension (hs i) (hws _)⟩
  · refine name_prompt.bind_one fun head a ha ↦ (dotted_prompt head).noting fun t ht ↦ ?_
    choose ws hws using ht
    exact fun i ↦ ⟨_, .plain (.mk ha) (hws _)⟩

theorem rootedName_prompt : r.Prompt rootedName (One fun s ↦ s.kind = .identifier) :=
  prompt_take (kind_ne_eof_of_is .identifier nofun) (by decide) fun e he ↦
    prompt_pure ⟨e.symbol, rfl, Symbol.is_iff.mp he⟩

theorem typeRefFrom_prompt {first : Entry} (hfirst : startsType first.symbol) :
    r.Prompt (typeRefFrom first) fun t ↦ Says (TypeRef.Derives noNote) (first.symbol :: t) := by
  unfold typeRefFrom
  split
  · rename_i hprimitive
    exact prompt_extentFrom fun i ↦ ⟨_, .primitive (Symbol.is_iff.mp hprimitive)⟩
  rename_i hprimitive
  split
  · rename_i hdot
    refine rootedName_prompt.bind_one fun head a ha ↦ (dotted_prompt head).noting fun t ht ↦ ?_
    choose ws hws using ht
    exact fun i ↦ ⟨_, .named (.some (Symbol.is_iff.mp hdot)) ha (hws _)⟩
  · rename_i hdot
    have hk : first.symbol.kind = .identifier := by
      rcases kind_of_startsType hfirst with hk | hk | hk
      · exact hk
      · exact absurd (Symbol.is_iff.mpr hk) hprimitive
      · exact absurd (Symbol.is_iff.mpr hk) hdot
    refine prompt_pure_bind ((dotted_prompt _).noting fun t ht ↦ ?_)
    choose ws hws using ht
    exact fun i ↦ ⟨_, .named .none hk (hws _)⟩

theorem typeRef_prompt : r.Prompt typeRef (Says (TypeRef.Derives noNote)) :=
  prompt_take (fun _ hs ↦ kind_ne_eof_of_startsType hs) (by decide) fun _ he ↦ typeRefFrom_prompt he

/-! ## Values -/

/-- In place of what is no string the name of a version could stand. -/
theorem stringText_promptAt : r.PromptAt stringText i rest (fun text s ↦ ∀ i, Text i text s)
    fun s ↦ ∀ i, Text i "proto3" s := by
  refine promptAt_current ?_
  dsimp only
  split
  · rename_i text htext
    obtain ⟨his, htext⟩ := Option.ite_none_right_eq_some.mp htext
    have hrest : rest ≠ [] := ne_nil_of_kind (r := r) (kind_ne_eof_of_is .string nofun _ his)
    exact promptAt_taking hrest fun _ ↦ .mk (Symbol.is_iff.mp his) htext
  · exact promptAt_reject ⟨[versionText], by decide, fun _ ↦ .mk rfl rfl⟩

theorem stringText_prompt : r.Prompt stringText (Says Text) where
  nonempty := ⟨""⟩
  viable := ⟨[versionText], by decide, fun _ ↦ ⟨"proto3", .mk rfl rfl⟩⟩
  promptAt _ _ := stringText_promptAt.imp (fun text _ hs i ↦ ⟨text, hs i⟩)
    fun _ hs i ↦ ⟨"proto3", hs i⟩

theorem unsigned_prompt (negative : Bool) :
    r.Prompt (unsigned negative) (One fun s ↦ ∃ v, IsUnsigned negative v s) := by
  have hzero : Viable (One fun s ↦ ∃ v, IsUnsigned negative v s) [] :=
    ⟨[zero], by decide, zero, rfl, _, .inr (.inr ⟨.integer 0, rfl, by decide, by decide, rfl⟩)⟩
  refine ⟨⟨.bool false⟩, hzero, fun i rest ↦ promptAt_current ?_⟩
  dsimp only
  split
  · rename_i hinf
    exact promptAt_taking (ne_nil_of_kind (kind_ne_eof_of_isWord _ hinf))
      ⟨_, rfl, _, .inl ⟨hinf, rfl⟩⟩
  rename_i hinf
  split
  · rename_i hnan
    exact promptAt_taking (ne_nil_of_kind (kind_ne_eof_of_isWord _ hnan))
      ⟨_, rfl, _, .inr (.inl ⟨hnan, rfl⟩)⟩
  rename_i hnan
  split
  · rename_i n hn
    exact fun hstop ↦ promptAt_taking (ne_nil_of_number? hstop hn)
      ⟨_, rfl, _, .inr (.inr ⟨.integer n, hn, hinf, hnan, rfl⟩)⟩ hstop
  · rename_i x hx
    exact fun hstop ↦ promptAt_taking (ne_nil_of_number? hstop hx)
      ⟨_, rfl, _, .inr (.inr ⟨.float x, hx, hinf, hnan, rfl⟩)⟩ hstop
  · exact promptAt_reject hzero

theorem literal_promptAt :
    r.PromptAt (literal (rest.headD r.stop)) i rest (fun _ ↦ Says Literal.Derives)
      (Says Literal.Derives) := by
  have hzero : Viable (Says Literal.Derives) [] :=
    ⟨[zero], by decide, fun _ ↦ ⟨_, .number rfl rfl⟩⟩
  unfold literal
  split
  · rename_i hbool
    have hword := isWord_of_bool hbool
    have hrest : rest ≠ [] := ne_nil_of_kind (r := r) (kind_ne_eof_of_isWord _ hword)
    exact promptAt_taking hrest fun _ ↦ ⟨_, .bool hword⟩
  split
  · have himp (s : List Symbol) (hs : Says Text s) : Says Literal.Derives s :=
      hs.imp fun _ _ h ↦ ⟨_, .text h⟩
    exact (stringText_prompt.promptAt i rest).returning (fun _ ↦ himp) himp
  split
  · rename_i hnumber
    refine (unsigned_prompt false).promptAt_of_head hzero nofun ?_
    rintro _ ⟨_, ⟨rfl, rfl⟩, v, hv⟩ i
    exact ⟨v, hv.derives_number (Symbol.is_iff.mp hnumber)⟩
  split
  · rename_i hsign
    have hk := kind_of_sign hsign
    refine promptAt_take (ne_nil_of_kind (hk ▸ signKind_ne_eof _)) fun s rest' hrest ↦ ?_
    subst hrest
    refine (((unsigned_prompt _).imp ?_).promptAt (i + 1) rest')
    rintro _ ⟨a, rfl, v, hv⟩ i
    exact ⟨v, hv.derives_signed hk⟩
  · exact promptAt_reject hzero

theorem constant_prompt : r.Prompt constant (Says (Constant.Derives noNote)) := by
  have hliteral (s : List Symbol) (hs : Says Literal.Derives s) :
      Says (Constant.Derives noNote) s :=
    hs.imp fun _ _ h ↦ ⟨_, .literal h⟩
  have hzero : Viable (Says (Constant.Derives noNote)) [] :=
    ⟨[zero], by decide, hliteral _ fun _ ↦ ⟨_, .number rfl rfl⟩⟩
  refine ⟨⟨.literal (.bool false) ⟨0, 0⟩⟩, hzero, fun i rest ↦ promptAt_current ?_⟩
  split
  · rename_i hstarts
    refine fullName_prompt.returning_of_head hzero ?_ fun t ht ↦ ?_
    · intro h
      obtain ⟨x, hx⟩ := h 0
      obtain ⟨_, _, ⟨⟩, -⟩ := hx.exists_cons
    · exact ht.imp fun _ _ h ↦ ⟨_, .name hstarts h⟩
  · refine literal_promptAt.bind (fun _ s rest' hs ↦ ?_) fun s hs ↦ ?_
    · exact (prompt_extentFrom (by simpa using hliteral s hs)).promptAt _ rest'
    · exact .of_finished (by simpa using hliteral s hs)

/-- Zero is an integer. -/
theorem integer_zero : Integer i 0 [zero] := .plain (.mk rfl (by decide)) nofun

/-- So it is behind a minus sign. -/
theorem integer_minus_zero {minus : Symbol} (h : minus.kind = .minus) :
    Integer i 0 [minus, zero] := by
  have hzero : Integer i (-(0 : Nat)) [minus, zero] := .negative h rfl (by decide)
  simpa using hzero

/-- What is no integer could be zero, whose sign does not matter. -/
theorem integer_promptAt : r.PromptAt integer i rest (fun n s ↦ ∀ i, Integer i n s)
    fun s ↦ ∀ i, Integer i 0 s := by
  -- Behind the sign, if there is one, a number is taken whose value has to fit.
  have behind {minus : Option Entry} {i m : Nat} {rest : List Symbol} {S : Int → List Symbol → Prop}
      {F : List Symbol → Prop} (hm : (rest.headD r.stop).number? = some (.integer m))
      (hS : ∀ n : Int, n = (if minus.isSome then -(m : Int) else m) → fitsInteger n →
        S n [rest.headD r.stop]) :
      r.PromptAt (do
        let _ ← take
        let value : Int := if minus.isSome then -m else m
        if fitsInteger value then return value
        else
          let sign := if minus.isSome then "-" else ""
          violate i (.integerOutOfRange (sign ++ (rest.headD r.stop).lexeme))) i rest S F := by
    refine fun hstop ↦ promptAt_take (ne_nil_of_number? hstop hm) (fun s rest' hrest ↦ ?_) hstop
    subst hrest
    by_cases hfits : fitsInteger (if minus.isSome then -(m : Int) else m)
    · rw [if_pos hfits]
      exact fun _ ↦ .ok (s := []) rfl (hS _ rfl hfits)
    · rw [if_neg hfits]
      exact promptAt_violate
  refine promptAt_takeIf (kind_ne_eof_of_is .minus (by decide)) (fun hminus ↦ ?_)
    fun sign rest' hrest hsign ↦ ?_
  · refine promptAt_current ?_
    split
    · rename_i m hm
      refine behind hm ?_
      rintro _ rfl hfits i
      exact .plain (.mk hm hfits) fun hk ↦ hminus (Symbol.is_iff.mpr hk)
    · exact promptAt_reject ⟨[zero], by decide, fun _ ↦ integer_zero⟩
  · refine promptAt_current ?_
    split
    · rename_i m hm
      refine behind hm ?_
      rintro _ rfl hfits i
      exact .negative (Symbol.is_iff.mp hsign) hm hfits
    · exact promptAt_reject ⟨[zero], by decide, fun _ ↦ integer_minus_zero (Symbol.is_iff.mp hsign)⟩

theorem integer_prompt : r.Prompt integer (Says Integer) where
  nonempty := ⟨0⟩
  viable := ⟨[zero], by decide, fun _ ↦ ⟨0, integer_zero⟩⟩
  promptAt _ _ := integer_promptAt.imp (fun n _ hs i ↦ ⟨n, hs i⟩) fun _ hs i ↦ ⟨0, hs i⟩

/-- The number may be negative only if the configuration says so, but what is no number could be
zero in any case. -/
theorem fieldNumber_prompt {config : Config}
    (hconfig : r.config.allowNegative → config.allowNegative) :
    r.Prompt fieldNumber (Says (FieldNumber Integer config)) := by
  refine ⟨⟨0⟩, ⟨[zero], by decide, fun _ ↦ ⟨0, .mk integer_zero (.inl (Int.le_refl 0))⟩⟩,
    fun i rest ↦ promptAt_current (integer_promptAt.bind (fun n s rest' hn ↦ ?_) fun s hs ↦ ?_)⟩
  · dsimp only
    split
    · intro hstop
      rw [run, run_bind, Rule.run]
      split
      · rename_i hallowed
        refine .ok (s := []) rfl fun i ↦ ⟨n, .mk ?_ (.inr (hconfig hallowed))⟩
        rw [List.append_nil]
        exact hn i
      · exact .violation
    · rename_i hneg
      refine (prompt_pure fun i ↦ ⟨n, .mk ?_ (.inl (Int.not_lt.mp hneg))⟩).promptAt _ rest'
      rw [List.append_nil]
      exact hn i
  · refine .of_finished fun i ↦ ⟨0, .mk ?_ (.inl (Int.le_refl 0))⟩
    rw [List.append_nil]
    exact hs i

theorem range_prompt : r.Prompt range (Says (NumberRange.Derives Integer)) := by
  refine integer_prompt.bind fun low s hs ↦ ?_
  choose n hn using hs
  refine prompt_takeIf kind_ne_eof_of_isWord (prompt_pure ?_) fun e hto ↦ ?_
  · rw [List.append_nil]
    exact fun i ↦ ⟨_, .single (hn i)⟩
  have hmax (a : Symbol) (ha : a.isWord "max") :
      Says (NumberRange.Derives Integer) (s ++ [e.symbol, a]) :=
    fun i ↦ ⟨_, .toMax (hn i) hto ha⟩
  have hspan (t : List Symbol) (ht : Says Integer t) (hfirst : ∀ a ∈ t.head?, ¬a.isWord "max") :
      Says (NumberRange.Derives Integer) (s ++ e.symbol :: t) := by
    choose m hm using ht
    exact fun i ↦ ⟨_, .span (hn i) hto (hm _) hfirst⟩
  have hzero : Viable (fun t ↦ Says (NumberRange.Derives Integer) (s ++ e.symbol :: t)) [] :=
    ⟨[zero], by decide, hspan _ (fun _ ↦ ⟨0, integer_zero⟩)
      (by simp [zero, Symbol.isWord])⟩
  refine ⟨⟨.single 0⟩, hzero, fun i rest ↦ ?_⟩
  refine promptAt_takeIf kind_ne_eof_of_isWord (fun hmax' ↦ ?_) fun a rest' _ ha ↦
    (prompt_pure (hmax a ha)).promptAt (i + 1) rest'
  refine integer_prompt.returning_of_head hzero (fun h ↦ hspan _ h (by simp))
    fun t ht ↦ hspan _ ht ?_
  rintro _ ⟨⟩
  exact hmax'

/-! ## Options -/

theorem settingEntry_prompt : r.Prompt settingEntry (Says (Setting.DerivesEntry noNote)) := by
  refine prompt_current fun first ↦ optionName_prompt.bind fun _ s hs ↦ ?_
  refine (expect_prompt .equal (by decide)).bind_one fun _ eq heq ↦ ?_
  refine constant_prompt.noting fun t ht ↦ ?_
  choose n hn using hs
  choose v hv using ht
  exact fun i ↦ ⟨_, .mk (hn i) heq (hv _)⟩

theorem bracketedSettings_prompt :
    r.Prompt bracketedSettings (Says (Setting.Bracketed noNote)) := by
  refine prompt_takeIf (kind_ne_eof_of_is .leftBracket nofun) (prompt_pure fun i ↦ ⟨_, .none⟩)
    fun e he ↦ ?_
  refine (separated_prompt settingEntry_prompt).bind fun _ s hs ↦ ?_
  refine (expect_prompt .rightBracket (by decide)).bind_one fun _ right hright ↦ prompt_pure ?_
  choose xs hxs using hs
  exact fun i ↦ ⟨_, .some (Symbol.is_iff.mp he) (hxs _) hright⟩

theorem settingFrom_prompt {first : Entry} (hfirst : first.symbol.isWord "option") :
    r.Prompt (settingFrom first) fun t ↦ Says (Setting.Derives noNote) (first.symbol :: t) := by
  refine optionName_prompt.bind fun _ s hs ↦ ?_
  refine (expect_prompt .equal (by decide)).bind_one fun _ eq heq ↦ ?_
  refine constant_prompt.bind fun _ t ht ↦ ?_
  refine prompt_semicolon fun semi hsemi ↦ ?_
  choose n hn using hs
  choose v hv using ht
  exact fun i ↦ ⟨_, .mk hfirst (hn _) heq (hv _) hsemi⟩

/-! ## Fields -/

section Fields

variable {config : Config} (hconfig : r.config.allowNegative → config.allowNegative)

include hconfig

/-- What the rules for fields of all sorts do behind the type. -/
theorem numbered_prompt {α : Type} {next : String → Int → List (Setting Extent) → Rule α}
    {F : List Symbol → Prop}
    (h : ∀ w n options s, Says (Numbered Integer config noNote) s →
      r.Prompt (next w n options) fun t ↦ F (s ++ t)) :
    r.Prompt (do
      let name ← Grammar.name
      let _ ← expect .equal
      let number ← fieldNumber
      let options ← bracketedSettings
      next name number options) F := by
  refine name_prompt.bind_one fun w name hname ↦ ?_
  refine (expect_prompt .equal (by decide)).bind_one fun _ eq heq ↦ ?_
  refine (fieldNumber_prompt hconfig).bind fun n s hs ↦ ?_
  refine bracketedSettings_prompt.bind fun options t ht ↦ ?_
  have hnumbered : Says (Numbered Integer config noNote) (name :: eq :: (s ++ t)) := by
    choose m hm using hs
    choose xs hxs using ht
    exact fun i ↦ ⟨_, .mk hname heq (hm _) (hxs _)⟩
  simpa using h w n options _ hnumbered

theorem fieldFrom_prompt {first : Entry} (hfirst : startsType first.symbol) :
    r.Prompt (fieldFrom first) fun t ↦ Says (Field.Derives config noNote) (first.symbol :: t) := by
  unfold fieldFrom
  cases hl : labelOf? first.symbol with
  | some label =>
    refine typeRef_prompt.bind fun _ s hs ↦ numbered_prompt hconfig fun _ _ _ t ht ↦ ?_
    refine prompt_semicolon fun semi hsemi ↦ ?_
    choose type htype using hs
    choose x hx using ht
    exact fun i ↦ ⟨_, .labelled hl (htype _) (hx _) hsemi⟩
  | none =>
    refine (typeRefFrom_prompt hfirst).bind fun _ s hs ↦ numbered_prompt hconfig fun _ _ _ t ht ↦ ?_
    refine prompt_semicolon fun semi hsemi ↦ ?_
    choose type htype using hs
    choose x hx using ht
    exact fun i ↦ ⟨_, .plain hl (htype _) (hx _) hsemi⟩

theorem mapFieldFrom_prompt {first : Entry} (hfirst : first.symbol.isWord "map") :
    r.Prompt (mapFieldFrom first) fun t ↦
      Says (MapField.Derives Integer config noNote) (first.symbol :: t) := by
  refine (expect_prompt .less (by decide)).bind_one fun _ less hless ↦ ?_
  refine (expect_prompt .primitiveType (by decide)).bind_one fun _ key hkey ↦ ?_
  refine (expect_prompt .comma (by decide)).bind_one fun _ comma hcomma ↦ ?_
  refine typeRef_prompt.bind fun _ s hs ↦ ?_
  refine (expect_prompt .greater (by decide)).bind_one fun _ greater hgreater ↦ ?_
  refine numbered_prompt hconfig fun _ _ _ t ht ↦ ?_
  refine prompt_semicolon fun semi hsemi ↦ ?_
  choose type htype using hs
  choose x hx using ht
  exact fun i ↦ ⟨_, .mk hfirst hless hkey hcomma (htype _) hgreater (hx _) hsemi⟩

end Fields

theorem enumValueFrom_prompt {first : Entry} (hfirst : first.symbol.isName) :
    r.Prompt (enumValueFrom first) fun t ↦ Says (Field.DerivesValue noNote)
      (first.symbol :: t) := by
  refine (expect_prompt .equal (by decide)).bind_one fun _ eq heq ↦ ?_
  refine integer_prompt.bind fun _ s hs ↦ bracketedSettings_prompt.bind fun _ t ht ↦ ?_
  refine prompt_semicolon fun semi hsemi ↦ ?_
  choose n hn using hs
  choose xs hxs using ht
  exact fun i ↦ ⟨_, .mk hfirst heq (hn _) (hxs _) hsemi⟩

/-! ## Statements of a message body -/

theorem extensionsFrom_prompt {first : Entry} (hfirst : first.symbol.isWord "extensions") :
    r.Prompt (extensionsFrom first) fun t ↦
      Says (Extensions.Derives Integer noNote) (first.symbol :: t) := by
  refine (separated_prompt range_prompt).bind fun _ s hs ↦
    bracketedSettings_prompt.bind fun _ t ht ↦ ?_
  refine prompt_semicolon fun semi hsemi ↦ ?_
  choose ranges hranges using hs
  choose xs hxs using ht
  exact fun i ↦ ⟨_, .mk hfirst (hranges _) (hxs _) hsemi⟩

theorem reservedItems_prompt : r.Prompt reservedItems (Says (ReservedItems.Derives Integer)) := by
  have htexts : r.Prompt (separated stringText) (Says (Separated Text)) :=
    separated_prompt stringText_prompt
  have hnames (s : List Symbol) (hs : Says (Separated Text) s) :
      Says (ReservedItems.Derives Integer) s :=
    hs.imp fun _ _ h ↦ ⟨_, .names h⟩
  refine ⟨⟨.names []⟩, htexts.viable.imp hnames, fun i rest ↦ promptAt_current ?_⟩
  split
  · exact (htexts.returning hnames).promptAt i rest
  · rename_i hstring
    refine (separated_prompt range_prompt).returning_of_head (htexts.viable.imp hnames) ?_ ?_
    · exact fun h ↦ h.imp fun _ _ h ↦ ⟨_, .ranges h nofun⟩
    · refine fun t ht ↦ ht.imp fun _ _ h ↦ ⟨_, .ranges h ?_⟩
      rintro _ ⟨⟩ hk
      exact hstring (Symbol.is_iff.mpr hk)

theorem reservedFrom_prompt {first : Entry} (hfirst : first.symbol.isWord "reserved") :
    r.Prompt (reservedFrom first) fun t ↦
      Says (Reserved.Derives Integer noNote) (first.symbol :: t) := by
  refine reservedItems_prompt.bind fun _ s hs ↦ ?_
  refine prompt_semicolon fun semi hsemi ↦ ?_
  choose items hitems using hs
  exact fun i ↦ ⟨_, .mk hfirst (hitems _) hsemi⟩

end Reader

end ProtoSchema
