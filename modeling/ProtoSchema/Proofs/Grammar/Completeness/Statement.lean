import ProtoSchema.Proofs.Grammar.Completeness.Accepting
import ProtoSchema.Proofs.Grammar.Derivation
import ProtoSchema.Schema.Map

/-!
# The rules for statements read whatever the grammar says

For every phrase of the grammar, the rule for it reads the phrase to its end and makes its tree.
Here are the rules up to single statements.

A name goes on behind a dot, and so do the constants and references that can be names; a range goes
on behind `to`.  Nothing else looks at the symbol behind it.

## What is here

* `Reader.name_accepts` to `Reader.typeRef_accepts` — names of all sorts.
* `Reader.run_literal`, `Reader.constant_accepts` — values.
* `Reader.run_integer`, `Reader.run_fieldNumber`, `Reader.range_accepts` — numbers.
* `Reader.settingEntry_accepts`, `Reader.bracketedSettings_accepts`, `Reader.settingFrom_accepts` —
  options.
* `Reader.run_numbered` — the name, number and options that all sorts of fields have.
* `Reader.fieldFrom_accepts`, `Reader.mapFieldFrom_accepts`, `Reader.enumValueFrom_accepts` —
  fields.
* `Reader.extensionsFrom_accepts`, `Reader.reservedFrom_accepts` — numbers and names that are set
  apart.

The order is that of `ProtoSchema.Parse.Grammar`.
-/

set_option autoImplicit false

namespace ProtoSchema

open Grammar Rule Phrase

namespace Reader

variable {ν : Type} (note : Extent → ν) {r : Reader} {i : Nat} {s : Symbol} {rest t : List Symbol}

/-! ## Names -/

theorem run_name (hs : s.isName) :
    r.run name i (s :: rest) = .ok (s.lexeme, ⟨i + 1, rest, r.stop⟩) := by
  refine bind_ok (run_current _) ?_
  rw [current_cons, if_pos hs]
  exact bind_ok run_take rfl

theorem name_accepts : r.Accepts Anything name id Name := by
  rintro i _ _ ⟨hs⟩ rest -
  exact ⟨_, rfl, run_name hs⟩

/-- Behind a first name, the dots and the other names are read. -/
theorem run_dotted {ws : List String} (h : Many (Behind .dot Name) i ws t)
    (hrest : (rest.headD r.stop).kind ≠ .dot) (head : String) :
    r.run (dotted head) i (t ++ rest) =
      .ok (head ++ spelled t, ⟨i + t.length, rest, r.stop⟩) := by
  obtain ⟨ws, rfl, ews⟩ := many_behind_accepts name_accepts (fun _ _ ↦ trivial) h rest
    ⟨hrest, trivial⟩
  rw [List.map_id] at h
  exact bind_ok ews (by rw [joinDots_eq h]; rfl)

theorem fullName_accepts :
    r.Accepts (Other .dot) fullName (FullName.map note) (FullName.Derives note) := by
  rintro i _ _ @⟨_, w, ws, _, t, ⟨hs⟩, hws⟩ rest hrest
  rename_i s
  refine ⟨⟨spelled ([s] ++ t), ⟨i, _⟩⟩, rfl, ?_⟩
  have hlen : i + ([s] ++ t).length = i + 1 + t.length := by simp; omega
  rw [hlen, List.singleton_append, spelled_cons, Symbol.spelling_of_isName hs]
  exact bind_ok (run_current _) (bind_ok (run_name hs) (bind_ok (run_dotted hws hrest _) rfl))

/-- The dot in front of a name is taken, if it is there. -/
theorem run_optionalDot {root : List Symbol} (h : OptionalDot root) (rest : List Symbol)
    (hrest : (rest.headD r.stop).kind ≠ .dot) :
    ∃ x, r.run (takeIf (·.is .dot)) i (root ++ rest) = .ok (x, ⟨i + root.length, rest, r.stop⟩) ∧
      (if x.isSome then "." else "") = spelled root := by
  cases h with
  | none => exact ⟨none, run_takeIf_none fun hs ↦ hrest (Symbol.is_iff.mp hs), rfl⟩
  | some hs =>
    exact ⟨some _, run_takeIf (Symbol.is_iff.mpr hs), by simp [Symbol.spelling_of_kind hs rfl]⟩

theorem kind_ne_dot_of_isName (h : s.isName) : s.kind ≠ .dot :=
  Symbol.kind_ne_of_isName h nofun nofun

/-- The name of an extension with its parentheses. -/
theorem run_extensionName (h : OptionName.Extension note i t) (rest : List Symbol) :
    r.run extensionName i (t ++ rest) = .ok (spelled t, ⟨i + t.length, rest, r.stop⟩) := by
  obtain ⟨hl, hroot, hn, hr⟩ := h
  rename_i l right root u n
  obtain ⟨first, v, rfl, hfirst⟩ := hn.exists_cons
  obtain ⟨x, ex, hx⟩ := run_optionalDot (r := r) (i := i + 1) hroot (first :: v ++ right :: rest)
    (Symbol.kind_ne_of_isName hfirst nofun nofun)
  obtain ⟨n, rfl, en⟩ := fullName_accepts note hn (r := r) (right :: rest) (other_of_kind hr nofun)
  have hname : spelled (first :: v) = n.text := hn.spelled_eq
  have hlen : i + (l :: (root ++ (first :: v ++ [right]))).length =
      i + 1 + root.length + (first :: v).length + 1 := by simp; omega
  have htext : spelled (l :: (root ++ (first :: v ++ [right]))) =
      "(" ++ (if x.isSome then "." else "") ++ n.text ++ ")" := by
    rw [hx, ← hname]
    simp [Symbol.spelling_of_kind hl rfl, Symbol.spelling_of_kind hr rfl, String.append_assoc]
  rw [hlen, htext, List.cons_append, List.append_assoc, List.append_assoc]
  exact bind_ok (run_expect hl) (bind_ok ex (bind_ok en (bind_ok (run_expect hr) rfl)))

theorem optionName_accepts :
    r.Accepts (Other .dot) optionName (OptionName.map note) (OptionName.Derives note) := by
  intro i y u h rest hrest
  cases h with
  | @plain _ w ws _ t head tail =>
    obtain @⟨_, s, hs⟩ := head
    have hparen : s.is .leftParen = false :=
      Symbol.is_eq_false_iff.mpr (Symbol.kind_ne_of_isName hs nofun nofun)
    refine ⟨⟨spelled ([s] ++ t), ⟨i, _⟩⟩, rfl, ?_⟩
    have hlen : i + ([s] ++ t).length = i + 1 + t.length := by simp; omega
    rw [hlen, List.singleton_append, spelled_cons, Symbol.spelling_of_isName hs]
    refine bind_ok (run_current _) ?_
    simp only [List.cons_append, current_cons, hparen, Bool.false_eq_true, if_false]
    exact bind_ok (run_name hs) (bind_ok (run_dotted tail hrest _) rfl)
  | @extension _ ws s t head tail =>
    obtain ⟨l, u, rfl, hl⟩ : ∃ l u, s = l :: u ∧ l.kind = .leftParen := by
      obtain ⟨hl⟩ := head
      exact ⟨_, _, rfl, hl⟩
    refine ⟨⟨spelled (l :: u ++ t), ⟨i, _⟩⟩, rfl, ?_⟩
    have hrun := run_extensionName note head (r := r) (t ++ rest)
    rw [List.length_append, ← Nat.add_assoc, spelled_append, List.append_assoc]
    refine bind_ok (run_current _) ?_
    simp only [List.cons_append, current_cons, Symbol.is_iff.mpr hl, if_true]
    exact bind_ok hrun (bind_ok (run_dotted tail hrest _) rfl)

/-- A type reference behind its first symbol. -/
theorem typeRefFrom_accepts :
    r.AcceptsBehind (Other .dot) (fun s ↦ startsType s) typeRefFrom (TypeRef.map note)
      (TypeRef.Derives note) := by
  intro i y u h
  cases h with
  | @primitive _ s hs =>
    refine ⟨s, [], rfl, by simp [startsType, Symbol.isName, hs], fun rest _ ↦ ?_⟩
    refine ⟨⟨s.lexeme, ⟨i, i + 1⟩⟩, rfl, ?_⟩
    simp only [run, typeRefFrom, Symbol.is_iff.mpr hs, if_true]
    exact bind_ok rfl rfl
  | @named _ s ws root t hroot hs tail =>
    have hname : s.spelling = s.lexeme := Symbol.spelling_of_isName (Symbol.isName_of_kind hs)
    cases hroot with
    | none =>
      refine ⟨s, t, rfl, by simp [startsType, Symbol.isName, hs], fun rest hrest ↦ ?_⟩
      refine ⟨⟨spelled (s :: t), ⟨i, _⟩⟩, rfl, ?_⟩
      have hlen : i + ([] ++ s :: t).length = i + 1 + t.length := by simp; omega
      have hdotted := run_dotted (r := r) tail hrest s.lexeme
      rw [hlen, spelled_cons, hname]
      simp only [run, typeRefFrom, Symbol.is, hs, beq_iff_eq, reduceCtorEq, if_false]
      exact bind_ok rfl (bind_ok hdotted rfl)
    | @some dot hdot =>
      refine ⟨dot, s :: t, rfl, by simp [startsType, Symbol.is, hdot], fun rest hrest ↦ ?_⟩
      refine ⟨⟨spelled (dot :: s :: t), ⟨i, _⟩⟩, rfl, ?_⟩
      have hlen : i + ([dot] ++ s :: t).length = i + 1 + 1 + t.length := by simp; omega
      have hroot : r.run rootedName (i + 1) (s :: (t ++ rest)) =
          .ok ("." ++ s.lexeme, ⟨i + 1 + 1, t ++ rest, r.stop⟩) := by
        refine bind_ok (run_current _) ?_
        rw [current_cons, if_pos (Symbol.is_iff.mpr hs)]
        exact bind_ok run_take rfl
      have hdotted := run_dotted (r := r) tail hrest ("." ++ s.lexeme)
      rw [hlen, spelled_cons, spelled_cons, hname, Symbol.spelling_of_kind hdot rfl,
        ← String.append_assoc]
      simp only [run, typeRefFrom, Symbol.is, hdot, beq_iff_eq, reduceCtorEq, if_false, if_true]
      exact bind_ok hroot (bind_ok hdotted rfl)

theorem typeRef_accepts :
    r.Accepts (Other .dot) typeRef (TypeRef.map note) (TypeRef.Derives note) := by
  intro i y s h rest hrest
  obtain ⟨first, t, rfl, hfirst, hrun⟩ := typeRefFrom_accepts note h
  obtain ⟨x, rfl, ex⟩ := hrun rest hrest
  refine ⟨x, rfl, bind_ok (run_current _) ?_⟩
  rw [List.cons_append, current_cons, if_pos hfirst]
  exact bind_ok run_take ex

/-! ## Values -/

theorem stringText_accepts : r.Accepts Anything stringText id Text := by
  rintro i content _ ⟨hs, hc⟩ rest -
  refine ⟨content, rfl, bind_ok (run_current _) ?_⟩
  simp only [List.cons_append, current_cons, Symbol.is_iff.mpr hs, if_true, hc]
  exact bind_ok run_take rfl

/-- A number behind its sign, or a number without one. -/
theorem run_unsigned {negative : Bool} {n : Number} (hn : s.number? = some n)
    (hinf : ¬s.isWord "inf") (hnan : ¬s.isWord "nan") :
    r.run (unsigned negative) i (s :: rest) =
      .ok (n.literal negative, ⟨i + 1, rest, r.stop⟩) := by
  refine bind_ok (run_current _) ?_
  rw [current_cons, if_neg hinf, if_neg hnan, hn]
  cases n <;> exact bind_ok run_take rfl

theorem run_unsigned_infinity {negative : Bool} (hs : s.isWord "inf") :
    r.run (unsigned negative) i (s :: rest) =
      .ok (.float (.infinity negative), ⟨i + 1, rest, r.stop⟩) := by
  refine bind_ok (run_current _) ?_
  rw [current_cons, if_pos hs]
  exact bind_ok run_take rfl

theorem run_unsigned_nan {negative : Bool} (hs : s.isWord "nan") :
    r.run (unsigned negative) i (s :: rest) = .ok (.float .nan, ⟨i + 1, rest, r.stop⟩) := by
  have hinf : ¬s.isWord "inf" := by
    obtain ⟨-, hl⟩ := Symbol.isWord_iff.mp hs
    simp [Symbol.isWord, hl]
  refine bind_ok (run_current _) ?_
  rw [current_cons, if_neg hinf, if_pos hs]
  exact bind_ok run_take rfl

/-- Behind a sign the number is read with it. -/
theorem run_literal_signed {sign : Symbol} {negative : Bool} {v : Literal}
    (hsign : sign.kind = signKind negative)
    (hv : r.run (unsigned negative) (i + 1) t = .ok (v, ⟨i + 2, rest, r.stop⟩)) :
    r.run (literal sign) i (sign :: t) = .ok (v, ⟨i + 2, rest, r.stop⟩) := by
  cases negative <;>
  · simp only [run, literal, Symbol.isWord, Symbol.is, hsign, signKind, Bool.false_eq_true,
      if_false, if_true]
    exact bind_ok run_take hv

theorem run_literal {v : Literal} (h : v.Derives i t) :
    ∃ first u, t = first :: u ∧ ¬startsNameValue first ∧ ∀ rest,
      r.run (literal first) i (t ++ rest) = .ok (v, ⟨i + t.length, rest, r.stop⟩) := by
  have notName {s : Symbol} (hs : s.kind ≠ .identifier) : ¬startsNameValue s := by
    simp [startsNameValue, Symbol.is_eq_false_iff.mpr hs]
  have notNameSign {s : Symbol} {negative : Bool} (hs : s.kind = signKind negative) :
      ¬startsNameValue s := by
    refine notName ?_
    rw [hs]
    cases negative <;> simp [signKind]
  cases h with
  | @bool _ s b hs =>
    obtain ⟨hk, hl⟩ := Symbol.isWord_iff.mp hs
    have hb : s.isWord "true" || s.isWord "false" := by cases b <;> simp_all
    have hstarts : ¬startsNameValue s := by
      rcases Bool.or_eq_true_iff.mp hb with h | h <;> simp [startsNameValue, h]
    refine ⟨s, [], rfl, hstarts, fun rest ↦ ?_⟩
    have hvalue : (s.lexeme == "true") = b := by cases b <;> simp [hl]
    simp only [run, literal, hb, if_true, hvalue]
    exact bind_ok run_take rfl
  | text ht =>
    obtain ⟨hs, hc⟩ := ht
    refine ⟨_, [], rfl, notName (by simp [hs]), fun rest ↦ ?_⟩
    obtain ⟨_, rfl, e⟩ := stringText_accepts (r := r) (.mk (i := i) hs hc) rest trivial
    simp only [run, literal, Symbol.isWord, Symbol.is, hs]
    exact bind_ok e rfl
  | @number _ s n hs hn =>
    refine ⟨_, [], rfl, notName (by simp [hs]), fun rest ↦ ?_⟩
    have hword {w : String} : ¬s.isWord w := fun h ↦ by simp [Symbol.kind_of_isWord h] at hs
    simp only [run, literal, Symbol.is, hs, hword]
    exact run_unsigned hn hword hword
  | signed hsign hn hinf hnan =>
    refine ⟨_, _, rfl, notNameSign hsign, fun rest ↦ ?_⟩
    exact run_literal_signed hsign (run_unsigned hn hinf hnan)
  | infinity hsign hs =>
    refine ⟨_, _, rfl, notNameSign hsign, fun rest ↦ ?_⟩
    exact run_literal_signed hsign (run_unsigned_infinity hs)
  | nan hsign hs =>
    refine ⟨_, _, rfl, notNameSign hsign, fun rest ↦ ?_⟩
    exact run_literal_signed hsign (run_unsigned_nan hs)

theorem constant_accepts :
    r.Accepts (Other .dot) constant (Constant.map note) (Constant.Derives note) := by
  intro i y t h rest hrest
  cases h with
  | @name _ s u n hs hn =>
    obtain ⟨n, rfl, en⟩ := fullName_accepts note hn rest hrest
    refine ⟨.name n, rfl, bind_ok (run_current _) ?_⟩
    rw [List.cons_append, current_cons, if_pos hs]
    exact bind_ok en rfl
  | @literal _ v t hv =>
    obtain ⟨first, u, rfl, hfirst, ev⟩ := run_literal hv (r := r)
    refine ⟨.literal v ⟨i, i + (first :: u).length⟩, rfl, bind_ok (run_current _) ?_⟩
    rw [List.cons_append, current_cons, if_neg hfirst]
    exact bind_ok (ev rest) (bind_ok rfl rfl)

/-- An integer with or without a sign. -/
theorem run_integer {n : Int} (h : Integer i n t) :
    r.run integer i (t ++ rest) = .ok (n, ⟨i + t.length, rest, r.stop⟩) := by
  cases h with
  | plain h hs =>
    obtain ⟨hn, hfits⟩ := h
    refine bind_ok (run_takeIf_none fun hk ↦ hs (Symbol.is_iff.mp hk)) (bind_ok (run_current _) ?_)
    simp only [List.cons_append, current_cons, hn]
    refine bind_ok run_take ?_
    simp only [Option.isSome_none, Bool.false_eq_true, if_false, hfits, if_true]
    rfl
  | @negative _ minus s n hm hn hfits =>
    show r.run integer i (minus :: s :: rest) = _
    refine bind_ok (run_takeIf (Symbol.is_iff.mpr hm)) (bind_ok (run_current _) ?_)
    simp only [current_cons, hn]
    refine bind_ok run_take ?_
    simp only [Option.isSome_some, hfits, if_true]
    rfl

/-- The number of a field, which the configuration admits. -/
theorem run_fieldNumber {n : Int} (h : FieldNumber Integer r.config i n t) :
    r.run fieldNumber i (t ++ rest) = .ok (n, ⟨i + t.length, rest, r.stop⟩) := by
  obtain ⟨hn, hallowed⟩ := h
  refine bind_ok (run_current _) (bind_ok (run_integer hn) ?_)
  by_cases hneg : n < 0
  · rw [if_pos hneg]
    have hdemand : (demand Config.allowNegative i (.negativeFieldNumber n)).run r.config r.nested
        ⟨i + t.length, rest, r.stop⟩ = .ok ((), ⟨i + t.length, rest, r.stop⟩) := by
      rw [Rule.run, if_pos (hallowed.resolve_left (Int.not_le.mpr hneg))]
    exact bind_ok hdemand rfl
  · rw [if_neg hneg]
    rfl

/-- Behind a number that is all of the range, the word that goes on with it must not stand. -/
abbrev NotTo : Symbol → Prop := fun s => ¬s.isWord "to"

theorem range_accepts : r.Accepts NotTo range id (NumberRange.Derives Integer) := by
  intro i y t h rest hrest
  refine ⟨y, rfl, ?_⟩
  cases h with
  | single hn => exact bind_ok (run_integer hn) (bind_ok (run_takeIf_none hrest) rfl)
  | toMax hn hto hmax =>
    rw [List.append_assoc, List.length_append, ← Nat.add_assoc]
    exact bind_ok (run_integer hn) (bind_ok (run_takeIf hto) (bind_ok (run_takeIf hmax) rfl))
  | @span _ n m s t mid hn hto hm hmax =>
    have hlen : i + (s ++ mid :: t).length = i + s.length + 1 + t.length := by simp; omega
    have hfirst : ¬((t ++ rest).headD r.stop).isWord "max" := by
      cases hm with
      | plain | negative => exact hmax _ rfl
    rw [hlen, List.append_assoc]
    exact bind_ok (run_integer hn) (bind_ok (run_takeIf hto) (bind_ok (run_takeIf_none hfirst)
      (bind_ok (run_integer hm) rfl)))

/-! ## Options -/

theorem settingEntry_accepts :
    r.Accepts (Other .dot) settingEntry (Setting.map note) (Setting.DerivesEntry note) := by
  rintro i _ _ @⟨_, eq, s, t, n, v, hn, heq, hv⟩ rest hrest
  obtain ⟨n, rfl, en⟩ := optionName_accepts note hn (eq :: (t ++ rest)) (other_of_kind heq nofun)
  obtain ⟨v, rfl, ev⟩ := constant_accepts note hv rest hrest
  refine ⟨⟨n, v, ⟨i, _⟩⟩, rfl, ?_⟩
  have hlen : i + (s ++ eq :: t).length = i + s.length + 1 + t.length := by simp; omega
  rw [hlen, List.append_assoc]
  exact bind_ok (run_current _)
    (bind_ok en (bind_ok (run_expect heq) (bind_ok ev (bind_ok rfl rfl))))

theorem bracketedSettings_accepts :
    r.Accepts (Other .leftBracket) bracketedSettings (List.map (Setting.map note))
      (Setting.Bracketed note) := by
  intro i y u h rest hrest
  cases h with
  | none => exact ⟨[], rfl, bind_ok (run_takeIf_none fun hk ↦ hrest (Symbol.is_iff.mp hk)) rfl⟩
  | @some _ l right xs t hl hxs hr =>
    obtain ⟨xs, rfl, exs⟩ := separated_accepts (settingEntry_accepts note)
      (fun _ h ↦ other_of_kind h nofun) hxs (r := r) (right :: rest)
        ⟨other_of_kind hr nofun, other_of_kind hr nofun⟩
    refine ⟨xs, rfl, ?_⟩
    have hlen : i + (l :: (t ++ [right])).length = i + 1 + t.length + 1 := by simp; omega
    rw [hlen, List.cons_append, List.append_assoc]
    exact bind_ok (run_takeIf (Symbol.is_iff.mpr hl)) (bind_ok exs (bind_ok (run_expect hr) rfl))

variable {note} in
/-- The bracketed options and the semicolon behind them begin with a bracket or the semicolon. -/
theorem kind_of_bracketed {options : List (Setting ν)} {semi : Symbol}
    (h : Setting.Bracketed note i options t) (hsemi : semi.kind = .semicolon) (u : List Symbol)
    (stop : Symbol) : ((t ++ semi :: u).headD stop).kind = .leftBracket ∨
      ((t ++ semi :: u).headD stop).kind = .semicolon := by
  cases h with
  | none => exact .inr hsemi
  | some hl => exact .inl hl

theorem settingFrom_accepts :
    r.AcceptsBehind Anything (·.isWord "option") settingFrom (Setting.map note)
      (Setting.Derives note) := by
  rintro i _ _ @⟨_, word, eq, semi, s, t, n, v, hword, hn, heq, hv, hsemi⟩
  refine ⟨word, _, rfl, hword, fun rest _ ↦ ?_⟩
  obtain ⟨n, rfl, en⟩ :=
    optionName_accepts note hn (eq :: (t ++ semi :: rest)) (other_of_kind heq nofun)
  obtain ⟨v, rfl, ev⟩ := constant_accepts note hv (semi :: rest) (other_of_kind hsemi nofun)
  refine ⟨⟨n, v, ⟨i, _⟩⟩, rfl, ?_⟩
  have hlen : i + (word :: (s ++ eq :: (t ++ [semi]))).length =
      i + 1 + s.length + 1 + t.length + 1 := by simp; omega
  rw [hlen, List.append_assoc, List.cons_append, List.append_assoc]
  exact bind_ok en (bind_ok (run_expect heq) (bind_ok ev (bind_ok (run_expect hsemi)
    (bind_ok rfl rfl))))

/-! ## Fields -/

variable {note} in
/-- No dot stands in front of the name of a field, so the type ends there. -/
theorem other_dot_of_numbered {config : Config} {x : String × Int × List (Setting ν)}
    (h : Numbered Integer config note i x t) : Other .dot ((t ++ rest).headD r.stop) := by
  obtain ⟨name, u, rfl, hname⟩ := h.exists_cons
  exact Symbol.kind_ne_of_isName hname nofun nofun

/-- The name, the number and the options of a field are read, and then what comes behind them. -/
theorem run_numbered {name : String} {n : Int} {options : List (Setting ν)}
    (h : Numbered Integer r.config note i (name, n, options) t) (rest : List Symbol)
    (hrest : (rest.headD r.stop).kind ≠ .leftBracket) :
    ∃ options', options'.map (Setting.map note) = options ∧ ∀ {β : Type}
      {next : String → Int → List (Setting Extent) → Rule β},
      r.run (do
        let name ← Grammar.name
        let _ ← expect .equal
        let number ← fieldNumber
        let options ← bracketedSettings
        next name number options) i (t ++ rest) =
      r.run (next name n options') (i + t.length) rest := by
  obtain @⟨_, name, eq, n, options, s, t, hname, heq, hn, ho⟩ := h
  obtain ⟨options, rfl, eo⟩ := bracketedSettings_accepts note ho rest hrest
  refine ⟨options, rfl, fun {β next} ↦ ?_⟩
  have hlen : i + (name :: eq :: (s ++ t)).length = i + 2 + s.length + t.length := by simp; omega
  rw [hlen, List.cons_append, List.cons_append, List.append_assoc]
  exact (run_bind_of_ok (run_name hname)).trans ((run_bind_of_ok (run_expect heq)).trans
    ((run_bind_of_ok (run_fieldNumber hn)).trans (run_bind_of_ok eo)))

theorem isWord_of_labelOf? {label : Label} (h : labelOf? s = some label) :
    s.isWord label.word := by
  obtain ⟨hk, hl⟩ := Option.ite_none_right_eq_some.mp h
  refine Symbol.isWord_iff.mpr ⟨Symbol.is_iff.mp hk, ?_⟩
  simp only [Label.ofWord?] at hl
  split at hl
  · cases hl; assumption
  · split at hl
    · cases hl; assumption
    · split at hl
      · cases hl; assumption
      · cases hl

theorem startsType_of_isWord {word : String} (h : s.isWord word) : startsType s :=
  startsType_of_isName (Symbol.isName_of_kind (Symbol.kind_of_isWord h))

theorem fieldFrom_accepts :
    r.AcceptsBehind Anything (fun s ↦ startsType s) fieldFrom (Field.map note)
      (Field.Derives r.config note) := by
  intro i y u h
  cases h with
  | @labelled _ l semi label type name n options s t hl htype hn hsemi =>
    refine ⟨l, _, rfl, startsType_of_isWord (isWord_of_labelOf? hl), fun rest _ ↦ ?_⟩
    obtain ⟨type, rfl, etype⟩ := typeRef_accepts note htype (t ++ semi :: rest)
      (other_dot_of_numbered hn)
    obtain ⟨options, rfl, enumbered⟩ :=
      run_numbered note hn (semi :: rest) (other_of_kind hsemi nofun)
    refine ⟨⟨some label, some type, name, n, options, ⟨i, _⟩⟩, rfl, ?_⟩
    have hlen : i + (l :: (s ++ (t ++ [semi]))).length = i + 1 + s.length + t.length + 1 := by
      simp
      omega
    rw [hlen, List.append_assoc, List.append_assoc]
    simp only [run, fieldFrom, hl, Option.isSome_some, if_true]
    exact bind_ok etype (enumbered.trans (bind_ok (run_expect hsemi) (bind_ok rfl rfl)))
  | @plain _ first semi type name n options s t hl htype hn hsemi =>
    obtain ⟨hfirst, hrun⟩ := (typeRefFrom_accepts note (r := r)).of_cons htype
    refine ⟨first, _, rfl, hfirst, fun rest _ ↦ ?_⟩
    obtain ⟨type, rfl, etype⟩ := hrun (t ++ semi :: rest) (other_dot_of_numbered hn)
    obtain ⟨options, rfl, enumbered⟩ :=
      run_numbered note hn (semi :: rest) (other_of_kind hsemi nofun)
    refine ⟨⟨none, some type, name, n, options, ⟨i, _⟩⟩, rfl, ?_⟩
    have hlen : i + (first :: (s ++ (t ++ [semi]))).length = i + 1 + s.length + t.length + 1 := by
      simp
      omega
    have hlen' : i + (first :: s).length = i + 1 + s.length := by simp; omega
    rw [hlen'] at etype
    rw [hlen, List.append_assoc, List.append_assoc]
    simp only [run, fieldFrom, hl, Option.isSome_none, Bool.false_eq_true, if_false]
    exact bind_ok etype (enumbered.trans (bind_ok (run_expect hsemi) (bind_ok rfl rfl)))

theorem mapFieldFrom_accepts :
    r.AcceptsBehind Anything (·.isWord "map") mapFieldFrom (MapField.map note)
      (MapField.Derives Integer r.config note) := by
  rintro i _ _ @⟨_, word, less, key, comma, greater, semi, type, name, n, options, s, t, hword,
    hless, hkey, hcomma, htype, hgreater, hn, hsemi⟩
  refine ⟨word, _, rfl, hword, fun rest _ ↦ ?_⟩
  obtain ⟨type, rfl, etype⟩ := typeRef_accepts note htype (greater :: (t ++ semi :: rest))
    (other_of_kind hgreater nofun)
  obtain ⟨options, rfl, enumbered⟩ :=
    run_numbered note hn (semi :: rest) (other_of_kind hsemi nofun)
  refine ⟨⟨key.lexeme, type, name, n, options, ⟨i, _⟩⟩, rfl, ?_⟩
  have hlen : i + (word :: less :: key :: comma :: (s ++ greater :: (t ++ [semi]))).length =
      i + 4 + s.length + 1 + t.length + 1 := by simp; omega
  rw [hlen, List.cons_append, List.cons_append, List.cons_append, List.append_assoc,
    List.cons_append, List.append_assoc]
  exact bind_ok (run_expect hless) (bind_ok (run_expect hkey) (bind_ok (run_expect hcomma)
    (bind_ok etype (bind_ok (run_expect hgreater) (enumbered.trans (bind_ok (run_expect hsemi)
      (bind_ok rfl rfl)))))))

theorem enumValueFrom_accepts :
    r.AcceptsBehind Anything (fun s ↦ s.isName) enumValueFrom (Field.map note)
      (Field.DerivesValue note) := by
  rintro i _ _ @⟨_, name, eq, semi, n, options, s, t, hname, heq, hn, ho, hsemi⟩
  refine ⟨name, _, rfl, hname, fun rest _ ↦ ?_⟩
  obtain ⟨options, rfl, eo⟩ := bracketedSettings_accepts note ho (semi :: rest)
    (other_of_kind hsemi nofun)
  refine ⟨⟨none, none, name.lexeme, n, options, ⟨i, _⟩⟩, rfl, ?_⟩
  have hlen : i + (name :: eq :: (s ++ (t ++ [semi]))).length =
      i + 2 + s.length + t.length + 1 := by simp; omega
  rw [hlen, List.cons_append, List.append_assoc, List.append_assoc]
  exact bind_ok (run_expect heq) (bind_ok (run_integer hn) (bind_ok eo (bind_ok (run_expect hsemi)
    (bind_ok rfl rfl))))

/-! ## Statements of a message body -/

/-- Ranges with commas between them. -/
theorem range_separated_accepts :
    r.Accepts (fun s ↦ s.kind ≠ .comma ∧ ¬s.isWord "to") (separated range) id
      (Separated (NumberRange.Derives Integer)) := by
  rw [← List.map_id_fun]
  refine separated_accepts range_accepts fun s hcomma hto ↦ ?_
  exact nomatch hcomma.symm.trans (Symbol.kind_of_isWord hto)

theorem extensionsFrom_accepts :
    r.AcceptsBehind Anything (·.isWord "extensions") extensionsFrom (Extensions.map note)
      (Extensions.Derives Integer note) := by
  rintro i _ _ @⟨_, word, semi, ranges, options, s, t, hword, hr, ho, hsemi⟩
  refine ⟨word, _, rfl, hword, fun rest _ ↦ ?_⟩
  have hbehind : ((t ++ semi :: rest).headD r.stop).kind ≠ .comma ∧
      ¬((t ++ semi :: rest).headD r.stop).isWord "to" := by
    rcases kind_of_bracketed ho hsemi rest r.stop with hk | hk
    all_goals
      exact ⟨other_of_kind hk nofun, fun hto ↦ nomatch hk.symm.trans (Symbol.kind_of_isWord hto)⟩
  obtain ⟨_, rfl, er⟩ := range_separated_accepts hr _ hbehind
  obtain ⟨options, rfl, eo⟩ := bracketedSettings_accepts note ho (semi :: rest)
    (other_of_kind hsemi nofun)
  refine ⟨⟨_, options, ⟨i, _⟩⟩, rfl, ?_⟩
  have hlen : i + (word :: (s ++ (t ++ [semi]))).length = i + 1 + s.length + t.length + 1 := by
    simp
    omega
  rw [hlen, List.append_assoc, List.append_assoc]
  exact bind_ok er (bind_ok eo (bind_ok (run_expect hsemi) (bind_ok rfl rfl)))

theorem run_reservedItems {items : ReservedItems} (h : items.Derives Integer i t) {semi : Symbol}
    (hsemi : semi.kind = .semicolon) :
    r.run reservedItems i (t ++ semi :: rest) =
      .ok (items, ⟨i + t.length, semi :: rest, r.stop⟩) := by
  cases h with
  | names h =>
    have htext : (t ++ semi :: rest).headD r.stop |>.is .string := by
      obtain ⟨⟨hs, -⟩, -⟩ := h
      exact Symbol.is_iff.mpr hs
    obtain ⟨names, rfl, enames⟩ := separated_accepts (stringText_accepts (r := r))
      (fun _ _ ↦ trivial) h (semi :: rest) ⟨by simp [hsemi], trivial⟩
    refine bind_ok (run_current _) ?_
    rw [Cursor.current, if_pos htext, List.map_id]
    exact bind_ok enames rfl
  | ranges h hs =>
    have htext : ¬((t ++ semi :: rest).headD r.stop |>.is .string) := by
      cases t with
      | nil => simp [Symbol.is, hsemi]
      | cons first t => exact fun hk ↦ hs first rfl (Symbol.is_iff.mp hk)
    have hto : ¬semi.isWord "to" := fun h ↦ by simp [Symbol.kind_of_isWord h] at hsemi
    obtain ⟨_, rfl, eranges⟩ := range_separated_accepts h (r := r) (semi :: rest)
      ⟨by simp [hsemi], hto⟩
    refine bind_ok (run_current _) ?_
    rw [Cursor.current, if_neg htext]
    exact bind_ok eranges rfl

theorem reservedFrom_accepts :
    r.AcceptsBehind Anything (·.isWord "reserved") reservedFrom (Reserved.map note)
      (Reserved.Derives Integer note) := by
  rintro i _ _ @⟨_, word, semi, items, s, hword, hitems, hsemi⟩
  refine ⟨word, _, rfl, hword, fun rest _ ↦ ⟨⟨items, ⟨i, _⟩⟩, rfl, ?_⟩⟩
  have hlen : i + (word :: (s ++ [semi])).length = i + 1 + s.length + 1 := by simp; omega
  rw [hlen, List.append_assoc]
  exact bind_ok (run_reservedItems hitems hsemi) (bind_ok (run_expect hsemi) (bind_ok rfl rfl))

end Reader

end ProtoSchema
