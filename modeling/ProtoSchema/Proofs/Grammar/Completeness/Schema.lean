import ProtoSchema.Proofs.Grammar.Completeness.Statement
import ProtoSchema.Proofs.Grammar.Soundness.Schema

/-!
# The rules for schemas read whatever the grammar says

From blocks up to whole files.  A body decides by the first two symbols of a statement what it is,
and the phrases of the grammar have conditions on them where two statements could begin alike; so
the rule that the body picks is the one for the phrase.

## What is here

* `Reader.run_oneOfItem_setting` to `Reader.run_enumItem_value` — the rule for an item of a oneof or
  an enum, once its first two symbols are known.
* `Reader.oneOfFrom_accepts`, `Reader.enumFrom_accepts` — oneofs and enums.
* `Reader.messageFrom_accepts`, `Reader.fieldOrGroupFrom_accepts_group`, `Reader.extendFrom_accepts`
  — blocks, if the reader reads their bodies.
* `Reader.run_memberFrom`, `Reader.member_accepts` — the members of a message, by the rule that is
  chosen for the first two symbols.
* `Reader.readBody_accepts` — bodies, by induction on the depth.
* `Reader.rpcFrom_accepts`, `Reader.serviceFrom_accepts` — services.
* `Reader.directive_accepts`, `Reader.directiveFrom_accepts` — the statements of a file.
* `Reader.schema_accepts` — a file.
-/

set_option autoImplicit false

namespace ProtoSchema

open Grammar Rule Phrase

namespace Reader

variable {ν : Type} (note : Extent → ν) {r : Reader} {i : Nat} {s first next : Symbol}
  {rest t : List Symbol}

/-- What begins a type neither stands alone as a statement nor ends a body. -/
theorem other_of_startsType (s : Symbol) (h : startsType s) :
    s.kind ≠ .semicolon ∧ s.kind ≠ .rightBrace := by
  rcases kind_of_startsType h with h | h | h <;> simp [h]

/-! ## Oneofs and enums -/

variable {note} in
/-- Behind the word of an option stands neither a dot nor an equals sign. -/
theorem Setting.Derives.exists_cons_cons {x : Setting ν} (h : x.Derives note i t) :
    ∃ word next u, t = word :: next :: u ∧ next.kind ≠ .dot ∧ next.kind ≠ .equal := by
  obtain ⟨-, hn, -⟩ := h
  obtain ⟨next, u, rfl, hnext | hnext⟩ := hn.exists_cons
  · exact ⟨_, next, _, rfl, Symbol.kind_ne_of_isName hnext nofun nofun,
      Symbol.kind_ne_of_isName hnext nofun nofun⟩
  · exact ⟨_, next, _, rfl, other_of_kind hnext nofun, other_of_kind hnext nofun⟩

/-! Which rule runs for a statement of a oneof or an enum, by its first two symbols. -/

/-- The word `option` with no dot behind it. -/
theorem run_oneOfItem_setting (hfirst : first.isWord "option") (hdot : next.kind ≠ .dot) :
    r.run (oneOfItem ⟨i, first⟩) (i + 1) (next :: rest) =
      r.run (do let s ← settingFrom ⟨i, first⟩; return .setting s) (i + 1) (next :: rest) := by
  refine (run_bind_of_ok (run_current _)).trans ?_
  rw [current_cons, if_pos (by simp [hfirst, Symbol.is_eq_false_iff.mpr hdot])]

/-- Any other beginning of a type. -/
theorem run_oneOfItem_field (hfirst : first.isWord "option" → next.kind = .dot) :
    r.run (oneOfItem ⟨i, first⟩) (i + 1) (next :: rest) =
      r.run (do let f ← fieldFrom ⟨i, first⟩; return .field f) (i + 1) (next :: rest) := by
  have hfield : ¬(first.isWord "option" && !next.is .dot) := by
    rw [Bool.and_eq_true, not_and]
    exact fun hword ↦ by simp [Symbol.is_iff.mpr (hfirst hword)]
  refine (run_bind_of_ok (run_current _)).trans ?_
  rw [current_cons, if_neg hfield]

/-- The word `option` with no equals sign behind it. -/
theorem run_enumItem_setting (hfirst : first.isWord "option") (hequal : next.kind ≠ .equal) :
    r.run (enumItem ⟨i, first⟩) (i + 1) (next :: rest) =
      r.run (do let s ← settingFrom ⟨i, first⟩; return .setting s) (i + 1) (next :: rest) := by
  refine (run_bind_of_ok (run_current _)).trans ?_
  rw [current_cons, if_pos (by simp [hfirst, Symbol.is_eq_false_iff.mpr hequal])]

/-- The word `reserved` with no equals sign behind it. -/
theorem run_enumItem_reserved (hfirst : first.isWord "reserved") (hequal : next.kind ≠ .equal) :
    r.run (enumItem ⟨i, first⟩) (i + 1) (next :: rest) =
      r.run (do let x ← reservedFrom ⟨i, first⟩; return .reserved x) (i + 1) (next :: rest) := by
  refine (run_bind_of_ok (run_current _)).trans ?_
  rw [current_cons, if_neg (by simp [Symbol.isWord_eq hfirst]),
    if_pos (by simp [hfirst, Symbol.is_eq_false_iff.mpr hequal])]

/-- Any name with an equals sign behind it. -/
theorem run_enumItem_value (hequal : next.kind = .equal) :
    r.run (enumItem ⟨i, first⟩) (i + 1) (next :: rest) =
      r.run (do let v ← enumValueFrom ⟨i, first⟩; return .value v) (i + 1) (next :: rest) := by
  have hequal := Symbol.is_iff.mpr hequal
  refine (run_bind_of_ok (run_current _)).trans ?_
  rw [current_cons, if_neg (by simp [hequal]), if_neg (by simp [hequal])]

theorem oneOfItem_accepts :
    r.AcceptsBehind Anything (fun s ↦ startsType s) oneOfItem (OneOfItem.map note)
      (OneOfItem.Derives r.config note) := by
  intro i y u h
  cases h with
  | setting hx =>
    obtain ⟨word, next, t, rfl, hdot, -⟩ := Setting.Derives.exists_cons_cons hx
    obtain ⟨hword, hrun⟩ := (settingFrom_accepts note (r := r)).of_cons hx
    refine ⟨word, _, rfl, startsType_of_isWord hword, fun rest hrest ↦ ?_⟩
    obtain ⟨x, rfl, ex⟩ := hrun rest hrest
    exact ⟨.setting x, rfl, (run_oneOfItem_setting hword hdot).trans (bind_ok ex rfl)⟩
  | @field _ x first next t hx hfirst =>
    obtain ⟨hstarts, hrun⟩ := (fieldFrom_accepts note (r := r)).of_cons hx
    refine ⟨first, _, rfl, hstarts, fun rest hrest ↦ ?_⟩
    obtain ⟨x, rfl, ex⟩ := hrun rest hrest
    exact ⟨.field x, rfl, (run_oneOfItem_field hfirst).trans (bind_ok ex rfl)⟩

theorem oneOfFrom_accepts :
    r.AcceptsBehind Anything (·.isWord "oneof") oneOfFrom (OneOf.map note)
      (OneOf.Derives r.config note) := by
  rintro i _ _ @⟨_, word, name, items, s, hword, hname, hitems⟩
  refine ⟨word, _, rfl, hword, fun rest hrest ↦ ?_⟩
  obtain ⟨items, rfl, eitems⟩ :=
    block_accepts .oneOfItem (oneOfItem_accepts note) other_of_startsType hitems rest hrest
  refine ⟨⟨name.lexeme, items.filterMap OneOfItem.setting?, items.filterMap OneOfItem.field?,
    ⟨i, i + (word :: name :: s).length⟩⟩, ?_, ?_⟩
  · rw [filterMap_map_comm OneOfItem.setting? (Setting.map note) (fun a ↦ by cases a <;> rfl),
      filterMap_map_comm OneOfItem.field? (Field.map note) (fun a ↦ by cases a <;> rfl)]
    rfl
  · have hlen : i + (word :: name :: s).length = i + 2 + s.length := by simp; omega
    rw [hlen]
    exact bind_ok (run_name hname) (bind_ok eitems (bind_ok rfl rfl))

theorem enumItem_accepts :
    r.AcceptsBehind Anything (fun s ↦ s.isName) enumItem (EnumItem.map note)
      (EnumItem.Derives Integer note) := by
  intro i y u h
  have isName_of_isWord {s : Symbol} {word : String} (h : s.isWord word) : s.isName :=
    Symbol.isName_of_kind (Symbol.kind_of_isWord h)
  cases h with
  | setting hx =>
    obtain ⟨word, next, t, rfl, -, hequal⟩ := Setting.Derives.exists_cons_cons hx
    obtain ⟨hword, hrun⟩ := (settingFrom_accepts note (r := r)).of_cons hx
    refine ⟨word, _, rfl, isName_of_isWord hword, fun rest hrest ↦ ?_⟩
    obtain ⟨x, rfl, ex⟩ := hrun rest hrest
    exact ⟨.setting x, rfl, (run_enumItem_setting hword hequal).trans (bind_ok ex rfl)⟩
  | @reserved _ x word next t hx hequal =>
    obtain ⟨hword, hrun⟩ := (reservedFrom_accepts note (r := r)).of_cons hx
    refine ⟨word, _, rfl, isName_of_isWord hword, fun rest hrest ↦ ?_⟩
    obtain ⟨x, rfl, ex⟩ := hrun rest hrest
    exact ⟨.reserved x, rfl, (run_enumItem_reserved hword hequal).trans (bind_ok ex rfl)⟩
  | value hx =>
    obtain ⟨name, t, rfl, hname, hrun⟩ := enumValueFrom_accepts note (r := r) hx
    obtain ⟨next, u, rfl, hequal⟩ : ∃ next u, t = next :: u ∧ next.kind = .equal := by
      generalize hs : name :: t = s at hx
      obtain ⟨-, heq, -⟩ := hx
      obtain ⟨-, rfl⟩ := List.cons.inj hs
      exact ⟨_, _, rfl, heq⟩
    refine ⟨name, _, rfl, hname, fun rest hrest ↦ ?_⟩
    obtain ⟨x, rfl, ex⟩ := hrun rest hrest
    exact ⟨.value x, rfl, (run_enumItem_value hequal).trans (bind_ok ex rfl)⟩

theorem enumFrom_accepts :
    r.AcceptsBehind Anything (·.isWord "enum") enumFrom (EnumType.map note)
      (EnumType.Derives Integer note) := by
  rintro i _ _ @⟨_, word, name, items, s, hword, hname, hitems⟩
  refine ⟨word, _, rfl, hword, fun rest hrest ↦ ?_⟩
  obtain ⟨items, rfl, eitems⟩ := block_accepts .enumItem (enumItem_accepts note)
    (fun s hs ↦ ⟨Symbol.kind_ne_of_isName hs nofun nofun, Symbol.kind_ne_of_isName hs nofun nofun⟩)
    hitems rest hrest
  refine ⟨⟨name.lexeme, items.filterMap EnumItem.setting?, items.filterMap EnumItem.value?,
    items.filterMap EnumItem.reserved?, ⟨i, i + (word :: name :: s).length⟩⟩, ?_, ?_⟩
  · rw [filterMap_map_comm EnumItem.setting? (Setting.map note) (fun a ↦ by cases a <;> rfl),
      filterMap_map_comm EnumItem.value? (Field.map note) (fun a ↦ by cases a <;> rfl),
      filterMap_map_comm EnumItem.reserved? (Reserved.map note) (fun a ↦ by cases a <;> rfl)]
    rfl
  · have hlen : i + (word :: name :: s).length = i + 2 + s.length := by simp; omega
    rw [hlen]
    exact bind_ok (run_name hname) (bind_ok eitems (bind_ok rfl rfl))

/-! ## Blocks -/

section Blocks

variable {inner : Body → Phrase (List (Member ν))}
  (hinner : ∀ b, r.Accepts Anything (Rule.nested b) (List.map (Member.map note)) (inner b))
  (hleft : ∀ {b i xs s}, inner b i xs s → ∃ l t, s = l :: t ∧ l.kind = .leftBrace)

include hinner in
theorem messageFrom_accepts :
    r.AcceptsBehind Anything (·.isWord "message") messageFrom (Member.map note)
      (Member.DerivesMessage note inner) := by
  rintro i _ _ @⟨_, word, name, xs, s, hword, hname, hbody⟩
  refine ⟨word, _, rfl, hword, fun rest hrest ↦ ?_⟩
  obtain ⟨xs, rfl, exs⟩ := hinner _ hbody rest hrest
  refine ⟨.block (.message name.lexeme) xs ⟨i, i + (word :: name :: s).length⟩, ?_, ?_⟩
  · rw [Member.map, Member.mapAll_eq_map]
    rfl
  · have hlen : i + (word :: name :: s).length = i + 2 + s.length := by simp; omega
    rw [hlen]
    exact bind_ok (run_name hname) (bind_ok exs (bind_ok rfl rfl))

include hinner hleft

theorem fieldOrGroupFrom_accepts_group :
    r.AcceptsBehind Anything (fun s ↦ ∃ label : Label, s.isWord label.word) fieldOrGroupFrom
      (Member.map note) (Member.DerivesGroup Integer r.config note inner) := by
  rintro i _ _ @⟨_, l, word, label, name, n, options, xs, s, t, hl, hword, hn, hbody⟩
  refine ⟨l, _, rfl, ⟨label, isWord_of_labelOf? hl⟩, fun rest hrest ↦ ?_⟩
  obtain ⟨brace, u, rfl, hbrace⟩ := hleft hbody
  obtain ⟨xs, rfl, exs⟩ := hinner _ hbody rest hrest
  obtain ⟨options, rfl, enumbered⟩ :=
    run_numbered note hn (brace :: u ++ rest) (other_of_kind hbrace nofun)
  refine ⟨.block (.group label name n options) xs
    ⟨i, i + (l :: word :: (s ++ brace :: u)).length⟩, ?_, bind_ok (run_current _) ?_⟩
  · rw [Member.map, Member.mapAll_eq_map]
    rfl
  · have hlen : i + (l :: word :: (s ++ brace :: u)).length =
        i + 2 + s.length + (brace :: u).length := by simp; omega
    rw [hlen, List.cons_append, List.append_assoc]
    simp only [current_cons, hword, if_true, hl]
    exact bind_ok (run_expectWord hword) (enumbered.trans (bind_ok exs (bind_ok rfl rfl)))

theorem extendFrom_accepts :
    r.AcceptsBehind Anything (·.isWord "extend") extendFrom (Member.map note)
      (Member.DerivesExtend note inner) := by
  rintro i _ _ @⟨_, word, type, xs, s, t, hword, htype, hbody⟩
  refine ⟨word, _, rfl, hword, fun rest hrest ↦ ?_⟩
  obtain ⟨brace, u, rfl, hbrace⟩ := hleft hbody
  obtain ⟨xs, rfl, exs⟩ := hinner _ hbody rest hrest
  obtain ⟨type, rfl, etype⟩ :=
    typeRef_accepts note htype (brace :: u ++ rest) (other_of_kind hbrace nofun)
  refine ⟨.block (.extend type) xs ⟨i, i + (word :: (s ++ brace :: u)).length⟩, ?_, ?_⟩
  · rw [Member.map, Member.mapAll_eq_map]
    rfl
  · have hlen : i + (word :: (s ++ brace :: u)).length =
        i + 1 + s.length + (brace :: u).length := by
      simp
      omega
    rw [hlen, List.append_assoc]
    exact bind_ok etype (bind_ok exs (bind_ok rfl rfl))

omit hinner hleft

/-- A field that does not begin like a group. -/
theorem run_fieldOrGroupFrom (hgroup : ¬startsGroup first next) :
    r.run (fieldOrGroupFrom ⟨i, first⟩) (i + 1) (next :: rest) =
      r.run (do let f ← fieldFrom ⟨i, first⟩; return .field f) (i + 1) (next :: rest) := by
  have hlabel : (if next.isWord "group" then labelOf? first else none) = none := by
    split
    · rename_i hword
      simpa [startsGroup, hword] using hgroup
    · rfl
  refine (run_bind_of_ok (run_current _)).trans ?_
  rw [current_cons]
  simp only [hlabel]

/-- The rule that is chosen runs. -/
theorem run_memberFrom {rule : Rule (Member Extent)} (h : MemberRule ⟨i, first⟩ next rule) :
    r.run (memberFrom ⟨i, first⟩) (i + 1) (next :: rest) = r.run rule (i + 1) (next :: rest) := by
  obtain ⟨choice, hchoice, hrule⟩ := memberFrom_eq_bind ⟨i, first⟩
  rw [hchoice]
  refine (run_bind_of_ok (run_current _)).trans ?_
  rw [current_cons, (hrule ⟨i + 1, next⟩ rule).mp h]

theorem run_memberFrom_field (hnext : startsType next) (hb : Body.message.readsField first next) :
    r.run (memberFrom ⟨i, first⟩) (i + 1) (next :: rest) =
      r.run (do let f ← fieldFrom ⟨i, first⟩; return .field f) (i + 1) (next :: rest) := by
  by_cases hdot : next.is .dot
  · exact run_memberFrom (.field (Symbol.is_iff.mp hdot))
  · simp only [Body.readsField, hdot, Bool.false_or, Bool.and_eq_true, Bool.not_eq_true'] at hb
    have hwords : ∀ w ∈ statementWords, ¬first.isWord w := by
      intro w hw hfirst
      obtain ⟨hk, rfl⟩ := Symbol.isWord_iff.mp hfirst
      simp [Symbol.is_iff.mpr hk, hw] at hb
    have hless : next.kind ≠ .less := by
      rcases kind_of_startsType hnext with h | h | h <;> simp [h]
    have hrule : MemberRule ⟨i, first⟩ next _ :=
      .fieldOrGroup hwords (fun hk ↦ hdot (Symbol.is_iff.mpr hk)) fun _ ↦ hless
    exact (run_memberFrom hrule).trans (run_fieldOrGroupFrom (by simp [hb.2]))

/-- A statement that its word tells, and the rule for it. -/
theorem member_accepts {word next : Symbol} {w : String} {y : Member ν}
    {rule : Rule (Member Extent)} (hword : word.isWord w)
    (hrun : ∀ rest, Anything (rest.headD r.stop) → ∃ x : Member Extent, x.map note = y ∧
      r.run rule (i + 1) (next :: t ++ rest) =
        .ok (x, ⟨i + (word :: next :: t).length, rest, r.stop⟩))
    (hrule : MemberRule ⟨i, word⟩ next rule) :
    ∃ first u, word :: next :: t = first :: u ∧ startsType first ∧
      ∀ rest, Anything (rest.headD r.stop) → ∃ x : Member Extent, x.map note = y ∧
        r.run (memberFrom ⟨i, first⟩) (i + 1) (u ++ rest) =
          .ok (x, ⟨i + (word :: next :: t).length, rest, r.stop⟩) := by
  refine ⟨word, next :: t, rfl, startsType_of_isWord hword, fun rest hrest ↦ ?_⟩
  obtain ⟨x, hx, ex⟩ := hrun rest hrest
  exact ⟨x, hx, (run_memberFrom hrule).trans ex⟩

include hinner hleft

/-- The members of a message. -/
theorem memberFrom_accepts :
    r.AcceptsBehind Anything (fun s ↦ startsType s) memberFrom (Member.map note)
      (Member.Derives Integer r.config note inner .message) := by
  intro i y u h
  cases h with
  | @field _ _ x first next t hx hb =>
    obtain ⟨hfirst, hrun⟩ := (fieldFrom_accepts note (r := r)).of_cons hx
    refine ⟨first, _, rfl, hfirst, fun rest hrest ↦ ?_⟩
    obtain ⟨x, rfl, ex⟩ := hrun rest hrest
    exact ⟨.field x, rfl, (run_memberFrom_field hx.startsType_next hb).trans (bind_ok ex rfl)⟩
  | group hx =>
    obtain ⟨hl, hword, hn, hbody⟩ := hx
    obtain ⟨⟨label, hl⟩, hrun⟩ := (fieldOrGroupFrom_accepts_group note hinner hleft).of_cons
      (.mk hl hword hn hbody)
    exact member_accepts note hl hrun (.group hl hword)
  | message hx =>
    obtain ⟨hword, hname, hbody⟩ := hx
    obtain ⟨-, hrun⟩ := (messageFrom_accepts note hinner).of_cons (.mk hword hname hbody)
    exact member_accepts note hword hrun (.message hword (kind_ne_dot_of_isName hname))
  | enumType hx =>
    obtain ⟨hword, hname, hitems⟩ := hx
    obtain ⟨-, hrun⟩ := (enumFrom_accepts note (r := r)).returning (g := .enumType)
      (k := Member.map note) (l := .enumType) (fun _ ↦ rfl) (.mk hword hname hitems)
    exact member_accepts note hword hrun (.enumType hword (kind_ne_dot_of_isName hname))
  | extend hx hdot =>
    obtain ⟨hword, hrun⟩ := (extendFrom_accepts note hinner hleft).of_cons hx
    exact member_accepts note hword hrun (.extend hword hdot)
  | extensions hx hdot =>
    obtain ⟨hword, hrun⟩ := (extensionsFrom_accepts note (r := r)).returning (g := .extensions)
      (k := Member.map note) (l := .extensions) (fun _ ↦ rfl) hx
    exact member_accepts note hword hrun (.extensions hword hdot)
  | setting hx =>
    obtain ⟨word, next, t, rfl, hdot, -⟩ := Setting.Derives.exists_cons_cons hx
    obtain ⟨hword, hrun⟩ := (settingFrom_accepts note (r := r)).returning (g := .setting)
      (k := Member.map note) (l := .setting) (fun _ ↦ rfl) hx
    exact member_accepts note hword hrun (.setting hword hdot)
  | oneOf hx =>
    obtain ⟨hword, hname, hitems⟩ := hx
    obtain ⟨-, hrun⟩ := (oneOfFrom_accepts note (r := r)).returning (g := .oneOf)
      (k := Member.map note) (l := .oneOf) (fun _ ↦ rfl) (.mk hword hname hitems)
    exact member_accepts note hword hrun (.oneOf hword (kind_ne_dot_of_isName hname))
  | reserved hx hdot =>
    obtain ⟨hword, hrun⟩ := (reservedFrom_accepts note (r := r)).returning (g := .reserved)
      (k := Member.map note) (l := .reserved) (fun _ ↦ rfl) hx
    exact member_accepts note hword hrun (.reserved hword hdot)
  | mapField hx =>
    obtain ⟨hword, hless, hkey, hcomma, htype, hgreater, hn, hsemi⟩ := hx
    obtain ⟨-, hrun⟩ := (mapFieldFrom_accepts note (r := r)).returning (g := .mapField)
      (k := Member.map note) (l := .mapField) (fun _ ↦ rfl)
      (.mk hword hless hkey hcomma htype hgreater hn hsemi)
    exact member_accepts note hword hrun (.mapField hword hless)

/-- The members of a group or an extension. -/
theorem fieldOrGroupFrom_accepts :
    r.AcceptsBehind Anything (fun s ↦ startsType s) fieldOrGroupFrom (Member.map note)
      (Member.Derives Integer r.config note inner .extension) := by
  intro i y u h
  cases h with
  | @field _ _ x first next t hx hb =>
    obtain ⟨hfirst, hrun⟩ := (fieldFrom_accepts note (r := r)).of_cons hx
    refine ⟨first, _, rfl, hfirst, fun rest hrest ↦ ?_⟩
    obtain ⟨x, rfl, ex⟩ := hrun rest hrest
    exact ⟨.field x, rfl,
      (run_fieldOrGroupFrom (by simpa [Body.readsField] using hb)).trans (bind_ok ex rfl)⟩
  | group hx =>
    obtain ⟨l, t, rfl, ⟨label, hl⟩, hrun⟩ := fieldOrGroupFrom_accepts_group note hinner hleft hx
    exact ⟨l, t, rfl, startsType_of_isWord hl, hrun⟩

end Blocks

/-- The rules read the bodies of blocks as deep as they are derived. -/
theorem readBody_accepts (config : Config) {stop : Symbol} (hstop : stop.kind = .eof) (depth : Nat)
    (b : Body) :
    Accepts ⟨config, readBody config depth, stop, hstop⟩ Anything (Rule.nested b)
      (List.map (Member.map note)) (Body.Derives Integer config note depth b) := by
  induction depth generalizing b with
  | zero => exact fun _ _ _ h ↦ h.elim
  | succ depth ih =>
    intro i y s h rest hrest
    let r : Reader := ⟨config, readBody config depth, stop, hstop⟩
    have hleft {b : Body} {i : Nat} {xs : List (Member ν)} {s : List Symbol}
        (h : Body.Derives Integer config note depth b i xs s) := h.exists_cons
    cases b with
    | message =>
      exact block_accepts (r := r) .member (memberFrom_accepts note ih hleft) other_of_startsType h
        rest hrest
    | extension =>
      exact block_accepts (r := r) .extendItem (fieldOrGroupFrom_accepts note ih hleft)
        other_of_startsType h rest hrest

/-! ## Services -/

theorem endpoint_accepts :
    r.Accepts Anything endpoint (Prod.map id (TypeRef.map note)) (Rpc.Endpoint note) := by
  intro i y u h rest _
  cases h with
  | @plain _ l first right type t hl htype hfirst hr =>
    have hlen : i + (l :: first :: (t ++ [right])).length = i + 1 + (first :: t).length + 1 := by
      simp
      omega
    rw [hlen, List.cons_append, List.cons_append, List.append_assoc]
    by_cases hstream : first.isWord "stream"
    · obtain rfl := hfirst hstream
      obtain ⟨hstarts, hrun⟩ := (typeRefFrom_accepts note (r := r)).of_cons htype
      obtain ⟨type, rfl, etype⟩ := hrun (right :: rest) (other_of_kind hr nofun)
      refine ⟨(false, type), rfl, bind_ok (run_expect hl) (bind_ok (run_current _) ?_)⟩
      rw [current_cons, if_pos hstream]
      refine bind_ok run_take (bind_ok (run_current _) ?_)
      rw [List.nil_append, List.singleton_append, current_cons, if_pos (Symbol.is_iff.mpr hr)]
      exact bind_ok etype (bind_ok (run_expect hr) rfl)
    · obtain ⟨type, rfl, etype⟩ :=
        typeRef_accepts note htype (right :: rest) (other_of_kind hr nofun)
      refine ⟨(false, type), rfl, bind_ok (run_expect hl) (bind_ok (run_current _) ?_)⟩
      rw [current_cons, if_neg hstream]
      exact bind_ok etype (bind_ok (run_expect hr) rfl)
  | @stream _ l word right type t hl hword htype hr =>
    obtain ⟨next, v, rfl, hnext⟩ := htype.exists_cons
    have hparen : ¬next.is .rightParen := by
      rcases kind_of_startsType hnext with h | h | h <;> simp [Symbol.is, h]
    have hlen : i + (l :: word :: (next :: v ++ [right])).length =
        i + 2 + (next :: v).length + 1 := by
      simp
      omega
    obtain ⟨type, rfl, etype⟩ := typeRef_accepts note htype (right :: rest) (other_of_kind hr nofun)
    rw [hlen, List.cons_append, List.cons_append, List.append_assoc]
    refine ⟨(true, type), rfl, bind_ok (run_expect hl) (bind_ok (run_current _) ?_)⟩
    rw [current_cons, if_pos hword]
    refine bind_ok run_take (bind_ok (run_current _) ?_)
    rw [List.cons_append, current_cons, if_neg hparen]
    exact bind_ok etype (bind_ok (run_expect hr) rfl)

theorem other_of_isWord {word : String} (s : Symbol) (h : s.isWord word) :
    s.kind ≠ .semicolon ∧ s.kind ≠ .rightBrace := by
  simp [Symbol.kind_of_isWord h]

theorem rpcEnd_accepts :
    r.Accepts Anything rpcEnd (List.map (Setting.map note)) (Rpc.End note) := by
  intro i y u h rest hrest
  cases h with
  | semicolon hsemi =>
    refine ⟨[], rfl, bind_ok (run_current _) ?_⟩
    rw [List.singleton_append, current_cons, if_neg (by simp [Symbol.is, hsemi])]
    exact bind_ok (run_expect hsemi) rfl
  | block h =>
    obtain ⟨l, t, rfl, hl⟩ : ∃ l t, u = l :: t ∧ l.kind = .leftBrace := by
      obtain ⟨hl, -, -⟩ := h
      exact ⟨_, _, rfl, hl⟩
    obtain ⟨xs, rfl, exs⟩ :=
      block_accepts .rpcItem (settingFrom_accepts note) other_of_isWord h rest hrest
    refine ⟨xs, rfl, bind_ok (run_current _) ?_⟩
    rw [List.cons_append, current_cons, if_pos (Symbol.is_iff.mpr hl)]
    exact exs

theorem rpcFrom_accepts :
    r.AcceptsBehind Anything (·.isWord "rpc") rpcFrom (Rpc.map note) (Rpc.Derives note) := by
  rintro i _ _ @⟨_, word, name, returns, inputStream, outputStream, input, output, options, s, t, u,
    hword, hname, hin, hreturns, hout, hend⟩
  refine ⟨word, _, rfl, hword, fun rest hrest ↦ ?_⟩
  obtain ⟨⟨_, input⟩, hinput, ein⟩ :=
    endpoint_accepts note hin (returns :: (t ++ (u ++ rest))) trivial
  obtain ⟨rfl, rfl⟩ := Prod.mk.inj hinput
  obtain ⟨⟨_, output⟩, houtput, eout⟩ := endpoint_accepts note hout (u ++ rest) trivial
  obtain ⟨rfl, rfl⟩ := Prod.mk.inj houtput
  obtain ⟨options, rfl, eend⟩ := rpcEnd_accepts note hend rest hrest
  refine ⟨⟨name.lexeme, _, input, _, output, options, ⟨i, _⟩⟩, rfl, ?_⟩
  have hlen : i + (word :: name :: (s ++ returns :: (t ++ u))).length =
      i + 2 + s.length + 1 + t.length + u.length := by simp; omega
  rw [hlen, List.cons_append, List.append_assoc, List.cons_append, List.append_assoc]
  exact bind_ok (run_name hname) (bind_ok ein (bind_ok (run_expectWord hreturns) (bind_ok eout
    (bind_ok eend (bind_ok rfl rfl)))))

theorem serviceItem_accepts :
    r.AcceptsBehind Anything (fun s ↦ s.isWord "option" || s.isWord "rpc") serviceItem
      (ServiceItem.map note) (ServiceItem.Derives note) := by
  intro i y u h
  cases h with
  | setting hx =>
    obtain ⟨word, t, rfl, -⟩ := settingFrom_accepts note hx (r := r)
    obtain ⟨hword, hrun⟩ := (settingFrom_accepts note (r := r)).returning (g := .setting)
      (k := ServiceItem.map note) (l := .setting) (fun _ ↦ rfl) hx
    refine ⟨word, t, rfl, by simp [hword], fun rest hrest ↦ ?_⟩
    rw [serviceItem, if_pos hword]
    exact hrun rest hrest
  | rpc hx =>
    obtain ⟨word, t, rfl, -⟩ := rpcFrom_accepts note hx (r := r)
    obtain ⟨hword, hrun⟩ := (rpcFrom_accepts note (r := r)).returning (g := .rpc)
      (k := ServiceItem.map note) (l := .rpc) (fun _ ↦ rfl) hx
    refine ⟨word, t, rfl, by simp [hword], fun rest hrest ↦ ?_⟩
    rw [serviceItem, if_neg (by simp [Symbol.isWord_eq hword])]
    exact hrun rest hrest

theorem serviceFrom_accepts :
    r.AcceptsBehind Anything (·.isWord "service") serviceFrom (Service.map note)
      (Service.Derives note) := by
  rintro i _ _ @⟨_, word, name, items, s, hword, hname, hitems⟩
  refine ⟨word, _, rfl, hword, fun rest hrest ↦ ?_⟩
  have hstarts (s : Symbol) (h : s.isWord "option" || s.isWord "rpc") :
      s.kind ≠ .semicolon ∧ s.kind ≠ .rightBrace := by
    rcases Bool.or_eq_true_iff.mp h with h | h
    all_goals exact other_of_isWord s h
  obtain ⟨items, rfl, eitems⟩ :=
    block_accepts .serviceItem (serviceItem_accepts note) hstarts hitems rest hrest
  refine ⟨⟨name.lexeme, items, ⟨i, _⟩⟩, rfl, ?_⟩
  have hlen : i + (word :: name :: s).length = i + 2 + s.length := by simp; omega
  rw [hlen]
  exact bind_ok (run_name hname) (bind_ok eitems (bind_ok rfl rfl))

/-! ## Files -/

theorem run_importModifier {m : Option ImportModifier} (h : Import.Modifier m t)
    (hrest : (rest.headD r.stop).kind = .string) :
    r.run importFrom.importModifier i (t ++ rest) = .ok (m, ⟨i + t.length, rest, r.stop⟩) := by
  cases h with
  | none =>
    have hword {w : String} : ¬(rest.headD r.stop).isWord w :=
      fun h ↦ nomatch hrest.symm.trans (Symbol.kind_of_isWord h)
    refine bind_ok (run_current _) ?_
    rw [List.nil_append, Cursor.current, if_neg hword, if_neg hword]
    rfl
  | @some m s hs =>
    refine bind_ok (run_current _) ?_
    rw [List.singleton_append, current_cons]
    cases m with
    | weak =>
      have hs : s.isWord "weak" := hs
      rw [if_pos hs]
      exact bind_ok run_take rfl
    | transitive =>
      have hs : s.isWord "public" := hs
      rw [if_neg (by simp [Symbol.isWord_eq hs]), if_pos hs]
      exact bind_ok run_take rfl

theorem importFrom_accepts :
    r.AcceptsBehind Anything (·.isWord "import") importFrom (Import.map note)
      (Import.Derives note) := by
  rintro i _ _ @⟨_, word, semi, file, m, s, t, hword, hm, htext, hsemi⟩
  refine ⟨word, _, rfl, hword, fun rest _ ↦ ⟨⟨file, m, ⟨i, _⟩⟩, rfl, ?_⟩⟩
  obtain ⟨_, rfl, etext⟩ := stringText_accepts htext (semi :: rest) trivial (r := r)
  have hstring : ((t ++ semi :: rest).headD r.stop).kind = .string := by
    obtain ⟨hs, -⟩ := htext
    exact hs
  have hlen : i + (word :: (s ++ (t ++ [semi]))).length = i + 1 + s.length + t.length + 1 := by
    simp
    omega
  rw [hlen, List.append_assoc, List.append_assoc]
  exact bind_ok (run_importModifier hm hstring) (bind_ok etext (bind_ok (run_expect hsemi)
    (bind_ok rfl rfl)))

theorem packageFrom_accepts :
    r.AcceptsBehind Anything (·.isWord "package") packageFrom (Package.map note)
      (Package.Derives note) := by
  rintro i _ _ @⟨_, word, semi, n, s, hword, hn, hsemi⟩
  refine ⟨word, _, rfl, hword, fun rest _ ↦ ?_⟩
  obtain ⟨n, rfl, en⟩ := fullName_accepts note hn (semi :: rest) (other_of_kind hsemi nofun)
  refine ⟨⟨n, ⟨i, _⟩⟩, rfl, ?_⟩
  have hlen : i + (word :: (s ++ [semi])).length = i + 1 + s.length + 1 := by simp; omega
  rw [hlen, List.append_assoc]
  exact bind_ok en (bind_ok (run_expect hsemi) (bind_ok rfl rfl))

theorem versionStatement_accepts :
    r.Accepts (fun s ↦ ¬s.isWord "syntax") versionStatement (Option.map (VersionStatement.map note))
      (VersionStatement.Optional note) := by
  intro i y u h rest hrest
  rcases h with _ | h
  · exact ⟨none, rfl, bind_ok (run_takeIf_none hrest) rfl⟩
  · obtain @⟨_, word, eq, semi, text, v, s, hword, heq, htext, hv, hsemi⟩ := h
    obtain ⟨_, rfl, etext⟩ := stringText_accepts htext (semi :: rest) trivial (r := r)
    refine ⟨some ⟨v, ⟨i, _⟩⟩, rfl, ?_⟩
    have hlen : i + (word :: eq :: (s ++ [semi])).length = i + 2 + s.length + 1 := by simp; omega
    rw [hlen, List.cons_append, List.cons_append, List.append_assoc]
    refine bind_ok (run_takeIf hword) (bind_ok (run_expect heq) (bind_ok (run_current _)
      (bind_ok etext ?_)))
    simp only [id_eq] at hv
    simp only [hv]
    exact bind_ok (run_expect hsemi) (bind_ok rfl rfl)

variable {config : Config} {stop : Symbol} {hstop : stop.kind = .eof}

/-- No statement begins with the word of a version. -/
theorem not_syntax_of_startsDirective (h : startsDirective s) : ¬s.isWord "syntax" := by
  obtain ⟨word, hmem, hword⟩ := startsDirective_iff.mp h
  rw [Symbol.isWord_eq hword, beq_iff_eq]
  rintro rfl
  revert hmem
  decide

/-- A statement that its word tells, and the rule for it. -/
theorem directive_accepts {α β : Type} {word : String} {rule : Entry → Rule α} {f : α → β}
    {p : Phrase β} {g : α → Directive Extent} {l : β → Directive ν} {y : β}
    (h : r.AcceptsBehind Anything (·.isWord word) rule f p)
    (hg : ∀ x, (g x).map note = l (f x))
    (hrule : ∀ e : Entry, e.symbol.isWord word → DirectiveRule e (do let x ← rule e; return g x))
    (hy : p i y t) :
    ∃ first u, t = first :: u ∧ startsDirective first ∧
      ∀ rest, Anything (rest.headD r.stop) → ∃ x : Directive Extent, x.map note = l y ∧
        r.run (directiveFrom ⟨i, first⟩) (i + 1) (u ++ rest) =
          .ok (x, ⟨i + t.length, rest, r.stop⟩) := by
  obtain ⟨first, u, rfl, -⟩ := h hy
  obtain ⟨hfirst, hrun⟩ := h.returning hg hy
  have hrule := hrule ⟨i, first⟩ hfirst
  refine ⟨first, u, rfl, hrule.starts, ?_⟩
  rw [hrule.eq]
  exact hrun

theorem directiveFrom_accepts :
    (ofConfig config hstop).AcceptsBehind Anything (fun s ↦ startsDirective s) directiveFrom
      (Directive.map note) (Directive.Derives Integer config note) := by
  intro i y u h
  have hinner := readBody_accepts note config hstop config.maxDepth
  have hleft {b : Body} {i : Nat} {xs : List (Member ν)} {s : List Symbol}
      (h : Body.Derives Integer config note config.maxDepth b i xs s) := h.exists_cons
  cases h with
  | importFile hx =>
    exact directive_accepts note (importFrom_accepts note) (g := .importFile) (l := .importFile)
      (fun _ ↦ rfl) (fun _ ↦ .importFile) hx
  | package hx =>
    exact directive_accepts note (packageFrom_accepts note) (g := .package) (l := .package)
      (fun _ ↦ rfl) (fun _ ↦ .package) hx
  | setting hx =>
    exact directive_accepts note (settingFrom_accepts note) (g := fun s ↦ .member (.setting s))
      (l := fun s ↦ .member (.setting s)) (fun _ ↦ rfl) (fun _ ↦ .setting) hx
  | message hx =>
    exact directive_accepts note (messageFrom_accepts note (r := ofConfig config hstop) hinner)
      (l := .member) (fun _ ↦ rfl) (fun _ ↦ .message) hx
  | enumType hx =>
    exact directive_accepts note (enumFrom_accepts note) (g := fun e ↦ .member (.enumType e))
      (l := fun e ↦ .member (.enumType e)) (fun _ ↦ rfl) (fun _ ↦ .enumType) hx
  | extend hx =>
    exact directive_accepts note (extendFrom_accepts note (r := ofConfig config hstop) hinner hleft)
      (l := .member) (fun _ ↦ rfl) (fun _ ↦ .extend) hx
  | service hx =>
    exact directive_accepts note (serviceFrom_accepts note) (g := .service) (l := .service)
      (fun _ ↦ rfl) (fun _ ↦ .service) hx

/-- Where statements stand, no version does. -/
theorem not_syntax_of_statements {ds : List (Directive ν)} {first : Symbol}
    (h : Statements (Directive.Derives Integer config note) i ds (first :: t)) :
    ¬first.isWord "syntax" := by
  generalize hu : first :: t = u at h
  cases h with
  | nil => cases hu
  | empty hs =>
    obtain ⟨rfl, -⟩ := List.cons.inj hu
    exact fun hword ↦ nomatch hs.symm.trans (Symbol.kind_of_isWord hword)
  | cons hx =>
    have haccepts : (@ofConfig config .endOfInput rfl).AcceptsBehind _ _ _ _ _ :=
      directiveFrom_accepts note
    obtain ⟨first', s, rfl, hfirst, -⟩ := haccepts hx
    obtain ⟨rfl, -⟩ := List.cons.inj hu
    exact not_syntax_of_startsDirective hfirst

/-- **Every file that the grammar derives is read.**  Nothing of it is left over. -/
theorem schema_accepts {y : Schema ν} (h : y.Derives Integer config note i t) :
    ∃ x : Schema Extent, x.map note = y ∧
      (ofConfig config hstop).run schema i t = .ok (x, ⟨i + t.length, [], stop⟩) := by
  obtain @⟨_, v?, ds, s, t, hv, hds⟩ := h
  have hsyntax : ¬(t.headD stop).isWord "syntax" := by
    cases t with
    | nil => exact fun hword ↦ nomatch hstop.symm.trans (Symbol.kind_of_isWord hword)
    | cons first t => exact not_syntax_of_statements note hds
  obtain ⟨v?, rfl, ev⟩ := versionStatement_accepts note hv t hsyntax (r := ofConfig config hstop)
  have hstarts (s : Symbol) (h : startsDirective s) : s.kind ≠ .semicolon :=
    kind_of_startsDirective h ▸ nofun
  have hbehind : stop.kind ≠ .semicolon ∧ ¬startsDirective stop := by
    simp [startsDirective, Symbol.is, hstop]
  obtain ⟨ds, rfl, eds⟩ :=
    statements_accepts (directiveFrom_accepts note) hstarts hds [] hbehind
  refine ⟨⟨v?, ds⟩, rfl, ?_⟩
  have hlen : i + (s ++ t).length = i + s.length + t.length := by simp; omega
  rw [List.append_nil] at eds
  rw [hlen]
  refine bind_ok ev (bind_ok eds (bind_ok (run_current _) ?_))
  exact (congrArg (Rule.run _ _ · _) (if_pos (Symbol.is_iff.mpr hstop))).trans rfl

end Reader

end ProtoSchema
