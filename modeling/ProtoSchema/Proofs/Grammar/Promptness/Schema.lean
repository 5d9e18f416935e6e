import ProtoSchema.Proofs.Grammar.Promptness.Statement

/-!
# The rules for schemas are prompt

Some of these rules look at the second symbol to tell which statement the first one begins.  A rule
that has decided so and then fails at that second symbol may have taken a way that supplies do not
go; but then only the first symbol is fixed, and supplies finish it in another of the ways
(`prompt_lookahead`).

A block may be cut off where no further one may be nested.  It is finished with an empty body, so
what was begun at a depth is finished at most one deeper.

## What is here

* `Says.exists_cons` — the first symbol of a phrase, where all phrases of the sort begin alike.
* `not_group_of_mem_supplies`, `kind_ne_dot_of_mem_supplies` — supplies mean nothing special to a
  rule that looks ahead.
* `Reader.oneOfItem_prompt`, `Reader.enumItem_prompt` — the items of a oneof and of an enum.
* `Reader.fieldOrGroupFrom_prompt`, `Reader.memberFrom_prompt` — members.
* `Reader.readBody_prompt` — bodies, by induction on the depth.  The configuration that finishes
  them allows one block more.
* `Reader.endpoint_prompt`, `Reader.rpcFrom_prompt`, `Reader.serviceFrom_prompt` — services.
* `Reader.importFrom_prompt` to `Reader.directiveFrom_prompt` — the statements of a file.
* `Reader.schema_prompt` — a file.
-/

set_option autoImplicit false

namespace ProtoSchema

open Grammar Rule Phrase

/-- Where every phrase has two symbols, a first one is not all. -/
theorem Says.exists_cons {α : Type} {p : Phrase α} {first : Symbol} {t : List Symbol}
    (h : Says p (first :: t))
    (hp : ∀ {i x s}, p i x s → ∃ first next u, s = first :: next :: u) :
    ∃ next u, t = next :: u := by
  obtain ⟨x, hx⟩ := h 0
  obtain ⟨_, next, u, hs⟩ := hp hx
  exact ⟨next, u, (List.cons.inj hs).2⟩

theorem not_group_of_mem_supplies : ∀ s ∈ supplies, ¬s.isWord "group" := by decide

theorem kind_ne_dot_of_mem_supplies : ∀ s ∈ supplies, s.kind ≠ .dot := by decide

namespace Reader

variable {r : Reader} {i : Nat} {rest : List Symbol}

/-! ## Oneofs and enums -/

section OneOfs

variable {config : Config} (hconfig : r.config.allowNegative → config.allowNegative)

include hconfig

theorem oneOfItem_prompt {first : Entry} (hfirst : startsType first.symbol) :
    r.Prompt (oneOfItem first) fun t ↦
      Says (OneOfItem.Derives config noNote) (first.symbol :: t) := by
  refine prompt_lookahead (C := (·.kind ≠ .dot)) ⟨zero, nofun⟩ (fun e he ↦ ?_)
    fun hviable i rest hdot ↦ ?_
  · dsimp only
    split
    · rename_i hoption
      obtain ⟨hword, -⟩ := Bool.and_eq_true_iff.mp hoption
      refine ((settingFrom_prompt hword).before kind_ne_dot_of_mem_supplies
        fun t _ ht ↦ ?_).returning
      exact ht.imp fun _ _ h ↦ ⟨_, .setting h⟩
    · rename_i hoption
      have hword : ¬first.symbol.isWord "option" := by
        simpa [Symbol.is_eq_false_iff.mpr he] using hoption
      refine ((fieldFrom_prompt hconfig hfirst).before kind_ne_dot_of_mem_supplies
        fun t _ ht ↦ ?_).returning
      obtain ⟨next, u, rfl⟩ := ht.exists_cons Field.Derives.exists_cons_cons
      exact ht.imp fun _ _ h ↦ ⟨_, .field h (absurd · hword)⟩
  · have hk := Decidable.not_not.mp hdot
    dsimp only
    rw [Symbol.is_iff.mpr hk, Bool.not_true, Bool.and_false, if_neg Bool.false_ne_true]
    refine (fieldFrom_prompt hconfig hfirst).returning_of_head hviable (fun h ↦ ?_) fun t ht ↦ ?_
    · obtain ⟨_, _, ⟨⟩⟩ := h.exists_cons Field.Derives.exists_cons_cons
    · exact ht.imp fun _ _ h ↦ ⟨_, .field h fun _ ↦ hk⟩

theorem oneOfFrom_prompt {first : Entry} (hfirst : first.symbol.isWord "oneof") :
    r.Prompt (oneOfFrom first) fun t ↦ Says (OneOf.Derives config noNote) (first.symbol :: t) := by
  refine name_prompt.bind_one fun _ name hname ↦ ?_
  refine (block_prompt fun _ he ↦ oneOfItem_prompt hconfig he).noting fun s hs ↦ ?_
  choose items hitems using hs
  exact fun i ↦ ⟨_, .mk hfirst hname (hitems _)⟩

end OneOfs

theorem enumItem_prompt {first : Entry} (hfirst : first.symbol.isName) :
    r.Prompt (enumItem first) fun t ↦
      Says (EnumItem.Derives Integer noNote) (first.symbol :: t) := by
  have hvalue : r.Prompt (do let v ← enumValueFrom first; return EnumItem.value v) fun t ↦
      Says (EnumItem.Derives Integer noNote) (first.symbol :: t) :=
    (enumValueFrom_prompt hfirst).returning fun _ ht ↦ ht.imp fun _ _ h ↦ ⟨_, .value h⟩
  refine ⟨hvalue.nonempty, hvalue.viable, fun i rest ↦ promptAt_current ?_⟩
  dsimp only
  split
  · rename_i hoption
    obtain ⟨hword, -⟩ := Bool.and_eq_true_iff.mp hoption
    refine ((settingFrom_prompt hword).returning fun _ ht ↦ ?_).promptAt i rest
    exact ht.imp fun _ _ h ↦ ⟨_, .setting h⟩
  split
  · rename_i hreserved
    obtain ⟨hword, hequal⟩ := Bool.and_eq_true_iff.mp hreserved
    refine (reservedFrom_prompt hword).returning_of_head hvalue.viable (fun h ↦ ?_) fun t ht ↦ ?_
    · obtain ⟨_, _, ⟨⟩⟩ := h.exists_cons Reserved.Derives.exists_cons_cons
    · exact ht.imp fun _ _ h ↦ ⟨_, .reserved h (by simpa [Symbol.is] using hequal)⟩
  · exact hvalue.promptAt i rest

theorem enumFrom_prompt {first : Entry} (hfirst : first.symbol.isWord "enum") :
    r.Prompt (enumFrom first) fun t ↦
      Says (EnumType.Derives Integer noNote) (first.symbol :: t) := by
  refine name_prompt.bind_one fun _ name hname ↦ ?_
  refine (block_prompt fun _ he ↦ enumItem_prompt he).noting fun s hs ↦ ?_
  choose items hitems using hs
  exact fun i ↦ ⟨_, .mk hfirst hname (hitems _)⟩

/-! ## Blocks -/

section Blocks

variable {config : Config} (hconfig : r.config.allowNegative → config.allowNegative)
  {inner : Body → Phrase (List (Member Unit))}
  (hinner : ∀ b, r.Prompt (Rule.nested b) (Says (inner b)))

include hinner

theorem messageFrom_prompt {first : Entry} (hfirst : first.symbol.isWord "message") :
    r.Prompt (messageFrom first) fun t ↦
      Says (Member.DerivesMessage noNote inner) (first.symbol :: t) := by
  refine name_prompt.bind_one fun _ name hname ↦ (hinner .message).noting fun s hs ↦ ?_
  choose xs hxs using hs
  exact fun i ↦ ⟨_, .mk hfirst hname (hxs _)⟩

theorem extendFrom_prompt {first : Entry} (hfirst : first.symbol.isWord "extend") :
    r.Prompt (extendFrom first) fun t ↦
      Says (Member.DerivesExtend noNote inner) (first.symbol :: t) := by
  refine typeRef_prompt.bind fun _ s hs ↦ (hinner .extension).noting fun t ht ↦ ?_
  choose type htype using hs
  choose xs hxs using ht
  exact fun i ↦ ⟨_, .mk hfirst (htype _) (hxs _)⟩

include hconfig

theorem groupFrom_promptAt {label : Label} {first : Entry}
    (hfirst : labelOf? first.symbol = some label)
    (hgroup : (rest.headD r.stop).isWord "group") {F : List Symbol → Prop}
    (hF : ∀ t, Says (Member.DerivesGroup Integer config noNote inner) (first.symbol :: t) → F t) :
    r.PromptAt (groupFrom label first) i rest (fun _ ↦ F) F := by
  refine promptAt_expectWord hgroup fun word rest' hrest ↦ ?_
  subst hrest
  refine (numbered_prompt hconfig fun _ _ _ s hs ↦ ?_).promptAt (i + 1) rest'
  refine (hinner .message).noting fun t ht ↦ hF _ ?_
  choose x hx using hs
  choose xs hxs using ht
  exact fun i ↦ ⟨_, .mk hfirst hgroup (hx _) (hxs _)⟩

/-- A field or a group, where `hb` tells that what does not begin a group can begin a field. -/
theorem fieldOrGroupFrom_prompt {b : Body} {first : Entry} (hfirst : startsType first.symbol)
    (hb : ∀ next, ¬startsGroup first.symbol next → b.readsField first.symbol next) :
    r.Prompt (fieldOrGroupFrom first) fun t ↦
      Says (Member.Derives Integer config noNote inner b) (first.symbol :: t) := by
  refine prompt_lookahead (C := (¬startsGroup first.symbol ·)) ⟨zero, nofun⟩ (fun e he ↦ ?_)
    fun hviable i rest hgroup ↦ ?_
  · have hnone : (if e.symbol.isWord "group" then labelOf? first.symbol else none) = none := by
      split
      · rename_i hword
        simpa [startsGroup, hword] using he
      · rfl
    simp only [hnone]
    refine ((fieldFrom_prompt hconfig hfirst).before ?_ fun t hhead ht ↦ ?_).returning
    · exact fun a ha hgroup ↦ not_group_of_mem_supplies a ha (Bool.and_eq_true_iff.mp hgroup).1
    · obtain ⟨next, u, rfl⟩ := ht.exists_cons Field.Derives.exists_cons_cons
      exact ht.imp fun _ _ h ↦ ⟨_, .field h (hb next (hhead next rfl))⟩
  · obtain ⟨hword, hlabel⟩ := Bool.and_eq_true_iff.mp (Decidable.not_not.mp hgroup)
    obtain ⟨label, hl⟩ := Option.isSome_iff_exists.mp hlabel
    simp only [hword, if_true, hl]
    exact groupFrom_promptAt hconfig hinner hl hword fun t ht ↦ ht.imp fun _ _ h ↦ ⟨_, .group h⟩

theorem memberFrom_prompt {first : Entry} (hfirst : startsType first.symbol) :
    r.Prompt (memberFrom first) fun t ↦
      Says (Member.Derives Integer config noNote inner .message) (first.symbol :: t) := by
  obtain ⟨choice, hchoice, hrule⟩ := memberFrom_eq_bind first
  rw [hchoice]
  refine prompt_lookahead (C := (·.kind ≠ .dot)) ⟨zero, nofun⟩ (fun e he ↦ ?_)
    fun hviable i rest hdot ↦ ?_
  · have hrule := (hrule e _).mpr rfl
    generalize choice e = rule at hrule
    cases hrule with
    | field hdot => exact absurd hdot he
    | message hword _ =>
      refine (messageFrom_prompt hinner hword).before kind_ne_dot_of_mem_supplies fun t _ ht ↦ ?_
      exact ht.imp fun _ _ h ↦ ⟨_, .message h⟩
    | enumType hword _ =>
      refine ((enumFrom_prompt hword).before kind_ne_dot_of_mem_supplies fun t _ ht ↦ ?_).returning
      exact ht.imp fun _ _ h ↦ ⟨_, .enumType h⟩
    | extend hword _ =>
      refine (extendFrom_prompt hinner hword).before kind_ne_dot_of_mem_supplies fun t hhead ht ↦ ?_
      obtain ⟨next, u, rfl⟩ := ht.exists_cons Member.DerivesExtend.exists_cons_cons
      exact ht.imp fun _ _ h ↦ ⟨_, .extend h (hhead next rfl)⟩
    | extensions hword _ =>
      refine ((extensionsFrom_prompt hword).before kind_ne_dot_of_mem_supplies
        fun t hhead ht ↦ ?_).returning
      obtain ⟨next, u, rfl⟩ := ht.exists_cons Extensions.Derives.exists_cons_cons
      exact ht.imp fun _ _ h ↦ ⟨_, .extensions h (hhead next rfl)⟩
    | setting hword _ =>
      refine ((settingFrom_prompt hword).before kind_ne_dot_of_mem_supplies
        fun t _ ht ↦ ?_).returning
      exact ht.imp fun _ _ h ↦ ⟨_, .setting h⟩
    | oneOf hword _ =>
      refine ((oneOfFrom_prompt hconfig hword).before kind_ne_dot_of_mem_supplies
        fun t _ ht ↦ ?_).returning
      exact ht.imp fun _ _ h ↦ ⟨_, .oneOf h⟩
    | reserved hword _ =>
      refine ((reservedFrom_prompt hword).before kind_ne_dot_of_mem_supplies
        fun t hhead ht ↦ ?_).returning
      obtain ⟨next, u, rfl⟩ := ht.exists_cons Reserved.Derives.exists_cons_cons
      exact ht.imp fun _ _ h ↦ ⟨_, .reserved h (hhead next rfl)⟩
    | mapField hword _ =>
      refine ((mapFieldFrom_prompt hconfig hword).before kind_ne_dot_of_mem_supplies
        fun t _ ht ↦ ?_).returning
      exact ht.imp fun _ _ h ↦ ⟨_, .mapField h⟩
    | fieldOrGroup hwords _ _ =>
      exact (fieldOrGroupFrom_prompt hconfig hinner hfirst
        fun next hgroup ↦ Body.readsField_of_not_word hgroup hwords).before
          kind_ne_dot_of_mem_supplies fun _ _ ht ↦ ht
  · have hdot : (rest.headD r.stop).kind = .dot := Decidable.not_not.mp hdot
    rw [(hrule ⟨i, rest.headD r.stop⟩ _).mp (.field hdot)]
    refine (fieldFrom_prompt hconfig hfirst).returning_of_head hviable (fun h ↦ ?_) fun t ht ↦ ?_
    · obtain ⟨_, _, ⟨⟩⟩ := h.exists_cons Field.Derives.exists_cons_cons
    · exact ht.imp fun _ _ h ↦ ⟨_, .field h (by rw [Body.readsField, Symbol.is_iff.mpr hdot]; rfl)⟩

end Blocks

/-- A body may be missing because it would be nested too deep; one level more is enough for it. -/
theorem readBody_prompt {config config' : Config}
    (hconfig : config.allowNegative → config'.allowNegative)
    {stop : Symbol} (hstop : stop.kind = .eof) (depth : Nat) (b : Body) :
    Prompt ⟨config, readBody config depth, stop, hstop⟩ (Rule.nested b)
      (Says (Body.Derives Integer config' noNote (depth + 1) b)) := by
  induction depth generalizing b with
  | zero =>
    refine ⟨⟨[]⟩, ⟨[.mark .leftBrace, .mark .rightBrace], by decide, fun i ↦ ⟨[], ?_⟩⟩,
      fun _ _ _ ↦ .violation⟩
    exact .mk (t := []) rfl .nil rfl
  | succ depth ih =>
    let r : Reader := ⟨config, readBody config depth, stop, hstop⟩
    have hbody : r.Prompt (body b) (Says (Body.Derives Integer config' noNote (depth + 2) b)) := by
      cases b with
      | message => exact block_prompt fun _ he ↦ memberFrom_prompt hconfig ih he
      | extension =>
        exact block_prompt fun _ he ↦ fieldOrGroupFrom_prompt hconfig ih he
          fun next hgroup ↦ by simpa [Body.readsField] using hgroup
    exact ⟨hbody.nonempty, hbody.viable, hbody.promptAt⟩

/-! ## Services -/

/-- A type in parentheses, the left one of which has been taken. -/
theorem closed_prompt {α : Type} {f : TypeRef Extent → α} :
    r.Prompt (do
      let type ← typeRef
      let _ ← expect .rightParen
      return f type) fun t ↦
        ∃ s right, t = s ++ [right] ∧ Says (TypeRef.Derives noNote) s ∧ right.kind = .rightParen :=
  typeRef_prompt.bind fun _ s hs ↦ (expect_prompt .rightParen (by decide)).bind_one
    fun _ right hright ↦ prompt_pure ⟨s, right, rfl, hs, hright⟩

theorem endpoint_prompt : r.Prompt endpoint (Says (Rpc.Endpoint noNote)) := by
  refine (expect_prompt .leftParen (by decide)).bind_one fun _ left hleft ↦ ?_
  refine prompt_lookahead (C := fun a ↦ ¬a.isWord "stream") ⟨zero, by decide⟩ (fun e he ↦ ?_)
    fun _ i rest hstream ↦ ?_
  · rw [if_neg he]
    refine closed_prompt.before (by decide) fun t hhead ↦ ?_
    rintro ⟨s, right, rfl, hs, hright⟩
    choose type htype using hs
    obtain ⟨first, u, rfl, -⟩ := (htype 0).exists_cons
    exact fun i ↦ ⟨_, .plain hleft (htype _) (absurd · (hhead first rfl)) hright⟩
  · have hstream := Decidable.not_not.mp hstream
    have hk := Symbol.kind_of_isWord hstream
    rw [if_pos hstream]
    have hrest : rest ≠ [] := ne_nil_of_kind (r := r) (kind_ne_eof_of_isWord _ hstream)
    refine promptAt_take hrest fun word rest' hrest ↦ promptAt_current ?_
    subst hrest
    split
    · rename_i hparen
      have hword :
          r.PromptAt (typeRefFrom ⟨i, word⟩) (i + 1) rest' (fun _ ↦ (· = [])) (· = []) := by
        refine (typeRefFrom_prompt
          (startsType_of_isName (Symbol.isName_of_kind hk))).promptAt_of_head
          (.of_finished rfl) (fun _ ↦ rfl) fun t ht ↦ ?_
        obtain ⟨x, hx⟩ := ht 0
        have hdot := hx.kind_of_cons_cons (hk ▸ nofun)
        exact nomatch hdot.symm.trans (Symbol.is_iff.mp hparen)
      have hclosed (type : TypeRef Extent) : r.Prompt
          (do let _ ← expect .rightParen; return (false, type)) fun t ↦
            Says (Rpc.Endpoint noNote) (left :: word :: t) := by
        refine (expect_prompt .rightParen (by decide)).bind_one fun _ right hright ↦ prompt_pure ?_
        refine fun i ↦
          ⟨_, .plain (s := []) hleft (.named (t := []) .none hk .nil) (fun _ ↦ rfl) hright⟩
      refine hword.bind ?_ ?_
      · rintro type _ rest rfl
        exact (hclosed type).promptAt _ rest
      · rintro _ rfl
        exact (hclosed ⟨"", ⟨0, 0⟩⟩).viable
    · refine (closed_prompt.imp fun t ↦ ?_).promptAt (i + 1) rest'
      rintro ⟨s, right, rfl, hs, hright⟩
      choose type htype using hs
      exact fun i ↦ ⟨_, .stream hleft hstream (htype _) hright⟩

theorem rpcEnd_prompt : r.Prompt rpcEnd (Says (Rpc.End noNote)) := by
  refine prompt_current fun e ↦ ?_
  split
  · refine (block_prompt fun _ he ↦ settingFrom_prompt he).imp fun s hs ↦ ?_
    exact hs.imp fun _ _ h ↦ ⟨_, .block h⟩
  · exact (expect_prompt .semicolon (by decide)).bind_one fun _ semi hsemi ↦
      prompt_pure fun _ ↦ ⟨_, .semicolon hsemi⟩

theorem rpcFrom_prompt {first : Entry} (hfirst : first.symbol.isWord "rpc") :
    r.Prompt (rpcFrom first) fun t ↦ Says (Rpc.Derives noNote) (first.symbol :: t) := by
  refine name_prompt.bind_one fun _ name hname ↦ endpoint_prompt.bind fun _ s hs ↦ ?_
  refine (expectWord_prompt "returns" (by decide)).bind_one fun _ returns hreturns ↦ ?_
  refine endpoint_prompt.bind fun _ t ht ↦ rpcEnd_prompt.noting fun u hu ↦ ?_
  choose input hinput using hs
  choose output houtput using ht
  choose options hoptions using hu
  exact fun i ↦ ⟨_, .mk hfirst hname (hinput _) hreturns (houtput _) (hoptions _)⟩

theorem serviceItem_prompt {first : Entry}
    (hfirst : first.symbol.isWord "option" || first.symbol.isWord "rpc") :
    r.Prompt (serviceItem first) fun t ↦ Says (ServiceItem.Derives noNote) (first.symbol :: t) := by
  unfold serviceItem
  split
  · rename_i hword
    exact (settingFrom_prompt hword).returning fun _ ht ↦ ht.imp fun _ _ h ↦ ⟨_, .setting h⟩
  · rename_i hword
    have hword : first.symbol.isWord "rpc" := by simpa [hword] using hfirst
    exact (rpcFrom_prompt hword).returning fun _ ht ↦ ht.imp fun _ _ h ↦ ⟨_, .rpc h⟩

theorem serviceFrom_prompt {first : Entry} (hfirst : first.symbol.isWord "service") :
    r.Prompt (serviceFrom first) fun t ↦ Says (Service.Derives noNote) (first.symbol :: t) := by
  refine name_prompt.bind_one fun _ name hname ↦ ?_
  refine (block_prompt fun _ he ↦ serviceItem_prompt he).noting fun s hs ↦ ?_
  choose items hitems using hs
  exact fun i ↦ ⟨_, .mk hfirst hname (hitems _)⟩

/-! ## Files -/

theorem importModifier_prompt :
    r.Prompt importFrom.importModifier fun s ↦ ∃ m, Import.Modifier m s := by
  refine ⟨⟨none⟩, .of_finished ⟨none, .none⟩, fun i rest ↦ promptAt_current ?_⟩
  have taken (m : ImportModifier) (hword : (rest.headD r.stop).isWord m.word) :
      r.PromptAt (do let _ ← take; return some m) i rest (fun _ s ↦ ∃ m, Import.Modifier m s)
        fun s ↦ ∃ m, Import.Modifier m s :=
    promptAt_taking (ne_nil_of_kind (kind_ne_eof_of_isWord _ hword)) ⟨some m, .some hword⟩
  dsimp only
  split
  · rename_i hword
    exact taken .weak hword
  split
  · rename_i hword
    exact taken .transitive hword
  · exact (prompt_pure ⟨none, .none⟩).promptAt i rest

theorem importFrom_prompt {first : Entry} (hfirst : first.symbol.isWord "import") :
    r.Prompt (importFrom first) fun t ↦ Says (Import.Derives noNote) (first.symbol :: t) := by
  refine importModifier_prompt.bind fun _ s ⟨m, hm⟩ ↦ stringText_prompt.bind fun _ t ht ↦ ?_
  refine prompt_semicolon fun semi hsemi ↦ ?_
  choose file hfile using ht
  exact fun i ↦ ⟨_, .mk hfirst hm (hfile _) hsemi⟩

theorem packageFrom_prompt {first : Entry} (hfirst : first.symbol.isWord "package") :
    r.Prompt (packageFrom first) fun t ↦ Says (Package.Derives noNote) (first.symbol :: t) := by
  refine fullName_prompt.bind fun _ s hs ↦ ?_
  refine prompt_semicolon fun semi hsemi ↦ ?_
  choose name hname using hs
  exact fun i ↦ ⟨_, .mk hfirst (hname _) hsemi⟩

theorem versionStatement_prompt :
    r.Prompt versionStatement (Says (VersionStatement.Optional noNote)) := by
  refine prompt_takeIf kind_ne_eof_of_isWord (prompt_pure fun i ↦ ⟨none, .none⟩) fun e hword ↦ ?_
  refine (expect_prompt .equal (by decide)).bind_one fun _ eq heq ↦ prompt_current fun entry ↦ ?_
  have hversion {text : String} {v : Version} {s : List Symbol} {semi : Symbol}
      (hs : ∀ i, Text i text s) (hv : Version.ofText? text = some v)
      (hsemi : semi.kind = .semicolon) :
      Says (VersionStatement.Optional noNote) (e.symbol :: eq :: (s ++ [semi])) :=
    fun i ↦ ⟨_, .some (.mk hword heq (hs _) hv hsemi)⟩
  have hproto3 {s : List Symbol} (hs : ∀ i, Text i "proto3" s) :
      Viable (fun t ↦ Says (VersionStatement.Optional noNote) (e.symbol :: eq :: (s ++ t))) [] :=
    ⟨[.mark .semicolon], by decide, hversion hs (show _ = some .proto3 from rfl) rfl⟩
  refine ⟨⟨none⟩, .of_supply (a := versionText) (by decide) (hproto3 fun _ ↦ .mk rfl rfl),
    fun i rest ↦ stringText_promptAt.bind (fun text s rest' hs ↦ ?_) fun s ↦ hproto3⟩
  split
  · rename_i v hv
    exact (prompt_semicolon fun semi hsemi ↦ hversion hs hv hsemi).promptAt _ rest'
  · exact promptAt_violate

section Files

variable {config config' : Config} (hconfig : config.allowNegative → config'.allowNegative)
  (hdepth : config.maxDepth + 1 = config'.maxDepth) {stop : Symbol} {hstop : stop.kind = .eof}

include hconfig hdepth

theorem directiveFrom_prompt {first : Entry} (hfirst : startsDirective first.symbol) :
    (ofConfig config hstop).Prompt (directiveFrom first) fun t ↦
      Says (Directive.Derives Integer config' noNote) (first.symbol :: t) := by
  have hinner := readBody_prompt hconfig hstop config.maxDepth
  rw [hdepth] at hinner
  have hrule := directiveRule_directiveFrom hfirst
  generalize directiveFrom first = rule at hrule
  cases hrule with
  | importFile hword =>
    exact (importFrom_prompt hword).returning fun _ ht ↦ ht.imp fun _ _ h ↦ ⟨_, .importFile h⟩
  | package hword =>
    exact (packageFrom_prompt hword).returning fun _ ht ↦ ht.imp fun _ _ h ↦ ⟨_, .package h⟩
  | setting hword =>
    exact (settingFrom_prompt hword).returning fun _ ht ↦ ht.imp fun _ _ h ↦ ⟨_, .setting h⟩
  | message hword =>
    exact (messageFrom_prompt (r := ofConfig config hstop) hinner hword).returning
      fun _ ht ↦ ht.imp fun _ _ h ↦ ⟨_, .message h⟩
  | enumType hword =>
    exact (enumFrom_prompt hword).returning fun _ ht ↦ ht.imp fun _ _ h ↦ ⟨_, .enumType h⟩
  | extend hword =>
    exact (extendFrom_prompt (r := ofConfig config hstop) hinner hword).returning
      fun _ ht ↦ ht.imp fun _ _ h ↦ ⟨_, .extend h⟩
  | service hword =>
    exact (serviceFrom_prompt hword).returning fun _ ht ↦ ht.imp fun _ _ h ↦ ⟨_, .service h⟩

/-- **What stands in front of an unexpected symbol is the beginning of a file.** -/
theorem schema_prompt :
    (ofConfig config hstop).Prompt schema (Says (Schema.Derives Integer config' noNote)) := by
  refine versionStatement_prompt.bind fun v? s hs ↦ ?_
  refine (statements_prompt fun _ he ↦ directiveFrom_prompt hconfig hdepth he).bind fun ds t ht ↦ ?_
  have hschema : Says (Schema.Derives Integer config' noNote) (s ++ (t ++ [])) := by
    rw [List.append_nil]
    choose v hv using hs
    choose ys hys using ht
    exact fun i ↦ ⟨_, .mk (hv _) (hys _)⟩
  refine ⟨⟨⟨v?, ds⟩⟩, .of_finished hschema, fun i rest ↦ promptAt_current ?_⟩
  split
  · exact (prompt_pure hschema).promptAt i rest
  · exact promptAt_reject (.of_finished hschema)

end Files

end Reader

end ProtoSchema
