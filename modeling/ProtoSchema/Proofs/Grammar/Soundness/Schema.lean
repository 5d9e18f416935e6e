import ProtoSchema.Proofs.Grammar.Choosing
import ProtoSchema.Proofs.Grammar.Soundness.Statement

/-!
# The rules for schemas read what the grammar says

From blocks up to whole files.  What the bodies of blocks are is a hypothesis of the statements
about members, which `readBody_reads` discharges by induction on the depth.

## What is here

* `Grammar.OneOfItem.map`, `Grammar.EnumItem.map` — items with other notes.
* `Reader.oneOfFrom_reads`, `Reader.enumFrom_reads` — oneofs and enums.
* `Reader.messageFrom_reads`, `Reader.groupFrom_reads`, `Reader.extendFrom_reads` — blocks.
* `Reader.fieldOrGroupFrom_ok`, `Reader.memberFrom_reads` — members.  What the second symbol rules
  out is a condition of the phrase for a field.
* `Reader.rpcFrom_reads`, `Reader.serviceFrom_reads` — services.
* `Reader.importFrom_reads` to `Reader.directiveFrom_reads` — the statements of a file.
* `Reader.readBody_reads` — bodies.
* `Reader.ofConfig`, `Reader.schema_ok` — a file, up to a symbol that begins no statement.
-/

set_option autoImplicit false

namespace ProtoSchema

open Grammar Rule Phrase

/-! ## Items and their notes -/

variable {ν μ : Type}

/-- The same item with other notes. -/
def Grammar.OneOfItem.map (f : ν → μ) : OneOfItem ν → OneOfItem μ
  | .setting s => .setting (s.map f)
  | .field x => .field (x.map f)

/-- The same item with other notes. -/
def Grammar.EnumItem.map (f : ν → μ) : EnumItem ν → EnumItem μ
  | .setting s => .setting (s.map f)
  | .value v => .value (v.map f)
  | .reserved r => .reserved (r.map f)

/-- Choosing some of the items and changing notes can be done in either order. -/
theorem filterMap_map_comm {α β γ δ : Type} (choose : α → Option β) {choose' : γ → Option δ}
    {f : α → γ} (g : β → δ) (h : ∀ a, choose' (f a) = (choose a).map g) (xs : List α) :
    (xs.map f).filterMap choose' = (xs.filterMap choose).map g := by
  rw [List.filterMap_map, List.map_filterMap]
  exact congrArg (List.filterMap · xs) (funext h)

namespace Reader

variable (note : Extent → ν) {r : Reader} {i : Nat} {rest : List Symbol} {c' : Cursor}

/-! ## Oneofs and enums -/

theorem oneOfItem_reads :
    r.ReadsBehind (fun s ↦ startsType s) oneOfItem
      (.under (OneOfItem.map note) (OneOfItem.Derives r.config note)) := by
  intro i first rest x c' hfirst h
  simp only [run, oneOfItem, bind_eq_ok_iff, current_eq_ok_iff] at h
  obtain ⟨_, _, ⟨rfl, rfl⟩, h⟩ := h
  split at h
  · rename_i hoption
    obtain ⟨hword, -⟩ := Bool.and_eq_true_iff.mp hoption
    exact (settingFrom_reads note).returning (fun _ _ _ ↦ .setting) hword h
  · rename_i hfield
    obtain ⟨x, next, s, rest, rfl, rfl, rfl, hs⟩ :=
      (fieldFrom_reads note).returning_ok (fun _ _ _ h ↦ h.exists_cons_cons) hfirst h
    refine ⟨next :: s, rest, rfl, rfl, .field hs fun hword ↦ ?_⟩
    have hdot : next.is .dot := by simpa [hword, Cursor.current] using hfield
    exact Symbol.is_iff.mp hdot

theorem oneOfFrom_reads :
    r.ReadsBehind (·.isWord "oneof") oneOfFrom
      (.under (OneOf.map note) (OneOf.Derives r.config note)) := by
  intro i word rest x c' hword h
  simp only [run, oneOfFrom, bind_eq_ok_iff, extentFrom_eq_ok_iff, pure_eq_ok_iff] at h
  obtain ⟨_, c₁, ename, items, c₂, eitems, _, _, ⟨rfl, rfl⟩, rfl, rfl⟩ := h
  obtain ⟨_, rest, rfl, rfl, @⟨_, name, hname⟩⟩ := name_reads ename
  obtain ⟨s, rest, rfl, rfl, hs⟩ := block_reads (oneOfItem_reads note) eitems
  have hlen : i + 1 + 1 + s.length = i + (word :: name :: s).length := by simp; omega
  have hd : OneOf.Derives r.config note _ _ _ := .mk hword hname (hs.imp fun _ _ _ h ↦ h)
  rw [filterMap_map_comm OneOfItem.setting? (Setting.map note) (fun a ↦ by cases a <;> rfl),
    filterMap_map_comm OneOfItem.field? (Field.map note) (fun a ↦ by cases a <;> rfl)] at hd
  refine ⟨name :: s, rest, rfl, by simp; omega, ?_⟩
  rw [List.length_singleton, hlen]
  exact hd

theorem enumItem_reads :
    r.ReadsBehind (fun s ↦ s.isName) enumItem
      (.under (EnumItem.map note) (EnumItem.Derives Integer note)) := by
  intro i first rest x c' hfirst h
  simp only [run, enumItem, bind_eq_ok_iff, current_eq_ok_iff] at h
  obtain ⟨_, _, ⟨rfl, rfl⟩, h⟩ := h
  split at h
  · rename_i hoption
    obtain ⟨hword, -⟩ := Bool.and_eq_true_iff.mp hoption
    exact (settingFrom_reads note).returning (fun _ _ _ ↦ .setting) hword h
  · split at h
    · rename_i hreserved
      obtain ⟨hword, hequal⟩ := Bool.and_eq_true_iff.mp hreserved
      obtain ⟨x, next, s, rest, rfl, rfl, rfl, hs⟩ :=
        (reservedFrom_reads note).returning_ok (fun _ _ _ h ↦ h.exists_cons_cons) hword h
      have hequal : next.kind ≠ .equal := by simpa [Cursor.current, Symbol.is] using hequal
      exact ⟨next :: s, rest, rfl, rfl, .reserved hs hequal⟩
    · exact (enumValueFrom_reads note).returning (fun _ _ _ ↦ .value) hfirst h

theorem enumFrom_reads :
    r.ReadsBehind (·.isWord "enum") enumFrom
      (.under (EnumType.map note) (EnumType.Derives Integer note)) := by
  intro i word rest x c' hword h
  simp only [run, enumFrom, bind_eq_ok_iff, extentFrom_eq_ok_iff, pure_eq_ok_iff] at h
  obtain ⟨_, c₁, ename, items, c₂, eitems, _, _, ⟨rfl, rfl⟩, rfl, rfl⟩ := h
  obtain ⟨_, rest, rfl, rfl, @⟨_, name, hname⟩⟩ := name_reads ename
  obtain ⟨s, rest, rfl, rfl, hs⟩ := block_reads (enumItem_reads note) eitems
  have hlen : i + 1 + 1 + s.length = i + (word :: name :: s).length := by simp; omega
  have hd : EnumType.Derives Integer note _ _ _ := .mk hword hname (hs.imp fun _ _ _ h ↦ h)
  rw [filterMap_map_comm EnumItem.setting? (Setting.map note) (fun a ↦ by cases a <;> rfl),
    filterMap_map_comm EnumItem.value? (Field.map note) (fun a ↦ by cases a <;> rfl),
    filterMap_map_comm EnumItem.reserved? (Reserved.map note) (fun a ↦ by cases a <;> rfl)] at hd
  refine ⟨name :: s, rest, rfl, by simp; omega, ?_⟩
  rw [List.length_singleton, hlen]
  exact hd

/-! ## Blocks -/

section Blocks

variable {inner : Body → Phrase (List (Member ν))}
  (hinner : ∀ b, r.ReadsWhole (Rule.nested b) (.under (List.map (Member.map note)) (inner b)))
  (hne : ∀ {b i xs s}, inner b i xs s → s ≠ [])

include hinner in
theorem messageFrom_reads :
    r.ReadsBehind (·.isWord "message") messageFrom
      (.under (Member.map note) (Member.DerivesMessage note inner)) := by
  intro i word rest x c' hword h
  simp only [run, messageFrom, bind_eq_ok_iff, extentFrom_eq_ok_iff, pure_eq_ok_iff] at h
  obtain ⟨_, c₁, ename, xs, c₂, exs, _, _, ⟨rfl, rfl⟩, rfl, rfl⟩ := h
  obtain ⟨_, rest, rfl, rfl, @⟨_, name, hname⟩⟩ := name_reads ename
  obtain ⟨s, rest, rfl, rfl, hs⟩ := hinner _ exs
  have hlen : i + 1 + 1 + s.length = i + (word :: name :: s).length := by simp; omega
  refine ⟨name :: s, rest, rfl, by simp; omega, ?_⟩
  rw [List.length_singleton, hlen]
  exact .mk hword hname (Member.mapAll_eq_map note xs ▸ hs)

include hinner hne

theorem groupFrom_reads {label : Label} :
    r.ReadsBehind (fun s ↦ labelOf? s = some label) (groupFrom label)
      (.under (Member.map note) (Member.DerivesGroup Integer r.config note inner)) := by
  intro i l rest x c' hl h
  simp only [run, groupFrom, bind_eq_ok_iff, extentFrom_eq_ok_iff, pure_eq_ok_iff] at h
  obtain ⟨_, c₁, eword, w, c₂, ename, _, c₃, eeq, n, c₄, en, options, c₅, eo, xs, c₆, exs, _, _,
    ⟨rfl, rfl⟩, rfl, rfl⟩ := h
  obtain ⟨word, rest, rfl, rfl, rfl, hword⟩ := expectWord_ok eword
  obtain ⟨s, rest, rfl, rfl, hs⟩ := numbered_ok note ename eeq en eo
  obtain ⟨t, rest, rfl, rfl, ht⟩ := hinner _ exs
  have hlen : i + 1 + 1 + s.length + t.length = i + (l :: word :: (s ++ t)).length := by
    simp
    omega
  refine ⟨word :: (s ++ t), rest, by simp, by simp; omega, ?_⟩
  rw [hlen]
  exact .mk hl hword (hs (by simp [hne ht])) (Member.mapAll_eq_map note xs ▸ ht)

theorem extendFrom_reads :
    r.ReadsBehind (·.isWord "extend") extendFrom
      (.under (Member.map note) (Member.DerivesExtend note inner)) := by
  intro i word rest x c' hword h
  simp only [run, Grammar.extendFrom, bind_eq_ok_iff, extentFrom_eq_ok_iff, pure_eq_ok_iff] at h
  obtain ⟨type, c₁, etype, xs, c₂, exs, _, _, ⟨rfl, rfl⟩, rfl, rfl⟩ := h
  obtain ⟨s, rest, rfl, rfl, hs⟩ := typeRef_reads note etype
  obtain ⟨t, rest, rfl, rfl, ht⟩ := hinner _ exs
  have hlen : i + 1 + s.length + t.length = i + (word :: (s ++ t)).length := by simp; omega
  refine ⟨s ++ t, rest, by simp, by simp; omega, ?_⟩
  rw [hlen]
  exact .mk hword (hs (by simp [hne ht])) (Member.mapAll_eq_map note xs ▸ ht)

/-- A field or a group, where `hb` tells that what does not begin a group can begin a field. -/
theorem fieldOrGroupFrom_ok {b : Body} {first : Symbol} {x : Member Extent}
    (hfirst : startsType first)
    (hb : ¬startsGroup first (rest.headD r.stop) → b.readsField first (rest.headD r.stop))
    (h : r.run (fieldOrGroupFrom ⟨i, first⟩) (i + 1) rest = .ok (x, c')) :
    ∃ s rest', rest = s ++ rest' ∧ c' = ⟨i + 1 + s.length, rest', r.stop⟩ ∧
      (x.map note).Derives Integer r.config note inner b i (first :: s) := by
  simp only [run, fieldOrGroupFrom, bind_eq_ok_iff, current_eq_ok_iff] at h
  obtain ⟨_, _, ⟨rfl, rfl⟩, h⟩ := h
  split at h
  · rename_i label hgroup
    obtain ⟨-, hl⟩ := Option.ite_none_right_eq_some.mp hgroup
    obtain ⟨s, rest, rfl, rfl, hs⟩ := groupFrom_reads note hinner hne hl h
    exact ⟨s, rest, rfl, rfl, .group hs⟩
  · rename_i hgroup
    have hstarts : ¬startsGroup first (rest.headD r.stop) := by
      simp only [startsGroup, Bool.and_eq_true, not_and]
      intro hword hsome
      rw [if_pos (show (Cursor.current ⟨i + 1, rest, r.stop⟩).symbol.isWord "group" from hword)]
        at hgroup
      simp [hgroup] at hsome
    obtain ⟨f, next, s, rest, rfl, rfl, rfl, hs⟩ :=
      (fieldFrom_reads note).returning_ok (fun _ _ _ h ↦ h.exists_cons_cons) hfirst h
    exact ⟨next :: s, rest, rfl, rfl, .field hs (hb hstarts)⟩

theorem memberFrom_reads :
    r.ReadsBehind (fun s ↦ startsType s) memberFrom
      (.under (Member.map note) (Member.Derives Integer r.config note inner .message)) := by
  intro i first rest x c' hfirst h
  obtain ⟨choice, hchoice, hrule⟩ := memberFrom_eq_bind ⟨i, first⟩
  rw [hchoice] at h
  simp only [run, bind_eq_ok_iff, current_eq_ok_iff] at h
  obtain ⟨_, _, ⟨rfl, rfl⟩, h⟩ := h
  have hrule := (hrule (Cursor.current ⟨i + 1, rest, r.stop⟩) _).mpr rfl
  generalize choice (Cursor.current ⟨i + 1, rest, r.stop⟩) = rule at h hrule
  cases hrule with
  | field hdot =>
    obtain ⟨f, next, s, rest, rfl, rfl, rfl, hs⟩ :=
      (fieldFrom_reads note).returning_ok (fun _ _ _ h ↦ h.exists_cons_cons) hfirst h
    have hdot : next.is .dot := Symbol.is_iff.mpr hdot
    exact ⟨next :: s, rest, rfl, rfl, .field hs (by simp [Body.readsField, hdot])⟩
  | message hword _ =>
    obtain ⟨s, rest, rfl, rfl, hs⟩ := messageFrom_reads note hinner hword h
    exact ⟨s, rest, rfl, rfl, .message hs⟩
  | enumType hword _ => exact (enumFrom_reads note).returning (fun _ _ _ ↦ .enumType) hword h
  | extend hword hdot =>
    obtain ⟨s, rest, rfl, rfl, hs⟩ := extendFrom_reads note hinner hne hword h
    obtain ⟨_, next, t, hst⟩ := Member.DerivesExtend.exists_cons_cons hs
    obtain ⟨rfl, rfl⟩ := List.cons.inj hst
    exact ⟨next :: t, rest, rfl, rfl, .extend hs hdot⟩
  | extensions hword hdot =>
    obtain ⟨x, next, s, rest, rfl, rfl, rfl, hs⟩ :=
      (extensionsFrom_reads note).returning_ok (fun _ _ _ h ↦ h.exists_cons_cons) hword h
    exact ⟨next :: s, rest, rfl, rfl, .extensions hs hdot⟩
  | setting hword _ => exact (settingFrom_reads note).returning (fun _ _ _ ↦ .setting) hword h
  | oneOf hword _ => exact (oneOfFrom_reads note).returning (fun _ _ _ ↦ .oneOf) hword h
  | reserved hword hdot =>
    obtain ⟨x, next, s, rest, rfl, rfl, rfl, hs⟩ :=
      (reservedFrom_reads note).returning_ok (fun _ _ _ h ↦ h.exists_cons_cons) hword h
    exact ⟨next :: s, rest, rfl, rfl, .reserved hs hdot⟩
  | mapField hword _ => exact (mapFieldFrom_reads note).returning (fun _ _ _ ↦ .mapField) hword h
  | fieldOrGroup hwords _ _ =>
    exact fieldOrGroupFrom_ok note hinner hne hfirst
      (fun hgroup ↦ Body.readsField_of_not_word hgroup hwords) h

end Blocks

/-! ## Services -/

theorem endpoint_reads :
    r.Reads endpoint (.under (Prod.map id (TypeRef.map note)) (Rpc.Endpoint note)) := by
  intro i rest x c' h
  simp only [run, endpoint, bind_eq_ok_iff, current_eq_ok_iff] at h
  obtain ⟨_, c₁, el, _, _, ⟨rfl, rfl⟩, h⟩ := h
  obtain ⟨l, rest, rfl, rfl, rfl, hl⟩ := expect_ok el nofun
  -- A type that is no stream, and the parenthesis behind it.
  have plain {s rest' : List Symbol} {type : TypeRef Extent} {e : Entry}
      (htype : rest' ≠ [] → (type.map note).Derives note (i + 1) s) (hrest : rest = s ++ rest')
      (hstream : ∀ first t, s = first :: t → first.isWord "stream" → t = [])
      (er : r.run (expect .rightParen) (i + 1 + s.length) rest' = .ok (e, c')) :
      ∃ u rest', l :: rest = u ++ rest' ∧ c' = ⟨i + u.length, rest', r.stop⟩ ∧
        (rest' ≠ [] →
          (Rpc.Endpoint note).under (Prod.map id (TypeRef.map note)) i (false, type) u) := by
    subst hrest
    obtain ⟨right, rest, rfl, rfl, rfl, hr⟩ := expect_ok er nofun
    have htype := htype (List.cons_ne_nil _ _)
    obtain ⟨first, t, rfl, -⟩ := htype.exists_cons
    refine ⟨l :: first :: (t ++ [right]), rest, by simp, by simp; omega, fun _ ↦ ?_⟩
    exact .plain hl htype (hstream first t rfl) hr
  split at h
  · rename_i hword
    simp only [bind_eq_ok_iff, current_eq_ok_iff] at h
    obtain ⟨e, c₁, etake, _, _, ⟨rfl, rfl⟩, h⟩ := h
    have hk := Symbol.kind_of_isWord hword
    obtain ⟨word, rest, rfl, rfl, rfl⟩ := take_ok etake (hk ▸ nofun)
    split at h
    · rename_i hparen
      simp only [bind_eq_ok_iff, pure_eq_ok_iff] at h
      obtain ⟨type, c₂, etype, _, c₃, er, rfl, rfl⟩ := h
      have hstarts : startsType word := Bool.or_eq_true_iff.mpr (.inl (Symbol.isName_of_kind hk))
      obtain ⟨s, rest, rfl, rfl, hs⟩ := typeRefFrom_ok note hstarts etype
      have hlen : i + 1 + 1 + s.length = i + 1 + (word :: s).length := by simp; omega
      refine plain (s := word :: s) hs rfl ?_ (hlen ▸ er)
      rintro _ (_ | ⟨next, t⟩) ⟨⟩ -
      · rfl
      · obtain ⟨right, rest, rfl, -⟩ := expect_ok er nofun
        have hdot := (hs (List.cons_ne_nil _ _)).kind_of_cons_cons (hk ▸ nofun)
        exact nomatch hdot.symm.trans (Symbol.is_iff.mp hparen)
    · simp only [bind_eq_ok_iff, pure_eq_ok_iff] at h
      obtain ⟨type, c₂, etype, _, c₃, er, rfl, rfl⟩ := h
      obtain ⟨s, rest, rfl, rfl, hs⟩ := typeRef_reads note etype
      obtain ⟨right, rest, rfl, rfl, rfl, hr⟩ := expect_ok er nofun
      refine ⟨l :: word :: (s ++ [right]), rest, by simp, by simp; omega, fun _ ↦ ?_⟩
      exact .stream hl hword (hs (List.cons_ne_nil _ _)) hr
  · rename_i hword
    simp only [bind_eq_ok_iff, pure_eq_ok_iff] at h
    obtain ⟨type, c₂, etype, _, c₃, er, rfl, rfl⟩ := h
    obtain ⟨s, rest, rfl, rfl, hs⟩ := typeRef_reads note etype
    refine plain hs rfl ?_ er
    rintro first t rfl hfirst
    exact absurd hfirst hword

theorem rpcEnd_reads :
    r.ReadsWhole rpcEnd (.under (List.map (Setting.map note)) (Rpc.End note)) := by
  intro i rest x c' h
  simp only [run, rpcEnd, bind_eq_ok_iff, current_eq_ok_iff] at h
  obtain ⟨_, _, ⟨rfl, rfl⟩, h⟩ := h
  split at h
  · obtain ⟨s, rest, rfl, rfl, hs⟩ := block_reads (settingFrom_reads note) h
    exact ⟨s, rest, rfl, rfl, .block (hs.imp fun _ _ _ h ↦ h)⟩
  · simp only [bind_eq_ok_iff, pure_eq_ok_iff] at h
    obtain ⟨_, c₁, esemi, rfl, rfl⟩ := h
    obtain ⟨semi, rest, rfl, rfl, rfl, hsemi⟩ := expect_ok esemi nofun
    exact ⟨[semi], rest, rfl, rfl, .semicolon hsemi⟩

theorem rpcFrom_reads :
    r.ReadsBehind (·.isWord "rpc") rpcFrom (.under (Rpc.map note) (Rpc.Derives note)) := by
  intro i word rest x c' hword h
  simp only [run, rpcFrom, bind_eq_ok_iff, extentFrom_eq_ok_iff, pure_eq_ok_iff] at h
  obtain ⟨_, c₁, ename, ⟨inputStream, input⟩, c₂, ein, _, c₃, ereturns, ⟨outputStream, output⟩, c₄,
    eout, options, c₅, eend, _, _, ⟨rfl, rfl⟩, rfl, rfl⟩ := h
  obtain ⟨_, rest, rfl, rfl, @⟨_, name, hname⟩⟩ := name_reads ename
  obtain ⟨s, rest, rfl, rfl, hs⟩ := endpoint_reads note ein
  obtain ⟨returns, rest, rfl, rfl, rfl, hreturns⟩ := expectWord_ok ereturns
  obtain ⟨t, rest, rfl, rfl, ht⟩ := endpoint_reads note eout
  obtain ⟨u, rest, rfl, rfl, hu⟩ := rpcEnd_reads note eend
  have hlen : i + 1 + 1 + s.length + 1 + t.length + u.length =
      i + (word :: name :: (s ++ returns :: (t ++ u))).length := by
    simp
    omega
  refine ⟨name :: (s ++ returns :: (t ++ u)), rest, by simp, by simp; omega, ?_⟩
  rw [List.length_singleton, hlen]
  exact .mk hword hname (hs (List.cons_ne_nil _ _)) hreturns (ht (by simp [hu.ne_nil])) hu

theorem serviceItem_reads :
    r.ReadsBehind (fun s ↦ s.isWord "option" || s.isWord "rpc") serviceItem
      (.under (ServiceItem.map note) (ServiceItem.Derives note)) := by
  intro i first rest x c' hfirst h
  simp only [run, serviceItem] at h
  split at h
  · rename_i hword
    exact (settingFrom_reads note).returning (fun _ _ _ ↦ .setting) hword h
  · rename_i hword
    have hword : first.isWord "rpc" := by simpa [hword] using hfirst
    exact (rpcFrom_reads note).returning (fun _ _ _ ↦ .rpc) hword h

theorem serviceFrom_reads :
    r.ReadsBehind (·.isWord "service") serviceFrom
      (.under (Service.map note) (Service.Derives note)) := by
  intro i word rest x c' hword h
  simp only [run, serviceFrom, bind_eq_ok_iff, extentFrom_eq_ok_iff, pure_eq_ok_iff] at h
  obtain ⟨_, c₁, ename, items, c₂, eitems, _, _, ⟨rfl, rfl⟩, rfl, rfl⟩ := h
  obtain ⟨_, rest, rfl, rfl, @⟨_, name, hname⟩⟩ := name_reads ename
  obtain ⟨s, rest, rfl, rfl, hs⟩ := block_reads (serviceItem_reads note) eitems
  have hlen : i + 1 + 1 + s.length = i + (word :: name :: s).length := by simp; omega
  refine ⟨name :: s, rest, rfl, by simp; omega, ?_⟩
  rw [List.length_singleton, hlen]
  exact .mk hword hname (hs.imp fun _ _ _ h ↦ h)

/-! ## Files -/

/-- The modifier of an import is one word or none. -/
theorem importModifier_ok {x : Option ImportModifier}
    (h : r.run importFrom.importModifier i rest = .ok (x, c')) :
    ∃ s rest', rest = s ++ rest' ∧ c' = ⟨i + s.length, rest', r.stop⟩ ∧ Import.Modifier x s := by
  simp only [run, importFrom.importModifier, bind_eq_ok_iff, current_eq_ok_iff] at h
  obtain ⟨_, _, ⟨rfl, rfl⟩, h⟩ := h
  have taken (m : ImportModifier) (hword : (rest.headD r.stop).isWord m.word)
      (h : r.run (take >>= fun _ ↦ pure (some m)) i rest = .ok (x, c')) :
      ∃ s rest', rest = s ++ rest' ∧ c' = ⟨i + s.length, rest', r.stop⟩ ∧ Import.Modifier x s := by
    obtain ⟨e, c₁, etake, hpure⟩ := bind_eq_ok_iff.mp h
    obtain ⟨rfl, rfl⟩ := pure_eq_ok_iff.mp hpure
    obtain ⟨s, rest, rfl, rfl, rfl⟩ := take_ok etake (Symbol.kind_of_isWord hword ▸ nofun)
    exact ⟨[s], rest, rfl, rfl, .some hword⟩
  split at h
  · rename_i hword
    exact taken .weak hword h
  · split at h
    · rename_i hword
      exact taken .transitive hword h
    · obtain ⟨rfl, rfl⟩ := pure_eq_ok_iff.mp h
      exact ⟨[], rest, rfl, rfl, .none⟩

theorem importFrom_reads :
    r.ReadsBehind (·.isWord "import") importFrom
      (.under (Import.map note) (Import.Derives note)) := by
  intro i word rest x c' hword h
  simp only [run, importFrom, bind_eq_ok_iff, extentFrom_eq_ok_iff, pure_eq_ok_iff] at h
  obtain ⟨m, c₁, em, file, c₂, efile, _, c₃, esemi, _, _, ⟨rfl, rfl⟩, rfl, rfl⟩ := h
  obtain ⟨s, rest, rfl, rfl, hs⟩ := importModifier_ok em
  obtain ⟨t, rest, rfl, rfl, ht⟩ := stringText_reads efile
  obtain ⟨semi, rest, rfl, rfl, rfl, hsemi⟩ := expect_ok esemi nofun
  have hlen : i + 1 + s.length + t.length + 1 = i + (word :: (s ++ (t ++ [semi]))).length := by
    simp
    omega
  refine ⟨s ++ (t ++ [semi]), rest, by simp, by simp; omega, ?_⟩
  rw [hlen]
  exact .mk hword hs ht hsemi

theorem packageFrom_reads :
    r.ReadsBehind (·.isWord "package") packageFrom
      (.under (Package.map note) (Package.Derives note)) := by
  intro i word rest x c' hword h
  simp only [run, packageFrom, bind_eq_ok_iff, extentFrom_eq_ok_iff, pure_eq_ok_iff] at h
  obtain ⟨n, c₁, en, _, c₂, esemi, _, _, ⟨rfl, rfl⟩, rfl, rfl⟩ := h
  obtain ⟨s, rest, rfl, rfl, hs⟩ := fullName_reads note en
  obtain ⟨semi, rest, rfl, rfl, rfl, hsemi⟩ := expect_ok esemi nofun
  have hlen : i + 1 + s.length + 1 = i + (word :: (s ++ [semi])).length := by simp; omega
  refine ⟨s ++ [semi], rest, by simp, by simp; omega, ?_⟩
  rw [hlen]
  exact .mk hword (hs (List.cons_ne_nil _ _)) hsemi

theorem versionStatement_reads :
    r.ReadsWhole versionStatement
      (.under (Option.map (VersionStatement.map note)) (VersionStatement.Optional note)) := by
  intro i rest x c' h
  simp only [run, versionStatement, bind_eq_ok_iff] at h
  obtain ⟨word?, c₁, eword, h⟩ := h
  rcases takeWord_ok eword with ⟨rfl, rfl, -⟩ | ⟨word, rest, rfl, rfl, rfl, hword⟩
  · obtain ⟨rfl, rfl⟩ := pure_eq_ok_iff.mp h
    exact ⟨[], rest, rfl, rfl, .none⟩
  · simp only [bind_eq_ok_iff, current_eq_ok_iff] at h
    obtain ⟨_, c₁, eeq, _, _, ⟨rfl, rfl⟩, text, c₂, etext, h⟩ := h
    obtain ⟨eq, rest, rfl, rfl, rfl, heq⟩ := expect_ok eeq nofun
    obtain ⟨s, rest, rfl, rfl, hs⟩ := stringText_reads etext
    split at h
    · rename_i v hv
      simp only [bind_eq_ok_iff, extentFrom_eq_ok_iff, pure_eq_ok_iff] at h
      obtain ⟨_, c₃, esemi, _, _, ⟨rfl, rfl⟩, rfl, rfl⟩ := h
      obtain ⟨semi, rest, rfl, rfl, rfl, hsemi⟩ := expect_ok esemi nofun
      have hlen : i + 1 + 1 + s.length + 1 = i + (word :: eq :: (s ++ [semi])).length := by
        simp
        omega
      refine ⟨word :: eq :: (s ++ [semi]), rest, by simp, by simp; omega, ?_⟩
      rw [hlen]
      exact .some (.mk hword heq hs hv hsemi)
    · cases h

/-! ## Bodies within bodies -/

/-- The bodies of blocks are derived as deep as the rules read them. -/
theorem readBody_reads (config : Config) {stop : Symbol} (hstop : stop.kind = .eof) (depth : Nat)
    (b : Body) :
    ReadsWhole ⟨config, readBody config depth, stop, hstop⟩ (Rule.nested b)
      (.under (List.map (Member.map note)) (Body.Derives Integer config note depth b)) := by
  induction depth generalizing b with
  | zero => intro i rest xs c' h; cases h
  | succ depth ih =>
    intro i rest xs c' h
    have hbody : run ⟨config, readBody config depth, stop, hstop⟩ (body b) i rest = .ok (xs, c') :=
      h
    cases b with
    | message =>
      obtain ⟨s, rest, rfl, rfl, hs⟩ :=
        block_reads (memberFrom_reads note ih Body.Derives.ne_nil) hbody
      exact ⟨s, rest, rfl, rfl, hs.imp fun _ _ _ h ↦ h⟩
    | extension =>
      have hmember : ReadsBehind ⟨config, readBody config depth, stop, hstop⟩
          (fun s ↦ startsType s) fieldOrGroupFrom (.under (Member.map note)
            (Member.Derives Integer config note (Body.Derives Integer config note depth)
              .extension)) := by
        intro i first rest x c' hfirst h
        exact fieldOrGroupFrom_ok note ih Body.Derives.ne_nil hfirst
          (fun hgroup ↦ by simpa [Body.readsField] using hgroup) h
      obtain ⟨s, rest, rfl, rfl, hs⟩ := block_reads hmember hbody
      exact ⟨s, rest, rfl, rfl, hs.imp fun _ _ _ h ↦ h⟩

/-- What reads a whole file. -/
def ofConfig (config : Config) {stop : Symbol} (hstop : stop.kind = .eof) : Reader :=
  ⟨config, readBody config config.maxDepth, stop, hstop⟩

variable {config : Config} {stop : Symbol} {hstop : stop.kind = .eof}

theorem kind_of_startsDirective {s : Symbol} (h : startsDirective s) : s.kind = .identifier := by
  obtain ⟨_, -, hword⟩ := startsDirective_iff.mp h
  exact Symbol.kind_of_isWord hword

theorem directiveFrom_reads :
    (ofConfig config hstop).ReadsBehind (fun s ↦ startsDirective s) directiveFrom
      (.under (Directive.map note) (Directive.Derives Integer config note)) := by
  have hinner := readBody_reads note config hstop config.maxDepth
  intro i first rest x c' hfirst h
  have hrule : DirectiveRule ⟨i, first⟩ _ := directiveRule_directiveFrom hfirst
  generalize directiveFrom ⟨i, first⟩ = rule at h hrule
  cases hrule with
  | importFile hword => exact (importFrom_reads note).returning (fun _ _ _ ↦ .importFile) hword h
  | package hword => exact (packageFrom_reads note).returning (fun _ _ _ ↦ .package) hword h
  | setting hword => exact (settingFrom_reads note).returning (fun _ _ _ ↦ .setting) hword h
  | message hword =>
    exact (messageFrom_reads note (r := ofConfig config hstop) hinner).returning
      (fun _ _ _ ↦ .message) hword h
  | enumType hword => exact (enumFrom_reads note).returning (fun _ _ _ ↦ .enumType) hword h
  | extend hword =>
    exact (extendFrom_reads note (r := ofConfig config hstop) hinner Body.Derives.ne_nil).returning
      (fun _ _ _ ↦ .extend) hword h
  | service hword => exact (serviceFrom_reads note).returning (fun _ _ _ ↦ .service) hword h

/-- A file is read up to an end. -/
theorem schema_ok {x : Schema Extent}
    (h : (ofConfig config hstop).run schema i rest = .ok (x, c')) :
    ∃ s rest', rest = s ++ rest' ∧ (x.map note).Derives Integer config note i s ∧
      (rest'.headD stop).kind = .eof := by
  simp only [run, schema, bind_eq_ok_iff, current_eq_ok_iff] at h
  obtain ⟨v?, c₁, ev, ds, c₂, eds, _, _, ⟨rfl, rfl⟩, h⟩ := h
  obtain ⟨s, rest, rfl, rfl, hs⟩ := versionStatement_reads note ev
  obtain ⟨t, rest, rfl, rfl, ht⟩ := statements_reads (directiveFrom_reads note) eds
  split at h
  · rename_i heof
    obtain ⟨rfl, rfl⟩ := pure_eq_ok_iff.mp h
    refine ⟨s ++ t, rest, by simp, .mk hs (ht.imp fun _ _ _ h ↦ h), ?_⟩
    exact Symbol.is_iff.mp heof
  · cases h

end Reader

end ProtoSchema
