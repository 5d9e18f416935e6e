import ProtoSchema.Proofs.Grammar.Breaking
import ProtoSchema.Proofs.Grammar.Filling

/-!
# Integers that do not fit

An integer in a gap may be too large, or too far below zero.  Then the rules come as far as the gap,
and fail there with the text of the integer; nothing behind it is looked at.

So as in `ProtoSchema.Proofs.Grammar.Breaking` a phrase says which symbols lead to the failure
(`Gap.Overflows`), and `Reader.schema_overflows` shows that the rules come to it.  What stands in
front of the gap is derived, and is read because the rules are complete.

## What is here

* `Phrase.Unfit` — the symbols of an integer that does not fit, and the failure at its numeral.
* `Gap.Overflows` — what stands in front of a gap, and such an integer in it.
* `Gap.Overflows.of_within`, `Gap.Overflows.statements`, `Gap.Overflows.block` — a gap in something
  larger, in one of several statements and in a block.
* `Field.Around.exists_before` to `Member.AroundGroup.exists_before` — the first symbols in front of
  a gap, by which a rule tells what it is to read.  They are the same whatever the gap is filled
  with.
* `Reader.integer_overflows` to `Reader.directiveFrom_overflows` — the rules, each of which fails
  where the rule that it is made of does.
* `Reader.readBody_overflows` — the bodies of blocks, by induction on the depth.
* `Reader.schema_overflows` — whole files.
-/

set_option autoImplicit false

namespace ProtoSchema

open Grammar Rule Phrase

/-! ## What leads to a failure -/

/-- An integer that does not fit, and the fault that is found at its numeral. -/
inductive Phrase.Unfit : Phrase Failure
  | mk {i : Nat} {n : Int} {s : List Symbol} (hs : Signed n s) (hn : ¬fitsInteger n) :
    Unfit i ⟨i + s.length - 1, .violation (.integerOutOfRange (spelled s))⟩ s

/-- It begins with a numeral or a minus sign. -/
theorem Phrase.Unfit.exists_cons {i : Nat} {e : Failure} {s : List Symbol} (h : Unfit i e s) :
    ∃ first t, s = first :: t ∧ (first.kind = .number ∨ first.kind = .minus) := by
  obtain ⟨hs, -⟩ := h
  exact hs.exists_cons

/-- So it begins with no symbol of another kind. -/
theorem Phrase.Unfit.exists_cons_ne {i : Nat} {e : Failure} {s : List Symbol} {kind : Kind}
    (h : Unfit i e s) (hkind : kind ≠ .number ∧ kind ≠ .minus) :
    ∃ first t, s = first :: t ∧ first.kind ≠ kind := by
  obtain ⟨first, t, rfl, hk⟩ := h.exists_cons
  refine ⟨first, t, rfl, ?_⟩
  rcases hk with hk | hk
  · exact hk ▸ hkind.1.symm
  · exact hk ▸ hkind.2.symm

/-- What stands in front of such a gap, and an integer that does not fit. -/
inductive Gap.Overflows {β : Type} (around : Gap .integer β → Prop) : Phrase Failure
  | mk {i : Nat} {g : Gap .integer β} {e : Failure} {s : List Symbol} (hg : around g)
    (hs : Unfit (i + g.before.length) e s) : Overflows around i e (g.before ++ s)

section

variable {β γ : Type} {around : Gap .integer β → Prop} {g : Gap .integer β} {f : β → γ}
  {u w s : List Symbol} {i : Nat} {e : Failure}

/-- The first two symbols, if there are as many in front of the gap. -/
theorem exists_next_of_before {P : Symbol → Symbol → Prop} {before : List Symbol} {first : Symbol}
    {t : List Symbol} (h : ∃ first next t, before = first :: next :: t ∧ P first next)
    (heq : before ++ s = first :: t) : ∃ next u, t = next :: u ∧ P first next := by
  obtain ⟨_, next, u, rfl, hP⟩ := h
  obtain ⟨rfl, rfl⟩ := List.cons.inj heq
  exact ⟨next, u ++ s, rfl, hP⟩

/-- The second symbol, which may be the first one in the gap. -/
theorem exists_next_of_tail {kind : Kind} {before : List Symbol} {first : Symbol} {t : List Symbol}
    (hs : Unfit i e s) (hne : before ≠ []) (hnext : ∀ next ∈ before.tail.head?, next.kind ≠ kind)
    (hkind : kind ≠ .number ∧ kind ≠ .minus) (heq : before ++ s = first :: t) :
    ∃ next u, t = next :: u ∧ next.kind ≠ kind := by
  obtain ⟨word, before, rfl⟩ := List.exists_cons_of_ne_nil hne
  obtain ⟨rfl, rfl⟩ := List.cons.inj heq
  obtain ⟨next, u, heq, hk⟩ := exists_cons_append hnext (hs.exists_cons_ne hkind) []
  exact ⟨next, u, by rwa [List.append_nil] at heq, hk⟩

/-- With more symbols in front of the gap, they are read first. -/
theorem Gap.Overflows.of_within (hg : around g)
    (hs : Unfit (i + (g.within u f w).before.length) e s) :
    ∃ t, (g.within u f w).before ++ s = u ++ t ∧ Overflows around (i + u.length) e t := by
  refine ⟨g.before ++ s, List.append_assoc _ _ _, hg, ?_⟩
  rwa [within, List.length_append, ← Nat.add_assoc] at hs

/-- A gap in one of several statements: the statements in front of it are read. -/
theorem Gap.Overflows.statements {p : Phrase β} (h : Overflows (Statements.Around p around) i e s) :
    ((Statements p).Then (Overflows around)) i e s := by
  obtain ⟨⟨hxs, hg, -⟩, hs⟩ := h
  obtain ⟨t, ht, he⟩ := of_within hg hs
  rw [ht]
  exact .mk (hxs i) he

/-- A gap in a block: behind the brace come the statements. -/
theorem Gap.Overflows.block {p : Phrase β} (h : Overflows (Block.Around p around) i e s) :
    OpenBlock p (Overflows around) i e s := by
  obtain ⟨⟨hl, hg, -⟩, hs⟩ := h
  obtain ⟨t, ht, he⟩ := of_within hg hs
  rw [ht]
  exact .mk hl he.statements

/-- The body of a block begins with its brace. -/
theorem Gap.Overflows.exists_brace {config : Config} {depth : Nat} {b : Body}
    (h : Overflows (Body.Around config depth b .integer) i e s) :
    ∃ l t, s = l :: t ∧ l.kind = .leftBrace := by
  obtain ⟨hg, hs⟩ := h
  cases depth with
  | zero => exact hg.elim
  | succ depth =>
    obtain ⟨hl, -⟩ := hg
    exact ⟨_, _, rfl, hl⟩

end

/-! ## What stands in front -/

/-- With a number in the gap it is a field, so it begins like one. -/
theorem Field.Around.exists_before {config : Config} {g : Gap .integer (Field Unit)}
    {P : Symbol → Symbol → Prop} (hg : Field.Around config .integer g)
    (h : ∃ first next t, g.before = first :: next :: t ∧ P first next) :
    ∃ first next t, g.before = first :: next :: t ∧ startsType next ∧ P first next := by
  obtain ⟨first, next, t, hbefore, hP⟩ := h
  have hzero : Slot.integer.Fills 0 [.numeral ['0'] (.integer 0)] := ⟨.plain rfl rfl, by decide⟩
  have hfield := hg.carries hzero 0
  rw [hbefore] at hfield
  exact ⟨first, next, t, hbefore, hfield.startsType_next, hP⟩

/-- A map field with a gap begins with `map` and a mark. -/
theorem MapField.Around.exists_before {config : Config} {slot : Slot} {g : Gap slot (MapField Unit)}
    (h : MapField.Around config slot g) :
    ∃ word less t, g.before = word :: less :: t ∧ less.kind = .less := by
  obtain ⟨-, hless⟩ := h
  exact ⟨_, _, _, rfl, hless⟩

/-- A oneof with a gap begins with its word and its name. -/
theorem OneOf.Around.exists_before {config : Config} {slot : Slot} {g : Gap slot (OneOf Unit)}
    (h : OneOf.Around config slot g) :
    ∃ word name t, g.before = word :: name :: t ∧ name.isName := by
  obtain ⟨-, hname⟩ := h
  exact ⟨_, _, _, rfl, hname⟩

theorem Member.AroundMessage.exists_before {slot : Slot}
    {around : Body → (slot : Slot) → Gap slot (List (Member Unit)) → Prop}
    {g : Gap slot (Member Unit)} (h : AroundMessage around slot g) :
    ∃ word name t, g.before = word :: name :: t ∧ name.isName := by
  obtain ⟨-, hname⟩ := h
  exact ⟨_, _, _, rfl, hname⟩

/-- So does an enum. -/
theorem EnumType.Around.exists_before {slot : Slot} {g : Gap slot (EnumType Unit)}
    (h : EnumType.Around slot g) :
    ∃ word name t, g.before = word :: name :: t ∧ name.isName := by
  obtain ⟨-, hname⟩ := h
  exact ⟨_, _, _, rfl, hname⟩

theorem Member.AroundGroup.exists_before {config : Config} {slot : Slot}
    {inner : Body → Phrase (List (Member Unit))}
    {around : Body → (slot : Slot) → Gap slot (List (Member Unit)) → Prop}
    {g : Gap slot (Member Unit)} (h : AroundGroup config inner around slot g) :
    ∃ l word t, g.before = l :: word :: t ∧ word.isWord "group" := by
  cases h with
  | header _ hword | body _ hword => exact ⟨_, _, _, rfl, hword⟩

namespace Reader

variable {α β : Type} {r : Reader} {i : Nat} {e : Failure} {s t : List Symbol}

/-! ## Numbers -/

theorem integer_overflows : r.Breaks integer Unfit := by
  rintro i _ s ⟨hs, hn⟩ rest
  have hspelling {s : Symbol} (hk : s.kind = .number) : s.spelling = s.lexeme := by
    rw [Symbol.spelling, hk]
    rfl
  cases hs with
  | @plain s n hk hv =>
    have hminus : ¬s.is .minus := fun h ↦
      absurd (hk.symm.trans (Symbol.is_iff.mp h)) (by decide)
    refine bind_error_of_ok (run_takeIf_none hminus) (bind_error_of_ok (run_current _) ?_)
    simp only [List.cons_append, current_cons, hv]
    refine bind_error_of_ok run_take ?_
    simp only [Option.isSome_none, Bool.false_eq_true, if_false, hn, spelled_cons, hspelling hk]
    simp [Rule.run]
  | @negative minus s n hm hk hv =>
    show r.run integer i (minus :: s :: rest) = _
    refine bind_error_of_ok (run_takeIf (Symbol.is_iff.mpr hm))
      (bind_error_of_ok (run_current _) ?_)
    simp only [current_cons, hv]
    refine bind_error_of_ok run_take ?_
    simp only [Option.isSome_some, if_true, hn, spelled_cons, hspelling hk,
      Symbol.spelling_of_kind hm rfl]
    simp [Rule.run]

theorem fieldNumber_overflows : r.Breaks fieldNumber Unfit :=
  fun _ _ _ h rest ↦ bind_error_of_ok (run_current _) (bind_error (integer_overflows h rest))

theorem range_overflows : r.Breaks range (Gap.Overflows NumberRange.Around) := by
  rintro i e _ ⟨hg, hs⟩ rest
  cases hg with
  | single | toMax | low => exact bind_error (integer_overflows hs rest)
  | @high n mid t hn hto =>
    obtain ⟨first, u, rfl, hk⟩ := hs.exists_cons
    have hmax : ¬first.isWord "max" := fun hword ↦ by
      rcases hk with hk | hk <;> exact nomatch hk.symm.trans (Symbol.kind_of_isWord hword)
    have hlen : i + (t ++ [mid]).length = i + t.length + 1 := by simp; omega
    have herror := integer_overflows (r := r) hs rest
    rw [hlen] at herror
    rw [List.append_assoc, List.append_assoc]
    exact bind_error_of_ok (run_integer (hn i)) (bind_error_of_ok (run_takeIf hto)
      (bind_error_of_ok (run_takeIf_none hmax) (bind_error herror)))

theorem separated_overflows {follows : Symbol → Prop} {item : Rule α} {f : α → β} {p : Phrase β}
    {around : Gap .integer β → Prop} (hitem : r.Accepts follows item f p)
    (hfollows : ∀ s, s.kind = .comma → follows s) (hover : r.Breaks item (Gap.Overflows around)) :
    r.Breaks (separated item) (Gap.Overflows (Separated.Around p around)) := by
  rintro i e _ ⟨hg, hs⟩ rest
  cases hg with
  | first hg hxs =>
    obtain ⟨t, ht, he⟩ := Gap.Overflows.of_within hg hs
    rw [ht, List.nil_append]
    exact bind_error (hover he rest)
  | @next g comma _ _ _ _ hxs hcomma hg =>
    obtain ⟨t, ht, he⟩ := Gap.Overflows.of_within hg hs
    obtain @⟨_, x, xs, s, u, hx, hmany⟩ := hxs i
    have hnext : follows ((u ++ (comma :: t ++ rest)).headD r.stop) := by
      cases hmany with
      | nil => exact hfollows comma hcomma
      | cons hy =>
        obtain ⟨hy, -⟩ := hy
        exact hfollows _ hy
    have hbehind : r.BreaksBehind (fun s ↦ s.is .comma) (fun _ ↦ item)
        (Behind .comma (Gap.Overflows around)) := by
      rintro i e _ ⟨hmark, he⟩
      exact ⟨_, _, rfl, Symbol.is_iff.mpr hmark, hover he⟩
    have hlen : i + (s ++ u ++ [comma]).length = i + s.length + u.length + 1 := by simp; omega
    rw [hlen] at he
    obtain ⟨x, -, ex⟩ := hitem hx _ hnext
    have herror := many_breaks (behind_accepts hitem) (fun s hs ↦ hfollows s (Symbol.is_iff.mp hs))
      hbehind ⟨hmany, .mk hcomma he⟩ rest
    rw [ht]
    simp only [List.append_assoc, List.cons_append, List.nil_append] at ex herror ⊢
    exact bind_error_of_ok ex (bind_error herror)

theorem ranges_overflow : r.Breaks (separated range) (Gap.Overflows RangesAround) :=
  separated_overflows range_accepts
    (fun _ hcomma hto ↦ nomatch hcomma.symm.trans (Symbol.kind_of_isWord hto)) range_overflows

/-! ## Fields -/

theorem run_numbered_overflows (h : Gap.Overflows (Numbered.Around r.config .integer) i e t)
    {next : String → Int → List (Setting Extent) → Rule β} (rest : List Symbol) :
    r.run (do
      let name ← Grammar.name
      let _ ← expect .equal
      let number ← fieldNumber
      let options ← bracketedSettings
      next name number options) i (t ++ rest) = .error e := by
  obtain ⟨hg, hs⟩ := h
  cases hg with
  | number hname heq =>
    exact bind_error_of_ok (run_name hname) (bind_error_of_ok (run_expect heq)
      (bind_error (fieldNumber_overflows hs rest)))

theorem other_dot_of_overflows {config : Config}
    (h : Gap.Overflows (Numbered.Around config .integer) i e t) (rest : List Symbol) :
    Other .dot ((t ++ rest).headD r.stop) := by
  obtain ⟨hg, -⟩ := h
  cases hg with
  | number hname => exact Symbol.kind_ne_of_isName hname nofun nofun

/-- A field fails at its number.  Its options have no gap for an integer. -/
theorem fieldFrom_overflows :
    r.BreaksBehind (fun s ↦ startsType s) fieldFrom
      (Gap.Overflows (Field.Around r.config .integer)) := by
  rintro i e _ ⟨hg, hs⟩
  cases hg with
  | @labelled g l semi label type s hl htype hg =>
    obtain ⟨t, ht, he⟩ := Gap.Overflows.of_within hg hs
    rw [ht]
    refine ⟨l, s ++ t, rfl, startsType_of_isWord (isWord_of_labelOf? hl), fun rest ↦ ?_⟩
    obtain ⟨type, -, etype⟩ :=
      typeRef_accepts noNote (htype (i + 1)) (t ++ rest) (other_dot_of_overflows he rest)
    have hlen : i + (l :: s).length = i + 1 + s.length := by simp; omega
    rw [hlen] at he
    rw [List.append_assoc]
    simp only [run, fieldFrom, hl, Option.isSome_some, if_true]
    exact bind_error_of_ok etype (run_numbered_overflows he rest)
  | @plain g first semi type s hl htype hg =>
    obtain ⟨t, ht, he⟩ := Gap.Overflows.of_within hg hs
    obtain ⟨hfirst, hrun⟩ := (typeRefFrom_accepts noNote (r := r)).of_cons (htype i)
    rw [ht]
    refine ⟨first, s ++ t, rfl, hfirst, fun rest ↦ ?_⟩
    obtain ⟨type, -, etype⟩ := hrun (t ++ rest) (other_dot_of_overflows he rest)
    rw [List.append_assoc]
    simp only [run, fieldFrom, hl, Option.isSome_none, Bool.false_eq_true, if_false]
    exact bind_error_of_ok etype (run_numbered_overflows he rest)

theorem mapFieldFrom_overflows :
    r.BreaksBehind (·.isWord "map") mapFieldFrom
      (Gap.Overflows (MapField.Around r.config .integer)) := by
  rintro i e _ ⟨hg, hs⟩
  cases hg with
  | @mk g word less key comma greater semi type s hword hless hkey hcomma htype hgreater hg =>
    obtain ⟨t, ht, he⟩ := Gap.Overflows.of_within hg hs
    rw [ht]
    refine ⟨word, less :: key :: comma :: (s ++ [greater] ++ t), rfl, hword, fun rest ↦ ?_⟩
    obtain ⟨type, -, etype⟩ := typeRef_accepts noNote (htype (i + 1 + 1 + 1 + 1))
      (greater :: (t ++ rest)) (other_of_kind hgreater nofun)
    have hlen : i + (word :: less :: key :: comma :: (s ++ [greater])).length =
        i + 1 + 1 + 1 + 1 + s.length + 1 := by simp; omega
    rw [hlen] at he
    simp only [List.cons_append, List.append_assoc, List.nil_append]
    exact bind_error_of_ok (run_expect hless) (bind_error_of_ok (run_expect hkey)
      (bind_error_of_ok (run_expect hcomma) (bind_error_of_ok etype
        (bind_error_of_ok (run_expect hgreater) (run_numbered_overflows he rest)))))

theorem enumValueFrom_overflows :
    r.BreaksBehind (fun s ↦ s.isName) enumValueFrom
      (Gap.Overflows (Field.AroundValue .integer)) := by
  rintro i e _ ⟨hg, hs⟩
  cases hg with
  | number hname heq =>
    exact ⟨_, _, rfl, hname, fun rest ↦
      bind_error_of_ok (run_expect heq) (bind_error (integer_overflows hs rest))⟩

/-! ## Statements -/

theorem extensionsFrom_overflows :
    r.BreaksBehind (·.isWord "extensions") extensionsFrom
      (Gap.Overflows (Extensions.Around .integer)) := by
  rintro i e _ ⟨hg, hs⟩
  cases hg with
  | @ranges g word _ _ _ hword hg =>
    obtain ⟨t, ht, he⟩ := Gap.Overflows.of_within hg hs
    rw [ht]
    exact ⟨word, t, rfl, hword, fun rest ↦ bind_error (ranges_overflow he rest)⟩

theorem reservedFrom_overflows :
    r.BreaksBehind (·.isWord "reserved") reservedFrom (Gap.Overflows Reserved.Around) := by
  rintro i e _ @⟨_, _, _, s, hg, hs⟩
  cases hg with
  | @mk g word semi hword hg hfirst =>
    have hstart : ∃ first t, s = first :: t ∧ first.kind ≠ .string :=
      hs.exists_cons_ne ⟨nofun, nofun⟩
    obtain ⟨t, ht, he⟩ := Gap.Overflows.of_within hg hs
    obtain rfl : g.before ++ s = t := (List.cons.inj ht).2
    refine ⟨word, g.before ++ s, rfl, hword, fun rest ↦
      bind_error (bind_error_of_ok (run_current _) ?_)⟩
    have herror := ranges_overflow he rest (r := r)
    obtain ⟨first, t, heq, hk⟩ := exists_cons_append hfirst hstart rest
    rw [heq] at herror ⊢
    rw [current_cons, if_neg fun hstring ↦ hk (Symbol.is_iff.mp hstring)]
    exact bind_error herror

/-! ## Oneofs and enums -/

theorem oneOfItem_overflows :
    r.BreaksBehind (fun s ↦ startsType s) oneOfItem
      (Gap.Overflows (OneOfItem.Around r.config .integer)) := by
  rintro i e _ @⟨_, _, _, s, hg, hs⟩
  cases hg with
  | @field _ g hg hfirst =>
    obtain ⟨first, t, heq, hstarts, hrun⟩ := fieldFrom_overflows ⟨hg, hs⟩
    obtain ⟨next, u, rfl, hfirst⟩ := exists_next_of_before hfirst heq
    exact ⟨first, _, heq, hstarts,
      fun rest ↦ (run_oneOfItem_field hfirst).trans (bind_error (hrun rest))⟩

theorem oneOfFrom_overflows :
    r.BreaksBehind (·.isWord "oneof") oneOfFrom
      (Gap.Overflows (OneOf.Around r.config .integer)) := by
  rintro i e _ ⟨hg, hs⟩
  cases hg with
  | @mk g word name hword hname hg =>
    obtain ⟨t, ht, he⟩ := Gap.Overflows.of_within hg hs
    rw [ht]
    refine ⟨word, name :: t, rfl, hword, fun rest ↦ ?_⟩
    exact bind_error_of_ok (run_name hname) (bind_error (block_breaks (oneOfItem_accepts noNote)
      oneOfItem_overflows .oneOfItem (fun s hs ↦ (other_of_startsType s hs).1) he.block rest))

theorem enumItem_overflows :
    r.BreaksBehind (fun s ↦ s.isName) enumItem (Gap.Overflows (EnumItem.Around .integer)) := by
  rintro i e _ @⟨_, _, _, s, hg, hs⟩
  cases hg with
  | @reserved g hg hnext =>
    obtain ⟨word, t, heq, hword, hrun⟩ := reservedFrom_overflows (r := r) ⟨hg, hs⟩
    obtain ⟨next, u, rfl, hk⟩ := exists_next_of_tail hs hg.ne_nil hnext ⟨nofun, nofun⟩ heq
    exact ⟨word, _, heq, Symbol.isName_of_kind (Symbol.kind_of_isWord hword), fun rest ↦
      (run_enumItem_reserved hword hk).trans (bind_error (hrun rest))⟩
  | @value _ g hg =>
    obtain ⟨name, t, heq, hname, hrun⟩ := enumValueFrom_overflows (r := r) ⟨hg, hs⟩
    have hequal : ∃ next u, t = next :: u ∧ next.kind = .equal := by
      cases hg with
      | number _ hequal =>
        obtain ⟨-, rfl⟩ := List.cons.inj heq
        exact ⟨_, _, rfl, hequal⟩
    obtain ⟨next, u, rfl, hequal⟩ := hequal
    exact ⟨name, _, heq, hname, fun rest ↦
      (run_enumItem_value hequal).trans (bind_error (hrun rest))⟩

theorem enumFrom_overflows :
    r.BreaksBehind (·.isWord "enum") enumFrom (Gap.Overflows (EnumType.Around .integer)) := by
  rintro i e _ ⟨hg, hs⟩
  cases hg with
  | @mk g word name hword hname hg =>
    obtain ⟨t, ht, he⟩ := Gap.Overflows.of_within hg hs
    rw [ht]
    refine ⟨word, name :: t, rfl, hword, fun rest ↦ ?_⟩
    exact bind_error_of_ok (run_name hname) (bind_error (block_breaks (enumItem_accepts noNote)
      enumItem_overflows .enumItem
        (fun s hs ↦ Symbol.kind_ne_of_isName hs nofun nofun) he.block rest))

/-! ## Blocks -/

section Blocks

variable {inner : Body → Phrase (List (Member Unit))}
  {around : Body → (slot : Slot) → Gap slot (List (Member Unit)) → Prop}

theorem breaksMessage_of_overflows
    (h : Gap.Overflows (Member.AroundMessage around .integer) i e s) :
    Member.BreaksMessage (fun b ↦ Gap.Overflows (around b .integer)) i e s := by
  obtain ⟨hg, hs⟩ := h
  cases hg with
  | mk hword hname hg =>
    obtain ⟨t, ht, he⟩ := Gap.Overflows.of_within hg hs
    rw [ht]
    exact .mk hword hname he

theorem breaksExtend_of_overflows
    (h : Gap.Overflows (Member.AroundExtend around .integer) i e s) :
    Member.BreaksExtend noNote (fun b ↦ Gap.Overflows (around b .integer)) i e s := by
  obtain ⟨hg, hs⟩ := h
  cases hg with
  | @mk g word type s hword htype hg =>
    obtain ⟨t, ht, he⟩ := Gap.Overflows.of_within hg hs
    have hlen : i + (word :: s).length = i + 1 + s.length := by simp; omega
    rw [hlen] at he
    rw [ht]
    exact .mk hword (htype _) he

variable (hinner : ∀ b, r.Breaks (Rule.nested b) (Gap.Overflows (around b .integer)))
  (hleft : ∀ {b i e s}, Gap.Overflows (around b .integer) i e s →
    ∃ l t, s = l :: t ∧ l.kind = .leftBrace)

include hinner hleft

theorem groupFrom_overflows :
    r.BreaksBehind (fun s ↦ ∃ label : Label, s.isWord label.word) fieldOrGroupFrom
      (Gap.Overflows (Member.AroundGroup r.config inner around .integer)) := by
  rintro i e _ ⟨hg, hs⟩
  cases hg with
  | @header g l word label _ _ hl hword hg =>
    obtain ⟨t, ht, he⟩ := Gap.Overflows.of_within hg hs
    rw [ht]
    refine ⟨l, word :: t, rfl, ⟨label, isWord_of_labelOf? hl⟩, fun rest ↦ ?_⟩
    refine bind_error_of_ok (run_current _) ?_
    simp only [List.cons_append, current_cons, hword, if_true, hl]
    exact bind_error_of_ok (run_expectWord hword) (run_numbered_overflows he rest)
  | @body g l word label name n options s hl hword hn hg =>
    obtain ⟨t, ht, he⟩ := Gap.Overflows.of_within hg hs
    obtain ⟨brace, u, rfl, hbrace⟩ := hleft he
    rw [ht]
    refine ⟨l, word :: (s ++ brace :: u), rfl, ⟨label, isWord_of_labelOf? hl⟩, fun rest ↦ ?_⟩
    obtain ⟨options, -, enumbered⟩ :=
      run_numbered noNote (hn (i + 2)) (brace :: u ++ rest) (other_of_kind hbrace nofun)
    have hlen : i + (l :: word :: s).length = i + 2 + s.length := by simp; omega
    rw [hlen] at he
    refine bind_error_of_ok (run_current _) ?_
    rw [List.cons_append, List.append_assoc]
    simp only [current_cons, hword, if_true, hl]
    exact bind_error_of_ok (run_expectWord hword) (enumbered.trans (bind_error (hinner _ he rest)))

theorem fieldOrGroupFrom_overflows :
    r.BreaksBehind (fun s ↦ startsType s) fieldOrGroupFrom
      (Gap.Overflows (Member.Around r.config inner around .extension .integer)) := by
  rintro i e _ @⟨_, _, _, s, hg, hs⟩
  cases hg with
  | @field _ _ g hg hb =>
    obtain ⟨first, t, heq, hstarts, hrun⟩ := fieldFrom_overflows ⟨hg, hs⟩
    obtain ⟨next, u, rfl, hb⟩ := exists_next_of_before hb heq
    exact ⟨first, _, heq, hstarts, fun rest ↦
      (run_fieldOrGroupFrom (by simpa [Body.readsField] using hb)).trans (bind_error (hrun rest))⟩
  | group hg =>
    obtain ⟨l, t, heq, ⟨label, hl⟩, hrun⟩ := groupFrom_overflows hinner hleft ⟨hg, hs⟩
    exact ⟨l, t, heq, startsType_of_isWord hl, hrun⟩

theorem memberFrom_overflows :
    r.BreaksBehind (fun s ↦ startsType s) memberFrom
      (Gap.Overflows (Member.Around r.config inner around .message .integer)) := by
  rintro i e _ @⟨_, _, _, s, hg, hs⟩
  cases hg with
  | @field _ _ g hg hb =>
    obtain ⟨first, t, heq, hstarts, hrun⟩ := fieldFrom_overflows ⟨hg, hs⟩
    obtain ⟨next, u, rfl, hnext, hb⟩ := exists_next_of_before (hg.exists_before hb) heq
    exact ⟨first, _, heq, hstarts, fun rest ↦
      (run_memberFrom_field hnext hb).trans (bind_error (hrun rest))⟩
  | group hg =>
    obtain ⟨l, t, heq, ⟨label, hl⟩, hrun⟩ := groupFrom_overflows hinner hleft ⟨hg, hs⟩
    obtain ⟨next, u, rfl, hnext⟩ := exists_next_of_before hg.exists_before heq
    exact member_breaks heq hl (.group hl hnext) hrun
  | message hg =>
    obtain ⟨word, t, heq, hword, hrun⟩ :=
      messageFrom_breaks hinner (breaksMessage_of_overflows ⟨hg, hs⟩)
    obtain ⟨name, u, rfl, hname⟩ := exists_next_of_before hg.exists_before heq
    exact member_breaks heq hword (.message hword (kind_ne_dot_of_isName hname)) hrun
  | enumType hg =>
    obtain ⟨word, t, heq, hword, hrun⟩ := enumFrom_overflows (r := r) ⟨hg, hs⟩
    obtain ⟨name, u, rfl, hname⟩ := exists_next_of_before hg.exists_before heq
    exact member_breaks heq hword (.enumType hword (kind_ne_dot_of_isName hname))
      fun rest ↦ bind_error (hrun rest)
  | extend hg hnext =>
    obtain ⟨word, t, heq, hword, hrun⟩ :=
      extendFrom_breaks noNote hinner hleft (breaksExtend_of_overflows ⟨hg, hs⟩)
    obtain ⟨next, u, rfl, hk⟩ := exists_next_of_tail hs hg.ne_nil hnext ⟨nofun, nofun⟩ heq
    exact member_breaks heq hword (.extend hword hk) hrun
  | extensions hg hnext =>
    obtain ⟨word, t, heq, hword, hrun⟩ := extensionsFrom_overflows (r := r) ⟨hg, hs⟩
    obtain ⟨next, u, rfl, hk⟩ := exists_next_of_tail hs hg.ne_nil hnext ⟨nofun, nofun⟩ heq
    exact member_breaks heq hword (.extensions hword hk) fun rest ↦ bind_error (hrun rest)
  | oneOf hg =>
    obtain ⟨word, t, heq, hword, hrun⟩ := oneOfFrom_overflows ⟨hg, hs⟩
    obtain ⟨name, u, rfl, hname⟩ := exists_next_of_before hg.exists_before heq
    exact member_breaks heq hword (.oneOf hword (kind_ne_dot_of_isName hname))
      fun rest ↦ bind_error (hrun rest)
  | reserved hg hnext =>
    obtain ⟨word, t, heq, hword, hrun⟩ := reservedFrom_overflows (r := r) ⟨hg, hs⟩
    obtain ⟨next, u, rfl, hk⟩ := exists_next_of_tail hs hg.ne_nil hnext ⟨nofun, nofun⟩ heq
    exact member_breaks heq hword (.reserved hword hk) fun rest ↦ bind_error (hrun rest)
  | mapField hg =>
    obtain ⟨word, t, heq, hword, hrun⟩ := mapFieldFrom_overflows ⟨hg, hs⟩
    obtain ⟨less, u, rfl, hless⟩ := exists_next_of_before hg.exists_before heq
    exact member_breaks heq hword (.mapField hword hless) fun rest ↦ bind_error (hrun rest)

end Blocks

/-- The rules for the bodies of blocks fail where an integer does not fit. -/
theorem readBody_overflows (config : Config) {stop : Symbol} (hstop : stop.kind = .eof)
    (depth : Nat) (b : Body) :
    Breaks ⟨config, readBody config depth, stop, hstop⟩ (Rule.nested b)
      (Gap.Overflows (Body.Around config depth b .integer)) := by
  induction depth generalizing b with
  | zero =>
    rintro i e _ ⟨hg, -⟩
    exact hg.elim
  | succ depth ih =>
    intro i e s h rest
    let r : Reader := ⟨config, readBody config depth, stop, hstop⟩
    have hinner := readBody_accepts noNote config hstop depth
    have hleft {b : Body} {i : Nat} {xs : List (Member Unit)} {s : List Symbol}
        (h : Body.Derives Integer config noNote depth b i xs s) := h.exists_cons
    have hleft' {b : Body} {i : Nat} {e : Failure} {s : List Symbol}
        (h : Gap.Overflows (Body.Around config depth b .integer) i e s) := h.exists_brace
    have hstarts (s : Symbol) (hs : startsType s) := (other_of_startsType s hs).1
    have hblock := Gap.Overflows.block h
    cases b with
    | message =>
      exact block_breaks (r := r) (memberFrom_accepts noNote hinner hleft)
        (memberFrom_overflows ih hleft') .member hstarts hblock rest
    | extension =>
      exact block_breaks (r := r) (fieldOrGroupFrom_accepts noNote hinner hleft)
        (fieldOrGroupFrom_overflows ih hleft') .extendItem hstarts hblock rest

/-! ## Files -/

section Files

variable {config : Config} {stop : Symbol} {hstop : stop.kind = .eof}

theorem directiveFrom_overflows :
    (ofConfig config hstop).BreaksBehind (fun s ↦ startsDirective s) directiveFrom
      (Gap.Overflows (Directive.Around config .integer)) := by
  have hinner := readBody_overflows config hstop config.maxDepth
  have hleft {b : Body} {i : Nat} {e : Failure} {s : List Symbol}
      (h : Gap.Overflows (Body.Around config config.maxDepth b .integer) i e s) := h.exists_brace
  rintro i e _ ⟨hg, hs⟩
  cases hg with
  | message hg =>
    obtain ⟨word, t, heq, hword, hrun⟩ :=
      messageFrom_breaks hinner (breaksMessage_of_overflows ⟨hg, hs⟩)
    exact directive_breaks heq (.message hword) fun rest ↦ bind_error (hrun rest)
  | enumType hg =>
    obtain ⟨word, t, heq, hword, hrun⟩ := enumFrom_overflows (r := ofConfig config hstop) ⟨hg, hs⟩
    exact directive_breaks heq (.enumType hword) fun rest ↦ bind_error (hrun rest)
  | extend hg =>
    obtain ⟨word, t, heq, hword, hrun⟩ :=
      extendFrom_breaks noNote hinner hleft (breaksExtend_of_overflows ⟨hg, hs⟩)
    exact directive_breaks heq (.extend hword) fun rest ↦ bind_error (hrun rest)

/-- **A file is not read beyond an integer that does not fit.** -/
theorem schema_overflows :
    (ofConfig config hstop).Breaks schema (Gap.Overflows (Schema.Around config .integer)) := by
  rintro i e _ ⟨hg, hs⟩ rest
  cases hg with
  | mk hv hg =>
    obtain ⟨t, ht, he⟩ := Gap.Overflows.of_within hg hs
    rw [ht]
    exact run_schema_error noNote directiveFrom_overflows (hv i) he.statements rest

end Files

end Reader

end ProtoSchema
