import Mathlib.Data.List.Basic
import ProtoSchema.Proofs.Print.Statement

/-!
# Printed schemas say what they were

The statements of a body are printed one to a line, and the lines say the statements again.  Two
things change on the way.  Empty statements are not printed; and the items of a oneof or an enum are
printed in the order of the lists that hold them, which need not be that of the text.  Neither is
seen in the tree.

What tells one statement from another are its first two symbols, and these are printed as they were
or are of the same sort.  So the lemmas about statements have two parts, `head_of_genuine` or
`kind_next` for what the second symbol is, and `printed` for the line as a whole.

## What is here

* `Extensions.printed`, `Reserved.printed` — ranges and names that are set apart.
* `OneOf.printed`, `EnumType.printed` — bodies whose items are sorted when they are printed.  The
  tree keeps its items in lists by sort, and `OneOfItem.filterMap_sorted` and
  `EnumItem.filterMap_sorted` say that sorting them again gives the same lists.
* `Member.printed_message`, `Member.printed_extend`, `Member.printed_group`, `Member.printed` —
  blocks and the choice between members, given that the bodies inside are printed as what they are.
* `Body.bodied` — bodies, by induction on how deep they may be.
* `Rpc.printed`, `Service.printed`, `Import.printed`, `Package.printed`, `VersionStatement.printed`,
  `Directive.printed` — what stands at the top.
* `Schema.printed` — the file.
-/

set_option autoImplicit false

namespace ProtoSchema

open Grammar Phrase

/-- The symbols that are written are genuine. -/
theorem Writes.genuine {f : Printer → Printer} {ss : List Symbol} (h : Writes f ss) :
    ∀ s ∈ ss, s.Genuine := by
  obtain ⟨_, -, htext⟩ := h .empty
  exact htext.scans.genuine

/-- A word of the grammar and a name. -/
theorem spells_titled (word : String) {text : String} {name : Symbol} (hword : IsWord word)
    (htext : text = word ++ " ") (hg : name.Genuine) (hname : name.isName) :
    Spells closes (text ++ name.lexeme) [.word word, name] :=
  (Spells.keyword hword htext).append (hg.spells_name hname).closes_of_endsWord

variable {config : Config} {i : Nat} {s : List Symbol}

/-! ## Numbers and names that are set apart -/

section Kept

theorem NumberRange.Derives.head_of_genuine {x : NumberRange} (h : x.Derives Integer i s)
    (hg : ∀ a ∈ s, a.Genuine) :
    ∃ first t, s = first :: t ∧ (first.kind = .number ∨ first.kind = .minus) := by
  rcases h with hn | ⟨hn, -, -⟩ | ⟨hn, -, -, -⟩
  · exact hn.head_of_genuine hg
  all_goals
    obtain ⟨first, t, rfl, hfirst⟩ :=
      hn.head_of_genuine fun a ha ↦ hg a (List.mem_append_left _ ha)
    exact ⟨first, _, rfl, hfirst⟩

theorem Phrase.Separated.head_of_genuine {xs : List NumberRange}
    (h : Separated (NumberRange.Derives Integer) i xs s) (hg : ∀ a ∈ s, a.Genuine) :
    ∃ first t, s = first :: t ∧ (first.kind = .number ∨ first.kind = .minus) := by
  obtain ⟨hx, -⟩ := h
  obtain ⟨first, t, rfl, hfirst⟩ := hx.head_of_genuine fun a ha ↦ hg a (List.mem_append_left _ ha)
  exact ⟨first, _, rfl, hfirst⟩

theorem prints_ranges {xs : List NumberRange} (h : Separated (NumberRange.Derives Integer) i xs s)
    (hg : ∀ a ∈ s, a.Genuine) : (Separated (NumberRange.Derives Integer)).Prints closes
      (commaSeparated (xs.map NumberRange.print)) xs :=
  prints_commaSeparated h.ne_nil fun x hx ↦ NumberRange.prints (h.said hg x hx)

/-- A number comes second in the statement. -/
theorem Extensions.Derives.kind_next {x : Extensions Unit} {word next : Symbol}
    (h : x.Derives Integer noNote i (word :: next :: s))
    (hg : ∀ a ∈ word :: next :: s, a.Genuine) : next.kind = .number ∨ next.kind = .minus := by
  generalize hs : word :: next :: s = u at h hg
  obtain ⟨-, hr, -, -⟩ := h
  obtain ⟨first, t, rfl, hfirst⟩ := hr.head_of_genuine fun a ha ↦ hg a (by simp [ha])
  obtain ⟨-, hs⟩ := List.cons.inj hs
  obtain ⟨rfl, -⟩ := List.cons.inj hs
  exact hfirst

/-- A statement that gives numbers away is printed as what it is. -/
theorem Extensions.printed {x : Extensions Unit} (h : (Extensions.Derives Integer noNote).Said x) :
    (Extensions.Derives Integer noNote).Printed x.printTo x := by
  obtain ⟨i, s, @⟨_, word, semi, ranges, options, u, v, hword, hr, ho, hsemi⟩, hg⟩ := h
  simp only [List.forall_mem_cons, List.forall_mem_append] at hg
  obtain ⟨-, hgr, hgo, -⟩ := hg
  obtain ⟨u, hu, hranges⟩ := prints_ranges hr hgr
  obtain ⟨v, hv, hoptions⟩ := Setting.prints_bracketed (ho.said hgo)
  have hkeyword : Spells anything "extensions " [.word "extensions"] :=
    .keyword (isWord_of_all rfl rfl) rfl
  have hline := Writes.statement ((hkeyword.append hu).append_of_heads hv Setting.head?_bracketed)
  refine ⟨.word "extensions" :: (u ++ (v ++ [.mark .semicolon])), ?_,
    fun j ↦ .mk rfl (hranges _) (hoptions _) rfl⟩
  simpa [Extensions.printTo, String.append_assoc] using hline

theorem ReservedItems.prints {x : ReservedItems} (h : (ReservedItems.Derives Integer).Said x) :
    (ReservedItems.Derives Integer).Prints closes x.print x := by
  obtain ⟨i, s, hx, hg⟩ := h
  cases hx with
  | names h =>
    obtain ⟨t, ht, hnames⟩ :=
      prints_commaSeparated h.ne_nil fun x hx ↦ prints_text (h.said hg x hx)
    exact ⟨t, ht, fun i ↦ .names (hnames i)⟩
  | ranges h =>
    obtain ⟨t, ht, hranges⟩ := prints_ranges h hg
    refine ⟨t, ht, fun i ↦ .ranges (hranges i) fun first hfirst hk ↦ ?_⟩
    obtain ⟨a, u, rfl, ha⟩ := (hranges 0).head_of_genuine ht.scans.genuine
    obtain rfl := Option.some.inj hfirst
    rcases ha with ha | ha <;> exact nomatch hk.symm.trans ha

/-- A number or a string comes second in the statement. -/
theorem Reserved.Derives.kind_next {x : Reserved Unit} {word next : Symbol}
    (h : x.Derives Integer noNote i (word :: next :: s))
    (hg : ∀ a ∈ word :: next :: s, a.Genuine) :
    next.kind = .number ∨ next.kind = .minus ∨ next.kind = .string := by
  generalize hs : word :: next :: s = u at h hg
  obtain ⟨-, hitems, -⟩ := h
  rcases hitems with ⟨⟨hk, -⟩, -⟩ | ⟨hr, -⟩
  · obtain ⟨-, hs⟩ := List.cons.inj hs
    obtain ⟨rfl, -⟩ := List.cons.inj hs
    exact .inr (.inr hk)
  · obtain ⟨first, t, rfl, hfirst⟩ := hr.head_of_genuine fun a ha ↦ hg a (by simp [ha])
    obtain ⟨-, hs⟩ := List.cons.inj hs
    obtain ⟨rfl, -⟩ := List.cons.inj hs
    exact hfirst.imp_right .inl

/-- A statement that reserves numbers or names is printed as what it is. -/
theorem Reserved.printed {x : Reserved Unit} (h : (Reserved.Derives Integer noNote).Said x) :
    (Reserved.Derives Integer noNote).Printed x.printTo x := by
  obtain ⟨i, s, @⟨_, word, semi, items, u, hword, hitems, hsemi⟩, hg⟩ := h
  simp only [List.forall_mem_cons, List.forall_mem_append] at hg
  obtain ⟨u, hu, hitems⟩ := ReservedItems.prints ⟨_, _, hitems, hg.2.1⟩
  have hkeyword : Spells anything "reserved " [.word "reserved"] :=
    .keyword (isWord_of_all rfl rfl) rfl
  have hline := Writes.statement (hkeyword.append hu)
  exact ⟨_, hline, fun j ↦ .mk (s := u) rfl (hitems _) rfl⟩

end Kept

/-! ## Items of oneofs and enums -/

section Items

theorem OneOfItem.said_setting {x : Setting Unit}
    (h : (OneOfItem.Derives config noNote).Said (.setting x)) :
    (Setting.Derives noNote).Said x := by
  obtain ⟨i, s, h, hg⟩ := h
  cases h with
  | setting h => exact ⟨i, s, h, hg⟩

/-- A field of a oneof is printed as what it is. -/
theorem OneOfItem.printed_field {x : Field Unit}
    (h : (OneOfItem.Derives config noNote).Said (.field x)) :
    (OneOfItem.Derives config noNote).Printed x.printTo (.field x) := by
  obtain ⟨i, s, h, hg⟩ := h
  cases h with
  | field h hfirst =>
    obtain ⟨t, ht, hx⟩ := Field.printed h hg
    exact ⟨_, ht, fun j ↦ .field (hx j) hfirst⟩

/-- The options in front of the fields are the options and the fields. -/
theorem OneOfItem.filterMap_sorted (xs : List (Setting Unit)) (ys : List (Field Unit)) :
    (xs.map OneOfItem.setting ++ ys.map OneOfItem.field).filterMap OneOfItem.setting? = xs ∧
      (xs.map OneOfItem.setting ++ ys.map OneOfItem.field).filterMap OneOfItem.field? = ys := by
  simp [List.filterMap_map, Function.comp_def, OneOfItem.setting?, OneOfItem.field?,
    List.filterMap_none]

/-- A oneof is printed as what it is, with its options first. -/
theorem OneOf.printed {x : OneOf Unit} (h : (OneOf.Derives config noNote).Said x) :
    (OneOf.Derives config noNote).Printed x.printTo x := by
  obtain ⟨i, s, @⟨_, word, name, items, u, hword, hname, hitems⟩, hg⟩ := h
  simp only [List.forall_mem_cons] at hg
  obtain ⟨-, hgname, hgu⟩ := hg
  have hsaid := hitems.said hgu
  have hoptions : (Statements (OneOfItem.Derives config noNote)).Printed
      (.each Setting.printTo (items.filterMap OneOfItem.setting?))
      ((items.filterMap OneOfItem.setting?).map .setting) := by
    refine printed_each fun x hx ↦ ?_
    obtain ⟨item, hitem, hsome⟩ := List.mem_filterMap.mp hx
    cases item <;> cases hsome
    exact (Setting.printed (OneOfItem.said_setting (hsaid _ hitem))).imp fun _ _ h ↦ .setting h
  have hfields : (Statements (OneOfItem.Derives config noNote)).Printed
      (.each Field.printTo (items.filterMap OneOfItem.field?))
      ((items.filterMap OneOfItem.field?).map .field) := by
    refine printed_each fun x hx ↦ ?_
    obtain ⟨item, hitem, hsome⟩ := List.mem_filterMap.mp hx
    cases item <;> cases hsome
    exact OneOfItem.printed_field (hsaid _ hitem)
  obtain ⟨t, hwrites, hbody⟩ := (hoptions.comp hfields).bodied
  refine ⟨_, hwrites (spells_titled "oneof" (isWord_of_all rfl rfl) rfl hgname hname),
    fun j ↦ ?_⟩
  have hderives : (OneOf.Derives config noNote) j _ (.word "oneof" :: name :: t) :=
    .mk rfl hname (hbody _)
  obtain ⟨esettings, efields⟩ := OneOfItem.filterMap_sorted (items.filterMap OneOfItem.setting?)
    (items.filterMap OneOfItem.field?)
  rwa [esettings, efields] at hderives

theorem EnumItem.said_setting {x : Setting Unit}
    (h : (EnumItem.Derives Integer noNote).Said (.setting x)) :
    (Setting.Derives noNote).Said x := by
  obtain ⟨i, s, h, hg⟩ := h
  cases h with
  | setting h => exact ⟨i, s, h, hg⟩

theorem EnumItem.said_value {x : Field Unit}
    (h : (EnumItem.Derives Integer noNote).Said (.value x)) :
    (Field.DerivesValue noNote).Said x := by
  obtain ⟨i, s, h, hg⟩ := h
  cases h with
  | value h => exact ⟨i, s, h, hg⟩

theorem EnumItem.printed_reserved {x : Reserved Unit}
    (h : (EnumItem.Derives Integer noNote).Said (.reserved x)) :
    (EnumItem.Derives Integer noNote).Printed x.printTo (.reserved x) := by
  obtain ⟨i, s, h, hg⟩ := h
  cases h with
  | reserved h =>
    obtain ⟨t, ht, hx⟩ := Reserved.printed ⟨i, _, h, hg⟩
    obtain ⟨word, next, t, rfl⟩ := (hx 0).exists_cons_cons
    refine ⟨_, ht, fun j ↦ .reserved (hx j) ?_⟩
    rcases (hx 0).kind_next ht.genuine with hk | hk | hk <;> simp [hk]

/-- The options, the values and the reserved numbers and names, one list behind another. -/
theorem EnumItem.filterMap_sorted (xs : List (Setting Unit)) (ys : List (Field Unit))
    (zs : List (Reserved Unit)) :
    let items := xs.map EnumItem.setting ++ ys.map EnumItem.value ++ zs.map EnumItem.reserved
    items.filterMap EnumItem.setting? = xs ∧ items.filterMap EnumItem.value? = ys ∧
      items.filterMap EnumItem.reserved? = zs := by
  simp [List.filterMap_map, Function.comp_def, EnumItem.setting?, EnumItem.value?,
    EnumItem.reserved?, List.filterMap_none]

/-- An enum is printed as what it is, with its options first and what it reserves last. -/
theorem EnumType.printed {x : EnumType Unit} (h : (EnumType.Derives Integer noNote).Said x) :
    (EnumType.Derives Integer noNote).Printed x.printTo x := by
  obtain ⟨i, s, @⟨_, word, name, items, u, hword, hname, hitems⟩, hg⟩ := h
  simp only [List.forall_mem_cons] at hg
  obtain ⟨-, hgname, hgu⟩ := hg
  have hsaid := hitems.said hgu
  have hoptions : (Statements (EnumItem.Derives Integer noNote)).Printed
      (.each Setting.printTo (items.filterMap EnumItem.setting?))
      ((items.filterMap EnumItem.setting?).map .setting) := by
    refine printed_each fun x hx ↦ ?_
    obtain ⟨item, hitem, hsome⟩ := List.mem_filterMap.mp hx
    cases item <;> cases hsome
    exact (Setting.printed (EnumItem.said_setting (hsaid _ hitem))).imp fun _ _ h ↦ .setting h
  have hvalues : (Statements (EnumItem.Derives Integer noNote)).Printed
      (.each Field.printTo (items.filterMap EnumItem.value?))
      ((items.filterMap EnumItem.value?).map .value) := by
    refine printed_each fun x hx ↦ ?_
    obtain ⟨item, hitem, hsome⟩ := List.mem_filterMap.mp hx
    cases item <;> cases hsome
    exact (Field.printed_value (EnumItem.said_value (hsaid _ hitem))).imp fun _ _ h ↦ .value h
  have hreserved : (Statements (EnumItem.Derives Integer noNote)).Printed
      (.each Reserved.printTo (items.filterMap EnumItem.reserved?))
      ((items.filterMap EnumItem.reserved?).map .reserved) := by
    refine printed_each fun x hx ↦ ?_
    obtain ⟨item, hitem, hsome⟩ := List.mem_filterMap.mp hx
    cases item <;> cases hsome
    exact EnumItem.printed_reserved (hsaid _ hitem)
  obtain ⟨t, hwrites, hbody⟩ := ((hoptions.comp hvalues).comp hreserved).bodied
  refine ⟨_, hwrites (spells_titled "enum" (isWord_of_all rfl rfl) rfl hgname hname),
    fun j ↦ ?_⟩
  have hderives : (EnumType.Derives Integer noNote) j _ (.word "enum" :: name :: t) :=
    .mk rfl hname (hbody _)
  obtain ⟨esettings, evalues, ereserved⟩ :=
    EnumItem.filterMap_sorted (items.filterMap EnumItem.setting?)
      (items.filterMap EnumItem.value?) (items.filterMap EnumItem.reserved?)
  rwa [esettings, evalues, ereserved] at hderives

end Items

/-! ## Blocks -/

section Blocks

variable {inner : Body → Phrase (List (Member Unit))} {x : Member Unit}

theorem Member.printTo_block (header : Header Unit) (body : List (Member Unit)) (loc : Unit) :
    Member.printTo (.block header body loc) = .block header.print (Member.printAll body) := by
  funext p
  rw [Member.printTo]

section

variable (hinner : ∀ b xs, (inner b).Said xs → (inner b).Bodied (Member.printAll xs) xs)

include hinner

/-- A message is printed as what it is, if bodies are. -/
theorem Member.printed_message (h : (Member.DerivesMessage noNote inner).Said x) :
    (Member.DerivesMessage noNote inner).Printed x.printTo x := by
  obtain ⟨i, s, ⟨hword, hname, hbody⟩, hg⟩ := h
  simp only [List.forall_mem_cons] at hg
  obtain ⟨-, hgname, hgbody⟩ := hg
  obtain ⟨t, hwrites, hbody⟩ := hinner _ _ ⟨_, _, hbody, hgbody⟩
  rw [Member.printTo_block]
  exact ⟨_, hwrites (spells_titled "message" (isWord_of_all rfl rfl) rfl hgname hname),
    fun j ↦ .mk rfl hname (hbody _)⟩

/-- An extension is printed with the same first two symbols. -/
theorem Member.printed_extend {word next : Symbol}
    (h : x.DerivesExtend noNote inner i (word :: next :: s))
    (hg : ∀ a ∈ word :: next :: s, a.Genuine) :
    ∃ word' t, Writes x.printTo (word' :: next :: t) ∧
      ∀ j, x.DerivesExtend noNote inner j (word' :: next :: t) := by
  generalize hs : word :: next :: s = u at h hg
  obtain ⟨hword, htype, hbody⟩ := h
  simp only [List.forall_mem_cons, List.forall_mem_append] at hg
  obtain ⟨-, hgtype, hgbody⟩ := hg
  obtain ⟨t, hwrites, hbody⟩ := hinner _ _ ⟨_, _, hbody, hgbody⟩
  have hkeyword : Spells anything "extend " [.word "extend"] :=
    .keyword (isWord_of_all rfl rfl) rfl
  have hlines := hwrites (hkeyword.append (htype.spells hgtype).closes_of_endsWord)
  have hderives (j : Nat) : Member.DerivesExtend noNote inner j _ (.word "extend" :: (_ ++ t)) :=
    .mk rfl (htype.elsewhere .noNote) (hbody _)
  obtain ⟨first, v, rfl, -⟩ := htype.exists_cons
  obtain ⟨-, hs⟩ := List.cons.inj hs
  obtain ⟨rfl, -⟩ := List.cons.inj hs
  rw [Member.printTo_block]
  exact ⟨_, _, hlines, hderives⟩

/-- A group is printed as what it is, if bodies are. -/
theorem Member.printed_group (h : (Member.DerivesGroup Integer config noNote inner).Said x) :
    (Member.DerivesGroup Integer config noNote inner).Printed x.printTo x := by
  obtain ⟨i, s, @⟨_, l, word, label, name, n, options, xs, u, v, hl, hword, hn, hbody⟩, hg⟩ := h
  simp only [List.forall_mem_cons, List.forall_mem_append] at hg
  obtain ⟨hgl, -, hgn, hgbody⟩ := hg
  obtain ⟨a, u, rfl, -⟩ := hn.exists_cons
  obtain ⟨t, hwrites, hbody⟩ := hinner _ _ ⟨_, _, hbody, hgbody⟩
  obtain ⟨u, hu, hnumbered⟩ := prints_numbered hn hgn
  have hkeyword : Spells anything "group " [.word "group"] := .keyword (isWord_of_all rfl rfl) rfl
  have hlines := hwrites (((hgl.spells_label hl).append hkeyword).append hu)
  rw [Member.printTo_block]
  refine ⟨l :: .word "group" :: (a :: u ++ t), ?_, fun j ↦ .mk hl rfl (hnumbered _) (hbody _)⟩
  simpa [Header.print, String.append_assoc] using hlines

/-- **A member of a body is printed as what it is.** -/
theorem Member.printed {b : Body} (h : (Member.Derives Integer config noNote inner b).Said x) :
    (Member.Derives Integer config noNote inner b).Printed x.printTo x := by
  obtain ⟨i, s, h, hg⟩ := h
  cases h with
  | field h hb =>
    obtain ⟨t, ht, hx⟩ := Field.printed h hg
    exact ⟨_, ht, fun j ↦ .field (hx j) hb⟩
  | group h => exact (Member.printed_group hinner ⟨i, s, h, hg⟩).imp fun _ _ h ↦ .group h
  | message h => exact (Member.printed_message hinner ⟨i, s, h, hg⟩).imp fun _ _ h ↦ .message h
  | enumType h => exact (EnumType.printed ⟨i, s, h, hg⟩).imp fun _ _ h ↦ .enumType h
  | extend h hnext =>
    obtain ⟨_, t, ht, hx⟩ := Member.printed_extend hinner h hg
    exact ⟨_, ht, fun j ↦ .extend (hx j) hnext⟩
  | extensions h =>
    obtain ⟨t, ht, hx⟩ := Extensions.printed ⟨i, _, h, hg⟩
    obtain ⟨word, next, t, rfl⟩ := (hx 0).exists_cons_cons
    refine ⟨_, ht, fun j ↦ .extensions (hx j) ?_⟩
    rcases (hx 0).kind_next ht.genuine with hk | hk <;> simp [hk]
  | setting h => exact (Setting.printed ⟨i, s, h, hg⟩).imp fun _ _ h ↦ .setting h
  | oneOf h => exact (OneOf.printed ⟨i, s, h, hg⟩).imp fun _ _ h ↦ .oneOf h
  | reserved h =>
    obtain ⟨t, ht, hx⟩ := Reserved.printed ⟨i, _, h, hg⟩
    obtain ⟨word, next, t, rfl⟩ := (hx 0).exists_cons_cons
    refine ⟨_, ht, fun j ↦ .reserved (hx j) ?_⟩
    rcases (hx 0).kind_next ht.genuine with hk | hk | hk <;> simp [hk]
  | mapField h => exact (MapField.printed ⟨i, s, h, hg⟩).imp fun _ _ h ↦ .mapField h

end

/-- The body of a block is printed with all that is in it. -/
theorem Body.bodied (depth : Nat) (b : Body) (xs : List (Member Unit))
    (h : (Body.Derives Integer config noNote depth b).Said xs) :
    (Body.Derives Integer config noNote depth b).Bodied (Member.printAll xs) xs := by
  induction depth generalizing b xs with
  | zero =>
    obtain ⟨_, _, h, -⟩ := h
    exact h.elim
  | succ depth ih =>
    obtain ⟨i, s, h, hg⟩ := h
    rw [Member.printAll_eq_each]
    exact (printed_all fun x hx ↦ Member.printed ih (Block.said h hg x hx)).bodied

end Blocks

/-! ## Services -/

section Services

theorem Rpc.Endpoint.prints {x : Bool × TypeRef Unit} (h : (Rpc.Endpoint noNote).Said x) :
    (Rpc.Endpoint noNote).Prints anything (Rpc.endpoint x.1 x.2) x := by
  obtain ⟨i, s, h, hg⟩ := h
  have hclose : Spells anything ")" [.mark .rightParen] := Spells.mark (c := ')') rfl rfl
  cases h with
  | @plain _ _ first _ type u hl htype hfirst hr =>
    rw [List.forall_mem_cons, ← List.cons_append, List.forall_mem_append] at hg
    have htext := Spells.leftParen.append
      ((htype.spells hg.2.1).append_of_head hclose (c := ')') rfl rfl)
    refine ⟨.mark .leftParen :: first :: (u ++ [.mark .rightParen]), ?_,
      fun j ↦ .plain rfl (htype.elsewhere .noNote) hfirst rfl⟩
    simpa [Rpc.endpoint, String.append_assoc] using htext
  | @stream _ _ word _ type u hl hword htype hr =>
    simp only [List.forall_mem_cons, List.forall_mem_append] at hg
    have hkeyword : Spells anything "stream " [.word "stream"] :=
      .keyword (isWord_of_all rfl rfl) rfl
    have htext := (Spells.leftParen.append hkeyword).append
      ((htype.spells hg.2.2.1).append_of_head hclose (c := ')') rfl rfl)
    refine ⟨.mark .leftParen :: .word "stream" :: (u ++ [.mark .rightParen]), ?_,
      fun j ↦ .stream rfl rfl (htype.elsewhere .noNote) rfl⟩
    simpa [Rpc.endpoint, String.append_assoc] using htext

theorem Rpc.End.said {xs : List (Setting Unit)} (h : Rpc.End noNote i xs s)
    (hg : ∀ a ∈ s, a.Genuine) : ∀ x ∈ xs, (Setting.Derives noNote).Said x := by
  cases h with
  | semicolon => nofun
  | block h => exact h.said hg

/-- A call is printed as what it is; without options it ends with a semicolon and has no braces. -/
theorem Rpc.printed {x : Rpc Unit} (h : (Rpc.Derives noNote).Said x) :
    (Rpc.Derives noNote).Printed x.printTo x := by
  obtain ⟨i, s, @⟨_, word, name, returns, inputStream, outputStream, input, output, options,
    u, v, w, hword, hname, hin, hreturns, hout, hend⟩, hg⟩ := h
  simp only [List.forall_mem_cons, List.forall_mem_append] at hg
  obtain ⟨-, hgname, hgin, -, hgout, hgend⟩ := hg
  obtain ⟨u, hu, hin⟩ := Rpc.Endpoint.prints ⟨_, _, hin, hgin⟩
  obtain ⟨v, hv, hout⟩ := Rpc.Endpoint.prints ⟨_, _, hout, hgout⟩
  have hrpc : Spells closes ("rpc " ++ name.lexeme) [.word "rpc", name] :=
    spells_titled "rpc" (isWord_of_all rfl rfl) rfl hgname hname
  have hreturnsWord : Spells anything "returns " [.word "returns"] :=
    .keyword (isWord_of_all rfl rfl) rfl
  have hreturnsText : Spells anything " returns " [.word "returns"] :=
    Spells.blank.append hreturnsWord
  have hheading : Spells closes
      (Rpc.heading ⟨name.lexeme, inputStream, input, outputStream, output, options, ()⟩)
      (.word "rpc" :: name :: (u ++ .word "returns" :: v)) := by
    have htext := (hrpc.append_of_head (.blank (q := anything)) (c := ' ') rfl rfl).append
      ((hu.append hreturnsText).append hv)
    simpa [Rpc.heading, String.append_assoc] using htext.of_anything
  have hderives {t : List Symbol} (hend : ∀ j, Rpc.End noNote j options t) (j : Nat) :
      Rpc.Derives noNote j _ (.word "rpc" :: name :: (u ++ .word "returns" :: (v ++ t))) :=
    .mk rfl hname (hin _) rfl (hout _) (hend _)
  rw [Rpc.printTo]
  split
  · rename_i hempty
    obtain rfl := List.isEmpty_iff.mp hempty
    have hend (j : Nat) : Rpc.End noNote j [] [.mark .semicolon] := .semicolon rfl
    exact ⟨_, by simpa using Writes.statement hheading, hderives hend⟩
  · obtain ⟨t, hwrites, hblock⟩ :=
      (printed_all fun x hx ↦ Setting.printed (hend.said hgend x hx)).bodied
    exact ⟨_, by simpa using hwrites hheading, hderives fun j ↦ .block (hblock j)⟩

theorem ServiceItem.printed {x : ServiceItem Unit} (h : (ServiceItem.Derives noNote).Said x) :
    (ServiceItem.Derives noNote).Printed x.printTo x := by
  obtain ⟨i, s, h, hg⟩ := h
  cases h with
  | setting h => exact (Setting.printed ⟨i, s, h, hg⟩).imp fun _ _ h ↦ .setting h
  | rpc h => exact (Rpc.printed ⟨i, s, h, hg⟩).imp fun _ _ h ↦ .rpc h

/-- A service is printed as what it is. -/
theorem Service.printed {x : Service Unit} (h : (Service.Derives noNote).Said x) :
    (Service.Derives noNote).Printed x.printTo x := by
  obtain ⟨i, s, ⟨hword, hname, hitems⟩, hg⟩ := h
  simp only [List.forall_mem_cons] at hg
  obtain ⟨-, hgname, hgitems⟩ := hg
  obtain ⟨t, hwrites, hbody⟩ :=
    (printed_all fun x hx ↦ ServiceItem.printed (hitems.said hgitems x hx)).bodied
  exact ⟨_, hwrites (spells_titled "service" (isWord_of_all rfl rfl) rfl hgname hname),
    fun j ↦ .mk rfl hname (hbody _)⟩

end Services

/-! ## Files -/

section Files

theorem isWord_modifier (m : ImportModifier) : IsWord m.word := by
  cases m <;> exact isWord_of_all rfl rfl

/-- An import is printed as what it is. -/
theorem Import.printed {x : Import Unit} (h : (Import.Derives noNote).Said x) :
    (Import.Derives noNote).Printed x.printTo x := by
  obtain ⟨i, s, @⟨_, word, semi, file, modifier?, u, v, hword, hm, hfile, hsemi⟩, hg⟩ := h
  simp only [List.forall_mem_cons, List.forall_mem_append] at hg
  obtain ⟨v, hv, hfile⟩ := prints_text (q := closes) ⟨_, _, hfile, hg.2.2.1⟩
  have hkeyword : Spells anything "import " [.word "import"] :=
    .keyword (isWord_of_all rfl rfl) rfl
  have hmodifier : ∃ u, Spells anything ((modifier?.map fun m ↦ m.word ++ " ").getD "") u ∧
      Import.Modifier modifier? u := by
    cases modifier? with
    | none => exact ⟨[], .nil, .none⟩
    | some m =>
      refine ⟨_, .keyword (isWord_modifier m) rfl, .some ?_⟩
      cases m <;> rfl
  obtain ⟨u, hu, hm⟩ := hmodifier
  have hline := Writes.statement ((hkeyword.append hu).append hv)
  refine ⟨.word "import" :: (u ++ (v ++ [.mark .semicolon])), ?_, fun j ↦ .mk rfl hm (hfile _) rfl⟩
  simpa [Import.printTo] using hline

/-- A package is printed as what it is. -/
theorem Package.printed {x : Package Unit} (h : (Package.Derives noNote).Said x) :
    (Package.Derives noNote).Printed x.printTo x := by
  obtain ⟨i, s, @⟨_, word, semi, name, u, hword, hname, hsemi⟩, hg⟩ := h
  simp only [List.forall_mem_cons, List.forall_mem_append] at hg
  have hkeyword : Spells anything "package " [.word "package"] :=
    .keyword (isWord_of_all rfl rfl) rfl
  have hline := Writes.statement
    (hkeyword.append (hname.spells hg.2.1).closes_of_endsWord)
  exact ⟨_, hline, fun j ↦ .mk (s := u) rfl (hname.elsewhere .noNote) rfl⟩

/-- A statement at the top is printed as what it is. -/
theorem Directive.printed {x : Directive Unit}
    (h : (Directive.Derives Integer config noNote).Said x) :
    (Directive.Derives Integer config noNote).Printed x.printTo x := by
  obtain ⟨i, s, h, hg⟩ := h
  have hbody (b : Body) (xs : List (Member Unit)) :
      (Body.Derives Integer config noNote config.maxDepth b).Said xs →
        (Body.Derives Integer config noNote config.maxDepth b).Bodied (Member.printAll xs) xs :=
    Body.bodied config.maxDepth b xs
  cases h with
  | importFile h => exact (Import.printed ⟨i, s, h, hg⟩).imp fun _ _ h ↦ .importFile h
  | package h => exact (Package.printed ⟨i, s, h, hg⟩).imp fun _ _ h ↦ .package h
  | setting h => exact (Setting.printed ⟨i, s, h, hg⟩).imp fun _ _ h ↦ .setting h
  | message h => exact (Member.printed_message hbody ⟨i, s, h, hg⟩).imp fun _ _ h ↦ .message h
  | enumType h => exact (EnumType.printed ⟨i, s, h, hg⟩).imp fun _ _ h ↦ .enumType h
  | extend h =>
    obtain ⟨word, next, t, rfl⟩ := h.exists_cons_cons
    obtain ⟨_, t, ht, hx⟩ := Member.printed_extend hbody h hg
    exact ⟨_, ht, fun j ↦ .extend (hx j)⟩
  | service h => exact (Service.printed ⟨i, s, h, hg⟩).imp fun _ _ h ↦ .service h

theorem Version.text_of_ofText? {text : String} {v : Version} (h : Version.ofText? text = some v) :
    v.text = text := by
  unfold Version.ofText? at h
  split at h
  · cases h
    symm; assumption
  · split at h
    · cases h
      symm; assumption
    · cases h

theorem Version.line_eq (v : Version) :
    "syntax = \"" ++ v.text ++ "\";" = "syntax" ++ " = " ++ quoted v.text ++ ";" := by
  cases v <;> decide

/-- The statement that names the version is printed as what it is. -/
theorem VersionStatement.printed {x : VersionStatement Unit}
    (h : (VersionStatement.Derives noNote).Said x) :
    (VersionStatement.Derives noNote).Printed x.printTo x := by
  obtain ⟨i, s, @⟨_, word, eq, semi, text, v, u, hword, heq, htext, hv, hsemi⟩, hg⟩ := h
  simp only [List.forall_mem_cons, List.forall_mem_append] at hg
  obtain ⟨u, hu, htext⟩ := prints_text (q := closes) ⟨_, _, htext, hg.2.2.1⟩
  have hkeyword : Spells endsWord "syntax" [.word "syntax"] := .word (isWord_of_all rfl rfl)
  have hline := Writes.statement
    ((hkeyword.append_of_head (.equals (q := anything)) (c := ' ') rfl rfl).append hu)
  refine ⟨.word "syntax" :: .mark .equal :: (u ++ [.mark .semicolon]), ?_,
    fun j ↦ .mk rfl rfl (htext _) hv rfl⟩
  rw [← Version.text_of_ofText? hv, ← Version.line_eq] at hline
  exact hline

/-- **A schema is printed as what it is.** -/
theorem Schema.printed {x : Schema Unit} (h : (Schema.Derives Integer config noNote).Said x) :
    (Schema.Derives Integer config noNote).Printed x.printTo x := by
  obtain ⟨i, s, ⟨hv, hds⟩, hg⟩ := h
  rw [List.forall_mem_append] at hg
  obtain ⟨t, ht, hstatements⟩ := printed_all fun x hx ↦ Directive.printed (hds.said hg.2 x hx)
  cases hv with
  | none => exact ⟨_, Writes.id.comp ht, fun j ↦ .mk .none (hstatements _)⟩
  | some hv =>
    obtain ⟨s, hs, hv⟩ := VersionStatement.printed ⟨_, _, hv, hg.1⟩
    exact ⟨_, hs.comp ht, fun j ↦ .mk (.some (hv j)) (hstatements _)⟩

end Files

end ProtoSchema
