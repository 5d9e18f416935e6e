import ProtoSchema.Proofs.Grammar.Soundness.Schema

/-!
# The same symbols elsewhere

What symbols make up depends on the symbols alone.  The numbers of the symbols show in the notes of
the tree and nowhere else, so the same symbols behind others make up the same tree with other notes.
`Moves` says how the notes change; when they are left out, as in `noNote`, the tree is the same.

The configuration counts only in so far as it admits negative numbers of fields, and how deep blocks
may be nested only in so far as the blocks there are must not be nested deeper.

## What is here

* `Moves f note note' i j s` — the notes that `note` makes of stretches of the symbols `s`, which
  begin with number `i`, are turned by `f` into those that `note'` makes of the same stretches when
  `s` begins with number `j`.  One relation serves for shifting, for places and for dropping all
  notes.
* `noNote`, `Moves.noNote` — no notes at all, which go with any.
* `Moves.left`, `Moves.right`, `Moves.tail`, `Moves.note_eq` — parts of the symbols, and the note on
  all of them.  Every case of every lemma below is one of these for each part and the last one for
  the node.
* `Phrase.Many.elsewhere` and its like — rows, given the statement for an item.
* `Phrase.Name.elsewhere` to `Schema.Derives.elsewhere` — the lines of the grammar.  The tree
  becomes `x.map f`, which is where the functions of `Schema/Map.lean` come from.

It is used wherever a derivation is taken from one file and put into another: excerpts, texts in a
row, schemas that are printed, and files with a gap in them.
-/

set_option autoImplicit false

namespace ProtoSchema

open Grammar Phrase

variable {ν μ : Type} {f : ν → μ} {note : Extent → ν} {note' : Extent → μ} {i j : Nat}
  {s t : List Symbol}

/-! ## Notes elsewhere -/

/-- If the symbols do not begin with number `i` but with number `j`, `f` makes of each note on some
of them the note that they have there. -/
def Moves (f : ν → μ) (note : Extent → ν) (note' : Extent → μ) (i j : Nat)
    (s : List Symbol) : Prop :=
  ∀ a b, a < b → b ≤ s.length → f (note ⟨i + a, i + b⟩) = note' ⟨j + a, j + b⟩

/-- No notes. -/
abbrev noNote : Extent → Unit := fun _ ↦ ()

namespace Moves

theorem noNote : Moves (fun _ ↦ ()) note noNote i j s := fun _ _ _ _ ↦ rfl

/-- The notes on the symbols in front. -/
theorem left (h : Moves f note note' i j (s ++ t)) : Moves f note note' i j s := by
  intro a b hab hb
  exact h a b hab (List.length_append ▸ Nat.le_add_right_of_le hb)

/-- The notes on the symbols behind. -/
theorem right (h : Moves f note note' i j (s ++ t)) :
    Moves f note note' (i + s.length) (j + s.length) t := by
  intro a b hab hb
  have hpart := h (s.length + a) (s.length + b) (Nat.add_lt_add_left hab _)
    (List.length_append ▸ Nat.add_le_add_left hb _)
  simpa only [Nat.add_assoc] using hpart

theorem tail {first : Symbol} (h : Moves f note note' i j (first :: s)) :
    Moves f note note' (i + 1) (j + 1) s :=
  right (s := [first]) h

/-- The note on all of the symbols. -/
theorem note_eq (h : Moves f note note' i j s) (hs : s ≠ []) :
    f (note ⟨i, i + s.length⟩) = note' ⟨j, j + s.length⟩ :=
  h 0 s.length (List.length_pos_iff.mpr hs) (Nat.le_refl _)

end Moves

/-! ## Phrases in a row -/

section Rows

variable {α β : Type} {p : Phrase α} {q : Phrase β} {g : α → β} {xs : List α}
  (hpq : ∀ ⦃i x s⦄, p i x s → ∀ ⦃j⦄, Moves f note note' i j s → q j (g x) s)

include hpq

theorem Phrase.Behind.elsewhere {kind : Kind} {x : α} (h : Behind kind p i x s)
    (hm : Moves f note note' i j s) : Behind kind q j (g x) s := by
  obtain ⟨hs, hx⟩ := h
  exact .mk hs (hpq hx hm.tail)

/-- A row somewhere else, given its items somewhere else. -/
theorem Phrase.Many.elsewhere (h : Many p i xs s) (hm : Moves f note note' i j s) :
    Many q j (xs.map g) s := by
  induction h generalizing j with
  | nil => exact .nil
  | cons hx _ ih => exact .cons (hpq hx hm.left) (ih hm.right)

theorem Phrase.Separated.elsewhere (h : Separated p i xs s) (hm : Moves f note note' i j s) :
    Separated q j (xs.map g) s := by
  obtain ⟨hx, hxs⟩ := h
  exact .mk (hpq hx hm.left) (hxs.elsewhere (fun _ _ _ h _ ↦ h.elsewhere hpq) hm.right)

/-- Statements somewhere else. -/
theorem Phrase.Statements.elsewhere (h : Statements p i xs s) (hm : Moves f note note' i j s) :
    Statements q j (xs.map g) s := by
  induction h generalizing j with
  | nil => exact .nil
  | empty hs _ ih => exact .empty hs (ih hm.tail)
  | cons hx _ ih => exact .cons (hpq hx hm.left) (ih hm.right)

theorem Phrase.Block.elsewhere (h : Block p i xs s) (hm : Moves f note note' i j s) :
    Block q j (xs.map g) s := by
  obtain ⟨hl, hxs, hr⟩ := h
  exact .mk hl (hxs.elsewhere hpq hm.tail.left) hr

end Rows

/-! ## What has no notes -/

theorem Phrase.Name.elsewhere {w : String} (h : Name i w s) (j : Nat) : Name j w s := by
  obtain ⟨hs⟩ := h
  exact .mk hs

theorem dots_elsewhere {ws : List String} (h : Many (Behind .dot Name) i ws s) (j : Nat) :
    Many (Behind .dot Name) j ws s := by
  have hm : Moves (fun _ ↦ ()) noNote noNote i j s := .noNote
  have hmany := h.elsewhere (fun _ _ _ h _ ↦ h.elsewhere (g := id) fun _ _ _ h j _ ↦ h.elsewhere j)
    hm
  rwa [List.map_id] at hmany

theorem Phrase.Text.elsewhere {content : String} (h : Text i content s) (j : Nat) :
    Text j content s := by
  obtain ⟨hs, hc⟩ := h
  exact .mk hs hc

theorem Literal.Derives.elsewhere {v : Literal} (h : v.Derives i s) (j : Nat) : v.Derives j s := by
  cases h with
  | bool hs => exact .bool hs
  | text ht => exact .text (ht.elsewhere j)
  | number hs hn => exact .number hs hn
  | signed hsign hn hinf hnan => exact .signed hsign hn hinf hnan
  | infinity hsign hs => exact .infinity hsign hs
  | nan hsign hs => exact .nan hsign hs

theorem Phrase.Integer.elsewhere {n : Int} (h : Integer i n s) (j : Nat) : Integer j n s := by
  rcases h with ⟨⟨hn, hfits⟩, hs⟩ | ⟨hm, hn, hfits⟩
  · exact .plain (.mk hn hfits) hs
  · exact .negative hm hn hfits

theorem NumberRange.Derives.elsewhere {x : NumberRange} (h : x.Derives Integer i s) (j : Nat) :
    x.Derives Integer j s := by
  cases h with
  | single hn => exact .single (hn.elsewhere j)
  | toMax hn hto hmax => exact .toMax (hn.elsewhere j) hto hmax
  | span hn hto hm hmax => exact .span (hn.elsewhere j) hto (hm.elsewhere _) hmax

theorem separated_elsewhere {α : Type} {p : Phrase α} (hp : ∀ ⦃i x s⦄, p i x s → ∀ j, p j x s)
    {xs : List α} (h : Separated p i xs s) (j : Nat) : Separated p j xs s := by
  have hm : Moves (fun _ ↦ ()) noNote noNote i j s := .noNote
  have hseparated := h.elsewhere (g := id) (fun _ _ _ h j _ ↦ hp h j) hm
  rwa [List.map_id] at hseparated

theorem ranges_elsewhere {xs : List NumberRange}
    (h : Separated (NumberRange.Derives Integer) i xs s) (j : Nat) :
    Separated (NumberRange.Derives Integer) j xs s :=
  separated_elsewhere (fun _ _ _ h ↦ h.elsewhere) h j

theorem texts_elsewhere {xs : List String} (h : Separated Text i xs s) (j : Nat) :
    Separated Text j xs s :=
  separated_elsewhere (fun _ _ _ h ↦ h.elsewhere) h j

/-! ## Names -/

/-- A name somewhere else is the same name. -/
theorem FullName.Derives.elsewhere {x : FullName ν} (h : x.Derives note i s)
    (hm : Moves f note note' i j s) : (x.map f).Derives note' j s := by
  obtain ⟨⟨hs⟩, tail⟩ := h
  simp only [FullName.map, hm.note_eq (by simp)]
  exact .mk (.mk hs) (dots_elsewhere tail _)

theorem OptionName.Derives.elsewhere {x : OptionName ν} (h : x.Derives note i s)
    (hm : Moves f note note' i j s) : (x.map f).Derives note' j s := by
  rcases h with ⟨⟨hs⟩, tail⟩ | ⟨⟨hl, hroot, hx, hr⟩, tail⟩
  · simp only [OptionName.map, hm.note_eq (by simp)]
    exact .plain (.mk hs) (dots_elsewhere tail _)
  · simp only [OptionName.map, hm.note_eq (by simp)]
    exact .extension (.mk hl hroot (hx.elsewhere hm.left.tail.right.left) hr)
      (dots_elsewhere tail _)

/-- A type somewhere else is the same type. -/
theorem TypeRef.Derives.elsewhere {x : TypeRef ν} (h : x.Derives note i s)
    (hm : Moves f note note' i j s) : (x.map f).Derives note' j s := by
  cases h with
  | primitive hs =>
    have hnote : f (note ⟨i, i + 1⟩) = note' ⟨j, j + 1⟩ := hm.note_eq (by simp)
    simp only [TypeRef.map, hnote]
    exact .primitive hs
  | named hroot hs tail =>
    simp only [TypeRef.map, hm.note_eq (by simp)]
    exact .named hroot hs (dots_elsewhere tail _)

/-! ## Options -/

/-- A value somewhere else is the same value. -/
theorem Constant.Derives.elsewhere {v : Constant ν} (h : v.Derives note i s)
    (hm : Moves f note note' i j s) : (v.map f).Derives note' j s := by
  cases h with
  | name hs hn => exact .name hs (hn.elsewhere hm)
  | literal hv =>
    simp only [Constant.map, hm.note_eq (List.ne_nil_of_length_pos hv.pos)]
    exact .literal (hv.elsewhere j)

theorem Setting.DerivesEntry.elsewhere {x : Setting ν} (h : x.DerivesEntry note i s)
    (hm : Moves f note note' i j s) : (x.map f).DerivesEntry note' j s := by
  obtain ⟨hn, heq, hv⟩ := h
  simp only [Setting.map, hm.note_eq (by simp)]
  exact .mk (hn.elsewhere hm.left) heq (hv.elsewhere hm.right.tail)

theorem Setting.Bracketed.elsewhere {xs : List (Setting ν)} (h : Bracketed note i xs s)
    (hm : Moves f note note' i j s) : Bracketed note' j (xs.map (Setting.map f)) s := by
  cases h with
  | none => exact .none
  | some hl hxs hr =>
    exact .some hl (hxs.elsewhere (fun _ _ _ h _ ↦ h.elsewhere) hm.tail.left) hr

theorem Setting.Derives.elsewhere {x : Setting ν} (h : x.Derives note i s)
    (hm : Moves f note note' i j s) : (x.map f).Derives note' j s := by
  obtain ⟨hword, hn, heq, hv, hsemi⟩ := h
  simp only [Setting.map, hm.note_eq (by simp)]
  exact .mk hword (hn.elsewhere hm.tail.left) heq (hv.elsewhere hm.tail.right.tail.left) hsemi

/-! ## Fields -/

section Fields

variable {config config' : Config} (hconfig : config.allowNegative → config'.allowNegative)

include hconfig in
theorem Phrase.Numbered.elsewhere {name : String} {n : Int} {options : List (Setting ν)}
    (h : Numbered Integer config note i (name, n, options) s) (hm : Moves f note note' i j s) :
    Numbered Integer config' note' j (name, n, options.map (Setting.map f)) s := by
  obtain ⟨hname, heq, ⟨hn, ha⟩, ho⟩ := h
  exact .mk hname heq (.mk (hn.elsewhere _) (ha.imp_right hconfig))
    (ho.elsewhere hm.tail.tail.right)

include hconfig in
/-- A field somewhere else, under a configuration that admits its number. -/
theorem Field.Derives.elsewhere {x : Field ν} (h : x.Derives config note i s)
    (hm : Moves f note note' i j s) : (x.map f).Derives config' note' j s := by
  cases h with
  | labelled hl htype hn hsemi =>
    simp only [Field.map, hm.note_eq (by simp)]
    exact .labelled hl (htype.elsewhere hm.tail.left) (hn.elsewhere hconfig hm.tail.right.left)
      hsemi
  | @plain _ first _ _ _ _ _ s t hl htype hn hsemi =>
    simp only [Field.map, hm.note_eq (by simp)]
    have htype' := htype.elsewhere (Moves.left (s := first :: s) hm)
    exact .plain hl htype' (hn.elsewhere hconfig hm.tail.right.left) hsemi

include hconfig in
theorem MapField.Derives.elsewhere {x : MapField ν} (h : x.Derives Integer config note i s)
    (hm : Moves f note note' i j s) : (x.map f).Derives Integer config' note' j s := by
  obtain ⟨hword, hless, hkey, hcomma, htype, hgreater, hn, hsemi⟩ := h
  simp only [MapField.map, hm.note_eq (by simp)]
  exact .mk hword hless hkey hcomma (htype.elsewhere hm.tail.tail.tail.tail.left) hgreater
    (hn.elsewhere hconfig hm.tail.tail.tail.tail.right.tail.left) hsemi

theorem Field.DerivesValue.elsewhere {x : Field ν} (h : x.DerivesValue note i s)
    (hm : Moves f note note' i j s) : (x.map f).DerivesValue note' j s := by
  obtain ⟨hname, heq, hn, ho, hsemi⟩ := h
  simp only [Field.map, hm.note_eq (by simp)]
  exact .mk hname heq (hn.elsewhere _) (ho.elsewhere hm.tail.tail.right.left) hsemi

/-! ## Statements of a message body -/

theorem Extensions.Derives.elsewhere {x : Extensions ν} (h : x.Derives Integer note i s)
    (hm : Moves f note note' i j s) : (x.map f).Derives Integer note' j s := by
  obtain ⟨hword, hr, ho, hsemi⟩ := h
  simp only [Extensions.map, hm.note_eq (by simp)]
  exact .mk hword (ranges_elsewhere hr _) (ho.elsewhere hm.tail.right.left) hsemi

theorem Reserved.Derives.elsewhere {x : Reserved ν} (h : x.Derives Integer note i s)
    (hm : Moves f note note' i j s) : (x.map f).Derives Integer note' j s := by
  obtain ⟨hword, hitems, hsemi⟩ := h
  simp only [Reserved.map, hm.note_eq (by simp)]
  cases hitems with
  | names h => exact .mk hword (.names (texts_elsewhere h _)) hsemi
  | ranges h hs => exact .mk hword (.ranges (ranges_elsewhere h _) hs) hsemi

include hconfig in
theorem Grammar.OneOfItem.Derives.elsewhere {x : OneOfItem ν} (h : x.Derives config note i s)
    (hm : Moves f note note' i j s) : (x.map f).Derives config' note' j s := by
  cases h with
  | setting h => exact .setting (h.elsewhere hm)
  | field h hfirst => exact .field (h.elsewhere hconfig hm) hfirst

/-- A oneof from its items, when their notes have been changed. -/
theorem OneOf.Derives.of_items {word name : Symbol} {items : List (OneOfItem ν)} {loc : ν}
    (hword : word.isWord "oneof") (hname : name.isName)
    (hitems : Block (OneOfItem.Derives config note') (j + 2) (items.map (OneOfItem.map f)) s)
    (hloc : f loc = note' ⟨j, j + (word :: name :: s).length⟩) :
    (OneOf.map f ⟨name.lexeme, items.filterMap OneOfItem.setting?, items.filterMap OneOfItem.field?,
      loc⟩).Derives config note' j (word :: name :: s) := by
  have hderives : OneOf.Derives config note' j _ _ := .mk hword hname hitems
  rw [filterMap_map_comm OneOfItem.setting? (Setting.map f) (fun a ↦ by cases a <;> rfl),
    filterMap_map_comm OneOfItem.field? (Field.map f) (fun a ↦ by cases a <;> rfl), ← hloc]
    at hderives
  exact hderives

include hconfig in
theorem OneOf.Derives.elsewhere {x : OneOf ν} (h : x.Derives config note i s)
    (hm : Moves f note note' i j s) : (x.map f).Derives config' note' j s := by
  obtain ⟨hword, hname, hitems⟩ := h
  have hitems' := hitems.elsewhere (g := OneOfItem.map f) (fun _ _ _ h _ ↦ h.elsewhere hconfig)
    hm.tail.tail
  exact .of_items hword hname hitems' (hm.note_eq (by simp))

theorem Grammar.EnumItem.Derives.elsewhere {x : EnumItem ν} (h : x.Derives Integer note i s)
    (hm : Moves f note note' i j s) : (x.map f).Derives Integer note' j s := by
  cases h with
  | setting h => exact .setting (h.elsewhere hm)
  | reserved h hnext => exact .reserved (h.elsewhere hm) hnext
  | value h => exact .value (h.elsewhere hm)

/-- An enum from its items, when their notes have been changed. -/
theorem EnumType.Derives.of_items {word name : Symbol} {items : List (EnumItem ν)} {loc : ν}
    (hword : word.isWord "enum") (hname : name.isName)
    (hitems : Block (EnumItem.Derives Integer note') (j + 2) (items.map (EnumItem.map f)) s)
    (hloc : f loc = note' ⟨j, j + (word :: name :: s).length⟩) :
    (EnumType.map f
      ⟨name.lexeme, items.filterMap EnumItem.setting?, items.filterMap EnumItem.value?,
      items.filterMap EnumItem.reserved?, loc⟩).Derives Integer note' j (word :: name :: s) := by
  have hderives : EnumType.Derives Integer note' j _ _ := .mk hword hname hitems
  rw [filterMap_map_comm EnumItem.setting? (Setting.map f) (fun a ↦ by cases a <;> rfl),
    filterMap_map_comm EnumItem.value? (Field.map f) (fun a ↦ by cases a <;> rfl),
    filterMap_map_comm EnumItem.reserved? (Reserved.map f) (fun a ↦ by cases a <;> rfl), ← hloc]
    at hderives
  exact hderives

theorem EnumType.Derives.elsewhere {x : EnumType ν} (h : x.Derives Integer note i s)
    (hm : Moves f note note' i j s) : (x.map f).Derives Integer note' j s := by
  obtain ⟨hword, hname, hitems⟩ := h
  have hitems' := hitems.elsewhere (g := EnumItem.map f) (fun _ _ _ h _ ↦ h.elsewhere) hm.tail.tail
  exact .of_items hword hname hitems' (hm.note_eq (by simp))

/-! ## Blocks -/

section Members

variable {inner : Body → Phrase (List (Member ν))} {inner' : Body → Phrase (List (Member μ))}
  (hinner : ∀ ⦃b i xs s⦄, inner b i xs s →
    ∀ ⦃j⦄, Moves f note note' i j s → inner' b j (xs.map (Member.map f)) s)

include hinner

theorem Member.DerivesMessage.elsewhere {x : Member ν} (h : x.DerivesMessage note inner i s)
    (hm : Moves f note note' i j s) : (x.map f).DerivesMessage note' inner' j s := by
  obtain ⟨hword, hname, hbody⟩ := h
  simp only [Member.map, Member.mapAll_eq_map, hm.note_eq (by simp)]
  exact .mk hword hname (hinner hbody hm.tail.tail)

theorem Member.DerivesExtend.elsewhere {x : Member ν} (h : x.DerivesExtend note inner i s)
    (hm : Moves f note note' i j s) : (x.map f).DerivesExtend note' inner' j s := by
  obtain ⟨hword, htype, hbody⟩ := h
  simp only [Member.map, Member.mapAll_eq_map, hm.note_eq (by simp)]
  exact .mk hword (htype.elsewhere hm.tail.left) (hinner hbody hm.tail.right)

include hconfig

theorem Member.DerivesGroup.elsewhere {x : Member ν}
    (h : x.DerivesGroup Integer config note inner i s) (hm : Moves f note note' i j s) :
    (x.map f).DerivesGroup Integer config' note' inner' j s := by
  obtain ⟨hl, hword, hn, hbody⟩ := h
  simp only [Member.map, Member.mapAll_eq_map, hm.note_eq (by simp)]
  exact .mk hl hword (hn.elsewhere hconfig hm.tail.tail.left) (hinner hbody hm.tail.tail.right)

/-- A member somewhere else, given the bodies in it somewhere else. -/
theorem Member.Derives.elsewhere {x : Member ν} {b : Body}
    (h : x.Derives Integer config note inner b i s) (hm : Moves f note note' i j s) :
    (x.map f).Derives Integer config' note' inner' b j s := by
  cases h with
  | field h hb => exact .field (h.elsewhere hconfig hm) hb
  | group h => exact .group (h.elsewhere hconfig hinner hm)
  | message h => exact .message (h.elsewhere hinner hm)
  | enumType h => exact .enumType (h.elsewhere hm)
  | extend h hnext => exact .extend (h.elsewhere hinner hm) hnext
  | extensions h hnext => exact .extensions (h.elsewhere hm) hnext
  | setting h => exact .setting (h.elsewhere hm)
  | oneOf h => exact .oneOf (h.elsewhere hconfig hm)
  | reserved h hnext => exact .reserved (h.elsewhere hm) hnext
  | mapField h => exact .mapField (h.elsewhere hconfig hm)

end Members

include hconfig

/-- A body somewhere else, where blocks may be nested as deep; by induction on how deep. -/
theorem Body.Derives.elsewhere {depth depth' : Nat} (hdepth : depth ≤ depth') {b : Body}
    {xs : List (Member ν)} (h : Body.Derives Integer config note depth b i xs s)
    (hm : Moves f note note' i j s) :
    Body.Derives Integer config' note' depth' b j (xs.map (Member.map f)) s := by
  induction depth generalizing depth' b i xs s j with
  | zero => exact h.elim
  | succ depth ih =>
    obtain ⟨depth', rfl⟩ := Nat.exists_eq_succ_of_ne_zero (Nat.ne_zero_of_lt hdepth)
    have hinner ⦃b i xs s⦄ (h : Body.Derives Integer config note depth b i xs s) ⦃j⦄
        (hm : Moves f note note' i j s) :=
      ih (Nat.le_of_succ_le_succ hdepth) h hm
    exact Block.elsewhere (fun _ _ _ h _ ↦ h.elsewhere hconfig hinner) h hm

omit hconfig

/-! ## Services -/

theorem Rpc.Endpoint.elsewhere {x : Bool × TypeRef ν} (h : Rpc.Endpoint note i x s)
    (hm : Moves f note note' i j s) : Rpc.Endpoint note' j (x.1, x.2.map f) s := by
  cases h with
  | plain hl htype hfirst hr => exact .plain hl (htype.elsewhere hm.tail.left) hfirst hr
  | stream hl hword htype hr => exact .stream hl hword (htype.elsewhere hm.tail.tail.left) hr

theorem Rpc.End.elsewhere {xs : List (Setting ν)} (h : Rpc.End note i xs s)
    (hm : Moves f note note' i j s) : Rpc.End note' j (xs.map (Setting.map f)) s := by
  cases h with
  | semicolon hsemi => exact .semicolon hsemi
  | block h => exact .block (h.elsewhere (fun _ _ _ h _ ↦ h.elsewhere) hm)

theorem Rpc.Derives.elsewhere {x : Rpc ν} (h : x.Derives note i s)
    (hm : Moves f note note' i j s) : (x.map f).Derives note' j s := by
  obtain ⟨hword, hname, hin, hreturns, hout, hend⟩ := h
  simp only [Rpc.map, hm.note_eq (by simp)]
  have hrest := hm.tail.tail.right.tail
  exact .mk hword hname (hin.elsewhere hm.tail.tail.left) hreturns (hout.elsewhere hrest.left)
    (hend.elsewhere hrest.right)

theorem ServiceItem.Derives.elsewhere {x : ServiceItem ν} (h : x.Derives note i s)
    (hm : Moves f note note' i j s) : (x.map f).Derives note' j s := by
  cases h with
  | setting h => exact .setting (h.elsewhere hm)
  | rpc h => exact .rpc (h.elsewhere hm)

theorem Service.Derives.elsewhere {x : Service ν} (h : x.Derives note i s)
    (hm : Moves f note note' i j s) : (x.map f).Derives note' j s := by
  obtain ⟨hword, hname, hitems⟩ := h
  simp only [Service.map, hm.note_eq (by simp)]
  exact .mk hword hname (hitems.elsewhere (fun _ _ _ h _ ↦ h.elsewhere) hm.tail.tail)

/-! ## Files -/

theorem Import.Derives.elsewhere {x : Import ν} (h : x.Derives note i s)
    (hm : Moves f note note' i j s) : (x.map f).Derives note' j s := by
  obtain ⟨hword, hmodifier, hfile, hsemi⟩ := h
  simp only [Import.map, hm.note_eq (by simp)]
  exact .mk hword hmodifier (hfile.elsewhere _) hsemi

theorem Package.Derives.elsewhere {x : Package ν} (h : x.Derives note i s)
    (hm : Moves f note note' i j s) : (x.map f).Derives note' j s := by
  obtain ⟨hword, hname, hsemi⟩ := h
  simp only [Package.map, hm.note_eq (by simp)]
  exact .mk hword (hname.elsewhere hm.tail.left) hsemi

theorem VersionStatement.Derives.elsewhere {x : VersionStatement ν} (h : x.Derives note i s)
    (hm : Moves f note note' i j s) : (x.map f).Derives note' j s := by
  obtain ⟨hword, heq, htext, hv, hsemi⟩ := h
  simp only [VersionStatement.map, hm.note_eq (by simp)]
  exact .mk hword heq (htext.elsewhere _) hv hsemi

theorem VersionStatement.Optional.elsewhere {x? : Option (VersionStatement ν)}
    (h : Optional note i x? s) (hm : Moves f note note' i j s) :
    Optional note' j (x?.map (VersionStatement.map f)) s := by
  cases h with
  | none => exact .none
  | some h => exact .some (h.elsewhere hm)

include hconfig

/-- A statement at the top of a file is the same statement anywhere at the top of a file, as long as
blocks may be nested as deep there. -/
theorem Directive.Derives.elsewhere {x : Directive ν} (hdepth : config.maxDepth ≤ config'.maxDepth)
    (h : x.Derives Integer config note i s) (hm : Moves f note note' i j s) :
    (x.map f).Derives Integer config' note' j s := by
  have hinner ⦃b i xs s⦄ (h : Body.Derives Integer config note config.maxDepth b i xs s) ⦃j⦄
      (hm : Moves f note note' i j s) :=
    h.elsewhere hconfig hdepth hm
  cases h with
  | importFile h => exact .importFile (h.elsewhere hm)
  | package h => exact .package (h.elsewhere hm)
  | setting h => exact .setting (h.elsewhere hm)
  | message h => exact .message (h.elsewhere hinner hm)
  | enumType h => exact .enumType (h.elsewhere hm)
  | extend h => exact .extend (h.elsewhere hinner hm)
  | service h => exact .service (h.elsewhere hm)

/-- A file with other notes, and under a configuration that admits no less. -/
theorem Schema.Derives.elsewhere {x : Schema ν} (hdepth : config.maxDepth ≤ config'.maxDepth)
    (h : x.Derives Integer config note i s) (hm : Moves f note note' i j s) :
    (x.map f).Derives Integer config' note' j s := by
  obtain ⟨hv, hds⟩ := h
  exact .mk (hv.elsewhere hm.left)
    (hds.elsewhere (fun _ _ _ h _ ↦ h.elsewhere hconfig hdepth) hm.right)

end Fields

end ProtoSchema
