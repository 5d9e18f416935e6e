import Mathlib.Data.List.Pairwise
import ProtoSchema.Proofs.Grammar.Derivation
import ProtoSchema.Proofs.Schema.Parts

/-!
# Where the nodes of a derived schema lie

The note of a node that is derived from symbols is the extent of those symbols, and so the extents
of a schema are laid out as its symbols are: parts lie inside their node, and what is written one
after another lies one after another.

`Row` is how this is put together.  It is a list of nodes next to each other between two numbers,
along with all the nodes below them; a derivation of several phrases makes a row of the rows of the
phrases, and a node around a row is laid out well because the row is.

## What is here

* `Extent.Inside`, `Extent.Before`, `Extent.Apart` — how two extents can lie.
* `Node.Laid` — a node that is not empty, and whose parts lie inside of it and do not meet.
* `Node.Sits` — a node that is made of given symbols, with nodes below it that are laid out well.
* `Row` — nodes that sit next to each other.  Rows are put behind one another (`Row.append`) and
  made wider (`Row.widen`), and of a row it is known where its nodes lie (`Row.inside`,
  `Row.pairwise`, `Row.laid`).
* `Node.Sits.of_lists`, `Node.Sits.of_row`, `Node.Sits.leaf` — a node with several lists of parts,
  with one, and with none.  The options and the fields of a oneof stand mixed in its body, and the
  tree has a list of each; this is why the parts of a node are taken from a row and need not be all
  of it.
* `Phrase.Many.row` to `Phrase.Block.row` — rows of phrases.
* The rest goes through the grammar, one line of it after another, in the order of
  `ProtoSchema.Proofs.Grammar.Derivation`.  The bodies of blocks are by induction on the depth.
* `Schema.Derives.row` — all nodes of a file.

From extents to tokens and bytes goes `ProtoSchema.Proofs.Grammar.Placement`.
-/

set_option autoImplicit false

namespace ProtoSchema

open Grammar Phrase

/-! ## Rows -/

/-- The one extent lies in the other, and may be all of it. -/
def Extent.Inside (e around : Extent) : Prop := around.start ≤ e.start ∧ e.stop ≤ around.stop

/-- The one extent ends before the other begins, or where it begins. -/
def Extent.Before (e later : Extent) : Prop := e.stop ≤ later.start

/-- The extents have no symbol in common. -/
def Extent.Apart (e e' : Extent) : Prop := e.Before e' ∨ e'.Before e

/-- The node has symbols, and its parts lie well inside of it. -/
structure Node.Laid (n : Node Extent) : Prop where
  nonempty : n.loc.start < n.loc.stop
  nests : n.Nests Extent.Inside Extent.Before

/-- The node is made of the symbols `s`, the first of which has the number `i`, and `all` are nodes
below it or the node itself. -/
structure Node.Sits (i : Nat) (s : List Symbol) (n : Node Extent) (all : List (Node Extent)) :
    Prop where
  loc : n.loc = ⟨i, i + s.length⟩
  pos : 0 < s.length
  laid : ∀ m ∈ all, m.Laid ∧ m.loc.Inside ⟨i, i + s.length⟩

/-- The nodes `row` lie next to each other from `i` up to `j`, and `all` are the nodes below
them. -/
inductive Row : Nat → Nat → List (Node Extent) → List (Node Extent) → Prop
  | nil {i j : Nat} (h : i ≤ j) : Row i j [] []
  | cons {i j k : Nat} {s : List Symbol} {n : Node Extent} {row ns all : List (Node Extent)}
    (hi : i ≤ k) (hn : n.Sits k s ns) (h : Row (k + s.length) j row all) :
    Row i j (n :: row) (ns ++ all)

namespace Row

variable {i j k l : Nat} {row row' all all' : List (Node Extent)}

/-- A row goes forward. -/
theorem le (h : Row i j row all) : i ≤ j := by
  induction h with
  | nil h => exact h
  | cons hi hn _ ih => omega

/-- The nodes of a row lie between any two numbers further apart. -/
theorem widen (h : Row i j row all) (hk : k ≤ i) (hl : j ≤ l) : Row k l row all := by
  induction h generalizing k with
  | nil h => exact .nil (by omega)
  | cons hi hn _ ih => exact .cons (by omega) hn (ih (Nat.le_refl _) hl)

/-- A row behind another one. -/
theorem append (h : Row i j row all) (h' : Row k l row' all') (hjk : j ≤ k) :
    Row i l (row ++ row') (all ++ all') := by
  induction h with
  | nil hij => exact h'.widen (by omega) (Nat.le_refl l)
  | cons hi hn _ ih =>
    rw [List.append_assoc]
    exact .cons hi hn (ih hjk)

/-- A node by itself is a row. -/
theorem single {s : List Symbol} {n : Node Extent} (h : n.Sits i s all) :
    Row i (i + s.length) [n] all := by
  have hrow := Row.cons (Nat.le_refl i) h (.nil (Nat.le_refl (i + s.length)))
  rwa [List.append_nil] at hrow

/-- The nodes of a row lie between its ends. -/
theorem inside (h : Row i j row all) : ∀ n ∈ row, n.loc.Inside ⟨i, j⟩ := by
  induction h with
  | nil => simp
  | @cons i j k s n row ns all hi hn h ih =>
    intro m hm
    rcases List.mem_cons.mp hm with rfl | hm
    · rw [hn.loc]
      exact ⟨hi, h.le⟩
    · obtain ⟨hstart, hstop⟩ := ih m hm
      exact ⟨Nat.le_trans (Nat.le_trans hi (Nat.le_add_right _ _)) hstart, hstop⟩

/-- The nodes of a row lie in their order. -/
theorem pairwise (h : Row i j row all) : row.Pairwise fun a b ↦ a.loc.Before b.loc := by
  induction h with
  | nil => exact .nil
  | cons hi hn h ih =>
    refine .cons (fun m hm ↦ ?_) ih
    rw [hn.loc]
    exact (h.inside m hm).1

/-- Different nodes of a row have no symbol in common. -/
theorem apart (h : Row i j row all) :
    ∀ ⦃a⦄, a ∈ row → ∀ ⦃b⦄, b ∈ row → a ≠ b → a.loc.Apart b.loc := by
  have : Std.Symm fun a b : Node Extent ↦ a.loc.Apart b.loc := ⟨fun _ _ ↦ Or.symm⟩
  have hapart : row.Pairwise fun a b ↦ a.loc.Apart b.loc := h.pairwise.imp Or.inl
  exact hapart.forall

/-- Two lists taken from a row that have no node in common. -/
theorem apart_append {cs ds : List (Node Extent)} (h : Row i j row all) (hcs : cs.Sublist row)
    (hds : ds ⊆ row) (hne : ∀ a ∈ cs, ∀ b ∈ ds, a ≠ b)
    (hapart : ds.Pairwise fun a b ↦ a.loc.Apart b.loc) :
    (cs ++ ds).Pairwise fun a b ↦ a.loc.Apart b.loc := by
  refine List.pairwise_append.mpr ⟨(h.pairwise.sublist hcs).imp Or.inl, hapart, ?_⟩
  exact fun a ha b hb ↦ h.apart (hcs.subset ha) (hds hb) (hne a ha b hb)

/-- All nodes of a row and below it are laid out well, between the ends of the row. -/
theorem laid (h : Row i j row all) : ∀ m ∈ all, m.Laid ∧ m.loc.Inside ⟨i, j⟩ := by
  induction h with
  | nil => simp
  | @cons i j k s n row ns all hi hn h ih =>
    intro m hm
    rcases List.mem_append.mp hm with hm | hm
    · obtain ⟨hlaid, hstart, hstop⟩ := hn.laid m hm
      exact ⟨hlaid, Nat.le_trans hi hstart, Nat.le_trans hstop h.le⟩
    · obtain ⟨hlaid, hstart, hstop⟩ := ih m hm
      exact ⟨hlaid, Nat.le_trans (Nat.le_trans hi (Nat.le_add_right _ _)) hstart, hstop⟩

end Row

/-- A node whose parts are taken from a row.  A node with several lists of parts takes the members
of each list from the row in their order. -/
theorem Node.Sits.of_lists {i j k : Nat} {s : List Symbol} {n : Node Extent}
    {row all ns : List (Node Extent)} (hloc : n.loc = ⟨i, i + s.length⟩) (hpos : 0 < s.length)
    (hrow : Row j k row all) (hj : i ≤ j) (hk : k ≤ i + s.length)
    (hparts : ∀ cs ∈ n.parts, cs.Sublist row)
    (hapart : n.parts.flatten.Pairwise fun a b ↦ a.loc.Apart b.loc)
    (hns : ∀ m ∈ ns, m = n ∨ m ∈ all) : n.Sits i s ns := by
  refine ⟨hloc, hpos, fun m hm ↦ ?_⟩
  rcases hns m hm with rfl | hm
  · refine ⟨⟨?_, ?_, fun cs hcs ↦ hrow.pairwise.sublist (hparts cs hcs), hapart⟩, ?_⟩
    · rw [hloc]
      exact Nat.lt_add_of_pos_right hpos
    · intro c hc
      obtain ⟨cs, hcs, hc⟩ := List.mem_flatten.mp hc
      obtain ⟨hstart, hstop⟩ := hrow.inside c ((hparts cs hcs).subset hc)
      rw [hloc]
      exact ⟨Nat.le_trans hj hstart, Nat.le_trans hstop hk⟩
    · rw [hloc]
      exact ⟨Nat.le_refl _, Nat.le_refl _⟩
  · obtain ⟨hlaid, hstart, hstop⟩ := hrow.laid m hm
    exact ⟨hlaid, Nat.le_trans hj hstart, Nat.le_trans hstop hk⟩

/-- A node whose parts are a row. -/
theorem Node.Sits.of_row {i j k : Nat} {s : List Symbol} {n : Node Extent}
    {row all : List (Node Extent)} (hloc : n.loc = ⟨i, i + s.length⟩) (hpos : 0 < s.length)
    (hrow : Row j k row all) (hj : i ≤ j) (hk : k ≤ i + s.length) (hparts : n.parts = [row]) :
    n.Sits i s (n :: all) := by
  refine .of_lists hloc hpos hrow hj hk ?_ ?_ ?_
  · simp [hparts]
  · rw [hparts, List.flatten_singleton]
    exact hrow.pairwise.imp Or.inl
  · exact fun m hm ↦ List.mem_cons.mp hm

/-- A node without parts. -/
theorem Node.Sits.leaf {i : Nat} {s : List Symbol} {n : Node Extent}
    (hloc : n.loc = ⟨i, i + s.length⟩) (hpos : 0 < s.length) (hparts : n.parts = []) :
    n.Sits i s [n] := by
  refine .of_lists hloc hpos (.nil (Nat.le_refl i)) (Nat.le_refl i) (Nat.le_add_right _ _) ?_ ?_ ?_
  · simp [hparts]
  · simp [hparts]
  · exact fun m hm ↦ .inl (List.mem_singleton.mp hm)

/-! ## Rows of phrases -/

section Phrases

variable {α : Type} {p : Phrase α} {node : α → Node Extent} {nodes : α → List (Node Extent)}
  {i : Nat} {xs : List α} {s : List Symbol}
  (hp : ∀ ⦃i x s⦄, p i x s → Row i (i + s.length) [node x] (nodes x))

include hp

theorem Phrase.Many.row (h : Many p i xs s) :
    Row i (i + s.length) (xs.map node) (xs.flatMap nodes) := by
  induction h with
  | nil => exact .nil (Nat.le_refl _)
  | @cons i x xs s t hx _ ih =>
    have hrow := (hp hx).append ih (Nat.le_refl _)
    rwa [Nat.add_assoc, ← List.length_append] at hrow

theorem Phrase.Behind.row {kind : Kind} {x : α} (h : Behind kind p i x s) :
    Row i (i + s.length) [node x] (nodes x) := by
  obtain ⟨-, hx⟩ := h
  exact (hp hx).widen (Nat.le_succ i) (by simp; omega)

theorem Phrase.Separated.row (h : Separated p i xs s) :
    Row i (i + s.length) (xs.map node) (xs.flatMap nodes) := by
  cases h with
  | mk hx hxs =>
    have hrow := (hp hx).append (hxs.row fun _ _ _ h ↦ h.row hp) (Nat.le_refl _)
    rwa [Nat.add_assoc, ← List.length_append] at hrow

theorem Phrase.Statements.row (h : Statements p i xs s) :
    Row i (i + s.length) (xs.map node) (xs.flatMap nodes) := by
  induction h with
  | nil => exact .nil (Nat.le_refl _)
  | empty _ _ ih => exact ih.widen (Nat.le_succ _) (by simp; omega)
  | @cons i x xs s t hx _ ih =>
    have hrow := (hp hx).append ih (Nat.le_refl _)
    rwa [Nat.add_assoc, ← List.length_append] at hrow

theorem Phrase.Block.row (h : Block p i xs s) :
    Row i (i + s.length) (xs.map node) (xs.flatMap nodes) := by
  obtain ⟨-, hxs, -⟩ := h
  exact (hxs.row hp).widen (Nat.le_succ _) (by simp; omega)

end Phrases

/-! ## Names and values -/

variable {i : Nat} {s : List Symbol}

theorem FullName.Derives.sits {x : FullName Extent} (h : x.Derives id i s) :
    (Node.fullName x).Sits i s [.fullName x] := by
  obtain ⟨head, -⟩ := h
  obtain ⟨-⟩ := head
  exact .leaf rfl (by simp) rfl

theorem OptionName.Derives.sits {x : OptionName Extent} (h : x.Derives id i s) :
    (Node.optionName x).Sits i s [.optionName x] := by
  obtain ⟨⟨-⟩, -⟩ | ⟨⟨-, -, -, -⟩, -⟩ := h <;> exact .leaf rfl (by simp) rfl

theorem TypeRef.Derives.sits {x : TypeRef Extent} (h : x.Derives id i s) :
    (Node.typeRef x).Sits i s [.typeRef x] := by
  obtain - | ⟨hroot, -, -⟩ := h
  · exact .leaf rfl (by simp) rfl
  · exact .leaf rfl (by simp only [List.length_append, List.length_cons]; omega) rfl

theorem Constant.Derives.sits {x : Constant Extent} (h : x.Derives id i s) :
    (Node.constant x).Sits i s x.nodes := by
  cases h with
  | name _ hn =>
    have hsits := hn.sits
    exact .of_row hsits.loc hsits.pos (.single hsits) (Nat.le_refl _) (Nat.le_refl _) rfl
  | @literal _ v _ hv =>
    have hsits : (Node.literal v ⟨i, i + s.length⟩).Sits i s [.literal v ⟨i, i + s.length⟩] :=
      .leaf rfl hv.pos rfl
    exact .of_row rfl hv.pos (.single hsits) (Nat.le_refl _) (Nat.le_refl _) rfl

/-! ## Options -/

/-- The two parts of an option, whatever stands around them. -/
theorem Setting.sits_of_parts {j : Nat} {x : Setting Extent} {s t u : List Symbol}
    (hn : x.name.Derives id j t) (hv : x.value.Derives id (j + t.length + 1) u)
    (hloc : x.loc = ⟨i, i + s.length⟩) (hj : i ≤ j)
    (hs : j + t.length + 1 + u.length ≤ i + s.length) : x.node.Sits i s x.nodes := by
  have hrow := (Row.single hn.sits).append (.single hv.sits) (Nat.le_succ _)
  exact .of_row hloc (by omega) hrow hj hs rfl

theorem Setting.DerivesEntry.sits {x : Setting Extent} (h : x.DerivesEntry id i s) :
    x.node.Sits i s x.nodes := by
  obtain ⟨hn, -, hv⟩ := h
  exact sits_of_parts hn hv rfl (Nat.le_refl i) (by simp; omega)

theorem Setting.Derives.sits {x : Setting Extent} (h : x.Derives id i s) :
    x.node.Sits i s x.nodes := by
  obtain ⟨-, hn, -, hv, -⟩ := h
  exact sits_of_parts hn hv rfl (Nat.le_succ i) (by simp; omega)

theorem Setting.Bracketed.row {xs : List (Setting Extent)} (h : Setting.Bracketed id i xs s) :
    Row i (i + s.length) (xs.map Setting.node) (xs.flatMap Setting.nodes) := by
  cases h with
  | none => exact .nil (Nat.le_refl _)
  | some _ hxs _ =>
    exact (hxs.row fun _ _ _ h ↦ .single h.sits).widen (Nat.le_succ i) (by simp; omega)

/-! ## Fields -/

section Fields

variable {number : Phrase Int} {config : Config}

theorem Numbered.row {name : String} {n : Int} {options : List (Setting Extent)}
    (h : Numbered number config id i (name, n, options) s) :
    Row i (i + s.length) (options.map Setting.node) (options.flatMap Setting.nodes) := by
  obtain ⟨-, -, -, ho⟩ := h
  exact ho.row.widen (by omega) (by simp; omega)

theorem Field.Derives.sits {x : Field Extent} (h : x.Derives config id i s) :
    x.node.Sits i s x.nodes := by
  obtain ⟨-, htype, hn, -⟩ | ⟨-, htype, hn, -⟩ := h
  · have hrow := (Row.single htype.sits).append (Numbered.row hn) (Nat.le_refl _)
    exact .of_row rfl (by simp) hrow (by omega) (by simp; omega) rfl
  · have hrow := (Row.single htype.sits).append (Numbered.row hn) (by simp; omega)
    exact .of_row rfl (by simp) hrow (by omega) (by simp; omega) rfl

theorem Field.DerivesValue.sits {x : Field Extent} (h : x.DerivesValue id i s) :
    x.node.Sits i s x.nodes := by
  obtain ⟨-, -, -, ho, -⟩ := h
  exact .of_row rfl (by simp) ho.row (by omega) (by simp; omega) rfl

theorem MapField.Derives.sits {x : MapField Extent} (h : x.Derives number config id i s) :
    (Node.member (.mapField x)).Sits i s x.nodes := by
  obtain ⟨-, -, -, -, htype, -, hn, -⟩ := h
  have hrow := (Row.single htype.sits).append (Numbered.row hn) (by omega)
  exact .of_row rfl (by simp) hrow (by omega) (by simp; omega) rfl

theorem Extensions.Derives.sits {x : Extensions Extent} (h : x.Derives number id i s) :
    (Node.member (.extensions x)).Sits i s x.nodes := by
  obtain ⟨-, -, ho, -⟩ := h
  exact .of_row rfl (by simp) ho.row (by omega) (by simp; omega) rfl

theorem Reserved.Derives.sits {x : Reserved Extent} (h : x.Derives number id i s) :
    x.node.Sits i s x.nodes := by
  obtain ⟨-, -, -⟩ := h
  exact .leaf rfl (by simp) rfl

end Fields

/-! ## Oneofs and enums -/

section Items

variable {number : Phrase Int} {config : Config}

/-- What stands in a oneof, as a node. -/
def Grammar.OneOfItem.node : OneOfItem Extent → Node Extent
  | .setting s => s.node
  | .field f => f.node

/-- The item and all nodes below it. -/
def Grammar.OneOfItem.nodes : OneOfItem Extent → List (Node Extent)
  | .setting s => s.nodes
  | .field f => f.nodes

theorem Grammar.OneOfItem.Derives.row {x : OneOfItem Extent} (h : x.Derives config id i s) :
    Row i (i + s.length) [x.node] x.nodes := by
  cases h with
  | setting h => exact .single h.sits
  | field h => exact .single h.sits

/-- The items of one sort, in the order of all items. -/
theorem map_filterMap_sublist {α β γ : Type} {choose : α → Option β} {node : α → γ} {g : β → γ}
    (h : ∀ a b, choose a = some b → node a = g b) (xs : List α) :
    ((xs.filterMap choose).map g).Sublist (xs.map node) := by
  induction xs with
  | nil => exact .slnil
  | cons a xs ih =>
    cases ha : choose a with
    | none =>
      rw [List.filterMap_cons_none ha]
      exact ih.cons _
    | some b =>
      rw [List.filterMap_cons_some ha, List.map_cons, List.map_cons, h a b ha]
      exact ih.cons_cons _

/-- What is below the items of one sort is below an item. -/
theorem mem_flatMap_of_filterMap {α β : Type} {choose : α → Option β}
    {nodes : α → List (Node Extent)} {nodes' : β → List (Node Extent)}
    (h : ∀ a b, choose a = some b → nodes a = nodes' b) {xs : List α} {m : Node Extent}
    (hm : m ∈ (xs.filterMap choose).flatMap nodes') : m ∈ xs.flatMap nodes := by
  obtain ⟨b, hb, hm⟩ := List.mem_flatMap.mp hm
  obtain ⟨a, ha, hab⟩ := List.mem_filterMap.mp hb
  exact List.mem_flatMap.mpr ⟨a, ha, h a b hab ▸ hm⟩

theorem OneOf.Derives.sits {x : OneOf Extent} (h : x.Derives config id i s) :
    (Node.member (.oneOf x)).Sits i s x.nodes := by
  obtain @⟨_, _, _, items, t, -, -, hitems⟩ := h
  have hrow := hitems.row fun _ _ _ h ↦ h.row
  have hsettings : ((items.filterMap OneOfItem.setting?).map Setting.node).Sublist
      (items.map OneOfItem.node) :=
    map_filterMap_sublist (fun a _ h ↦ by cases a <;> cases h; rfl) items
  have hfields : ((items.filterMap OneOfItem.field?).map Field.node).Sublist
      (items.map OneOfItem.node) :=
    map_filterMap_sublist (fun a _ h ↦ by cases a <;> cases h; rfl) items
  refine .of_lists rfl (by simp) hrow (by omega) (by simp; omega) ?_ ?_ ?_
  · simp [Node.parts, Member.parts, hsettings, hfields]
  · simp only [Node.parts, Member.parts, List.flatten_cons, List.flatten_nil, List.append_nil]
    refine hrow.apart_append hsettings hfields.subset ?_
      ((hrow.pairwise.sublist hfields).imp Or.inl)
    simp only [List.mem_map]
    rintro _ ⟨_, -, rfl⟩ _ ⟨_, -, rfl⟩
    nofun
  · intro m hm
    simp only [OneOf.nodes, List.cons_append, List.mem_cons, List.mem_append] at hm
    rcases hm with rfl | hm | hm
    · exact .inl rfl
    · exact .inr (mem_flatMap_of_filterMap (fun a _ h ↦ by cases a <;> cases h; rfl) hm)
    · exact .inr (mem_flatMap_of_filterMap (fun a _ h ↦ by cases a <;> cases h; rfl) hm)

/-- What stands in an enum, as a node. -/
def Grammar.EnumItem.node : EnumItem Extent → Node Extent
  | .setting s => s.node
  | .value v => v.node
  | .reserved r => r.node

/-- The item and all nodes below it. -/
def Grammar.EnumItem.nodes : EnumItem Extent → List (Node Extent)
  | .setting s => s.nodes
  | .value v => v.nodes
  | .reserved r => r.nodes

theorem Grammar.EnumItem.Derives.row {x : EnumItem Extent} (h : x.Derives number id i s) :
    Row i (i + s.length) [x.node] x.nodes := by
  cases h with
  | setting h => exact .single h.sits
  | reserved h => exact .single h.sits
  | value h => exact .single h.sits

theorem EnumType.Derives.sits {x : EnumType Extent} (h : x.Derives number id i s) :
    (Node.member (.enumType x)).Sits i s x.nodes := by
  obtain @⟨_, _, _, items, t, -, -, hitems⟩ := h
  have hrow := hitems.row fun _ _ _ h ↦ h.row
  have hsettings : ((items.filterMap EnumItem.setting?).map Setting.node).Sublist
      (items.map EnumItem.node) :=
    map_filterMap_sublist (fun a _ h ↦ by cases a <;> cases h; rfl) items
  have hvalues : ((items.filterMap EnumItem.value?).map Field.node).Sublist
      (items.map EnumItem.node) :=
    map_filterMap_sublist (fun a _ h ↦ by cases a <;> cases h; rfl) items
  have hreserved : ((items.filterMap EnumItem.reserved?).map Reserved.node).Sublist
      (items.map EnumItem.node) :=
    map_filterMap_sublist (fun a _ h ↦ by cases a <;> cases h; rfl) items
  refine .of_lists rfl (by simp) hrow (by omega) (by simp; omega) ?_ ?_ ?_
  · simp [Node.parts, Member.parts, hsettings, hvalues, hreserved]
  · simp only [Node.parts, Member.parts, List.flatten_cons, List.flatten_nil, List.append_nil]
    refine hrow.apart_append hsettings ?_ ?_ (hrow.apart_append hvalues hreserved.subset ?_
      ((hrow.pairwise.sublist hreserved).imp Or.inl))
    · exact List.append_subset.mpr ⟨hvalues.subset, hreserved.subset⟩
    · simp only [List.mem_append, List.mem_map]
      rintro _ ⟨_, -, rfl⟩ _ (⟨_, -, rfl⟩ | ⟨_, -, rfl⟩) <;> nofun
    · simp only [List.mem_map]
      rintro _ ⟨_, -, rfl⟩ _ ⟨_, -, rfl⟩
      nofun
  · intro m hm
    simp only [EnumType.nodes, List.cons_append, List.mem_cons, List.mem_append] at hm
    rcases hm with rfl | (hm | hm) | hm
    · exact .inl rfl
    · exact .inr (mem_flatMap_of_filterMap (fun a _ h ↦ by cases a <;> cases h; rfl) hm)
    · exact .inr (mem_flatMap_of_filterMap (fun a _ h ↦ by cases a <;> cases h; rfl) hm)
    · exact .inr (mem_flatMap_of_filterMap (fun a _ h ↦ by cases a <;> cases h; rfl) hm)

end Items

/-! ## Blocks -/

section Blocks

variable {number : Phrase Int} {config : Config} {inner : Body → Phrase (List (Member Extent))}
  (hinner : ∀ {b i xs s}, inner b i xs s →
    Row i (i + s.length) (xs.map .member) (xs.flatMap Member.nodes))

include hinner

theorem Member.DerivesMessage.sits {x : Member Extent} (h : x.DerivesMessage id inner i s) :
    (Node.member x).Sits i s x.nodes := by
  obtain ⟨-, -, hbody⟩ := h
  rw [Member.nodes, Member.bodyNodes_eq_flatMap]
  exact .of_row rfl (by simp) (hinner hbody) (by omega) (by simp; omega) rfl

theorem Member.DerivesGroup.sits {x : Member Extent}
    (h : x.DerivesGroup number config id inner i s) : (Node.member x).Sits i s x.nodes := by
  obtain ⟨-, -, hn, hbody⟩ := h
  have hrow := (Numbered.row hn).append (hinner hbody) (Nat.le_refl _)
  rw [Member.nodes, Member.bodyNodes_eq_flatMap]
  exact .of_row rfl (by simp) hrow (by omega) (by simp; omega) rfl

theorem Member.DerivesExtend.sits {x : Member Extent} (h : x.DerivesExtend id inner i s) :
    (Node.member x).Sits i s x.nodes := by
  obtain ⟨-, htype, hbody⟩ := h
  have hrow := (Row.single htype.sits).append (hinner hbody) (Nat.le_refl _)
  rw [Member.nodes, Member.bodyNodes_eq_flatMap]
  exact .of_row rfl (by simp) hrow (by omega) (by simp; omega) rfl

theorem Member.Derives.sits {x : Member Extent} {b : Body}
    (h : x.Derives number config id inner b i s) : (Node.member x).Sits i s x.nodes := by
  cases h with
  | field h => exact h.sits
  | group h => exact h.sits hinner
  | message h => exact h.sits hinner
  | enumType h => exact h.sits
  | extend h => exact h.sits hinner
  | extensions h => exact h.sits
  | setting h => exact h.sits
  | oneOf h => exact h.sits
  | reserved h => exact h.sits
  | mapField h => exact h.sits

omit hinner

/-- The members of a body lie in their order, at every depth. -/
theorem Body.Derives.row {depth : Nat} {b : Body} {xs : List (Member Extent)}
    (h : Body.Derives number config id depth b i xs s) :
    Row i (i + s.length) (xs.map .member) (xs.flatMap Member.nodes) := by
  induction depth generalizing b i xs s with
  | zero => exact h.elim
  | succ depth ih => exact Block.row (fun _ _ _ hm ↦ .single (hm.sits ih)) h

end Blocks

/-! ## Services -/

theorem Rpc.Endpoint.row {x : Bool × TypeRef Extent} (h : Rpc.Endpoint id i x s) :
    Row i (i + s.length) [.typeRef x.2] [.typeRef x.2] := by
  obtain ⟨-, htype, -, -⟩ | ⟨-, -, htype, -⟩ := h
  · exact (Row.single htype.sits).widen (by omega) (by simp; omega)
  · exact (Row.single htype.sits).widen (by omega) (by simp; omega)

theorem Rpc.End.row {xs : List (Setting Extent)} (h : Rpc.End id i xs s) :
    Row i (i + s.length) (xs.map Setting.node) (xs.flatMap Setting.nodes) := by
  cases h with
  | semicolon => exact .nil (by omega)
  | block h => exact h.row fun _ _ _ h ↦ .single h.sits

theorem Rpc.Derives.sits {x : Rpc Extent} (h : x.Derives id i s) :
    (Node.rpc x).Sits i s x.nodes := by
  obtain ⟨-, -, hin, -, hout, hend⟩ := h
  have hrow := hin.row.append (hout.row.append hend.row (Nat.le_refl _)) (Nat.le_succ _)
  exact .of_row rfl (by simp) hrow (by omega) (by simp; omega) rfl

theorem ServiceItem.Derives.row {x : ServiceItem Extent} (h : x.Derives id i s) :
    Row i (i + s.length) [x.node] x.nodes := by
  cases h with
  | setting h => exact .single h.sits
  | rpc h => exact .single h.sits

theorem Service.Derives.sits {x : Service Extent} (h : x.Derives id i s) :
    (Node.service x).Sits i s (Directive.service x).nodes := by
  obtain ⟨-, -, hitems⟩ := h
  exact .of_row rfl (by simp) (hitems.row fun _ _ _ h ↦ h.row) (by omega) (by simp; omega) rfl

/-! ## Files -/

variable {number : Phrase Int} {config : Config}

theorem Directive.Derives.sits {x : Directive Extent} (h : x.Derives number config id i s) :
    x.node.Sits i s x.nodes := by
  cases h with
  | importFile h =>
    obtain ⟨-, -, -, -⟩ := h
    exact .leaf rfl (by simp) rfl
  | package h =>
    obtain ⟨-, hname, -⟩ := h
    exact .of_row rfl (by simp) (.single hname.sits) (by omega) (by simp; omega) rfl
  | setting h => exact h.sits
  | message h => exact h.sits Body.Derives.row
  | enumType h => exact h.sits
  | extend h => exact h.sits Body.Derives.row
  | service h => exact h.sits

theorem VersionStatement.Optional.row {x : Option (VersionStatement Extent)}
    (h : VersionStatement.Optional id i x s) :
    Row i (i + s.length) (x.toList.map .version) (x.toList.map .version) := by
  cases h with
  | none => exact .nil (by omega)
  | some h =>
    obtain ⟨-, -, -, -, -⟩ := h
    exact .single (.leaf rfl (by simp) rfl)

/-- **The nodes of a schema lie as its symbols do.** -/
theorem Schema.Derives.row {x : Schema Extent} (h : x.Derives number config id i s) :
    Row i (i + s.length) x.roots x.nodes := by
  obtain ⟨hv, hds⟩ := h
  have hrow := hv.row.append (hds.row fun _ _ _ h ↦ .single h.sits) (Nat.le_refl _)
  rwa [Nat.add_assoc, ← List.length_append] at hrow

end ProtoSchema
