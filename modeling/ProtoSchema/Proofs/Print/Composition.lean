import ProtoSchema.Proofs.Print.OneLine
import ProtoSchema.Proofs.Print.RoundTrip

/-!
# Printing one node after another

A printer is not asked for the text of a node but is taken from one state to another, and the level
of nesting is part of the state.  Still the text of a node is the same wherever it is printed, but
for the tabs in front of its lines, and the level is afterwards what it was before.

`indented k` puts `k` tabs in front of each line of a text.  `Lined f` says that what `f` writes is
whole lines and depends on the level only in this way.  A line is so, and being so is kept by
printing one thing after another and by the braces of a block.  What the braces need is that the
tabs of two levels add up (`indented_indented`).

Names, types and values are no lines, and are printed as they are.

## What is here

* `indented`, `EndsLine` and their lemmas — tabs in front of the lines of a text.  A newline that
  stands inside of a string would get tabs as well, which is why everything here is about texts
  without newlines (`OneLine`).
* `Lined`, with `Lined.line`, `Lined.comp`, `Lined.each` and `Lined.block` — one lemma for each way
  in which a printer is used, and for each of them what is written from an empty printer.
* `Node.Headed` — the nodes that are printed with braces, with their heading and their children.  It
  is one relation for messages, groups, extensions, enums, oneofs, services and calls, so that the
  statement about blocks is one statement.
* `Setting.lined` to `Schema.lined` — each statement is lined, by recursion on the tree.
* `Node.Headed.print_eq` — a block is its heading, its children one level deeper, and the brace.
* `Printable`, `Printable.printAt`, `Printable.print_compositional` — nodes and files at any level,
  one after another.
-/

set_option autoImplicit false

namespace ProtoSchema

/-! ## Tabs in front of lines -/

/-- Characters with `k` tabs in front of each line.  The first character begins a line if `fresh`
says so, another one if it follows a newline. -/
def indentFrom (k : Nat) (fresh : Bool) : List Char → List Char
  | [] => []
  | c :: cs => (if fresh then List.replicate k '\t' else []) ++ c :: indentFrom k (c == '\n') cs

/-- The text with `k` tabs in front of each of its lines. -/
def indented (k : Nat) (text : String) : String := String.ofList (indentFrom k true text.toList)

/-- The text is whole lines, or empty. -/
def EndsLine (text : String) : Prop := text = "" ∨ ∃ front, text = front ++ "\n"

section Indented

variable {j k : Nat} {fresh : Bool} {cs ds : List Char} {text next : String}

/-- Whole lines behind whole lines are whole lines. -/
theorem EndsLine.append (h : EndsLine text) (hnext : EndsLine next) : EndsLine (text ++ next) := by
  rcases hnext with rfl | ⟨front, rfl⟩
  · rwa [String.append_empty]
  · exact .inr ⟨text ++ front, (String.append_assoc ..).symm⟩

/-- Behind a newline a line begins, whatever is in front. -/
theorem indentFrom_append_newline :
    indentFrom k fresh (cs ++ '\n' :: ds) =
      indentFrom k fresh (cs ++ ['\n']) ++ indentFrom k true ds := by
  induction cs generalizing fresh with
  | nil => simp [indentFrom]
  | cons c cs ih => simp [indentFrom, ih]

/-- Tabs are put in front of the lines of two texts as they are in front of those of each. -/
theorem indented_append (h : EndsLine text) :
    indented k (text ++ next) = indented k text ++ indented k next := by
  rcases h with rfl | ⟨front, rfl⟩
  · rw [String.empty_append]
    exact (String.empty_append).symm
  · have hnewline : "\n".toList = ['\n'] := rfl
    simp only [indented, String.toList_append, hnewline, List.append_assoc]
    rw [List.singleton_append, indentFrom_append_newline, String.ofList_append]

/-- A line gets its tabs in front. -/
theorem indentFrom_line (h : '\n' ∉ cs) :
    indentFrom k fresh (cs ++ ['\n']) =
      (if fresh then List.replicate k '\t' else []) ++ cs ++ ['\n'] := by
  induction cs generalizing fresh with
  | nil => simp [indentFrom]
  | cons c cs ih =>
    rw [List.mem_cons, not_or] at h
    have hc : (c == '\n') = false := beq_false_of_ne (Ne.symm h.1)
    simp [indentFrom, hc, ih h.2]

theorem exists_indentFrom_newline (k : Nat) (fresh : Bool) (cs : List Char) :
    ∃ front, indentFrom k fresh (cs ++ ['\n']) = front ++ ['\n'] := by
  induction cs generalizing fresh with
  | nil => exact ⟨_, rfl⟩
  | cons c cs ih =>
    obtain ⟨front, hfront⟩ := ih (c == '\n')
    exact ⟨_ ++ c :: front, by rw [List.cons_append, indentFrom, hfront, List.append_assoc]; rfl⟩

/-- Whole lines stay whole lines. -/
theorem EndsLine.indented (h : EndsLine text) : EndsLine (indented k text) := by
  rcases h with rfl | ⟨front, rfl⟩
  · exact .inl rfl
  · obtain ⟨cs, hcs⟩ := exists_indentFrom_newline k true front.toList
    refine .inr ⟨String.ofList cs, ?_⟩
    rw [ProtoSchema.indented, String.toList_append]
    exact (congrArg String.ofList hcs).trans String.ofList_append

/-- A line gets its tabs in front. -/
theorem indented_line (h : OneLine text) :
    indented k (text ++ "\n") = Printer.tabs k ++ text ++ "\n" := by
  have hnewline : "\n".toList = ['\n'] := rfl
  rw [indented, String.toList_append, hnewline, indentFrom_line h, if_pos rfl, String.ofList_append,
    String.ofList_append, String.ofList_toList]
  rfl

/-- Tabs in front of all lines are put there text by text. -/
theorem indented_join {texts : List String} (h : ∀ text ∈ texts, EndsLine text) :
    indented k (String.join texts) = String.join (texts.map (indented k)) := by
  induction texts with
  | nil => rfl
  | cons text texts ih =>
    obtain ⟨htext, htexts⟩ := List.forall_mem_cons.mp h
    rw [List.map_cons, String.join_cons, String.join_cons, indented_append htext, ih htexts]

theorem indentFrom_tabs (c : Char) :
    indentFrom k fresh (List.replicate j '\t' ++ c :: cs) =
      (if fresh then List.replicate k '\t' else []) ++ List.replicate j '\t' ++
        c :: indentFrom k (c == '\n') cs := by
  induction j generalizing fresh with
  | zero => simp [indentFrom]
  | succ j ih => simp [List.replicate_succ, indentFrom, ih]

/-- Tabs in front of tabs, line by line. -/
theorem indentFrom_indentFrom :
    indentFrom k fresh (indentFrom j fresh cs) = indentFrom (k + j) fresh cs := by
  induction cs generalizing fresh with
  | nil => rfl
  | cons c cs ih =>
    rw [indentFrom, indentFrom, ← ih]
    -- the inner tabs stand in front of `c`, and no line begins between them and `c`
    cases fresh with
    | true => simp [indentFrom_tabs, ← List.replicate_append_replicate]
    | false => simp [indentFrom]

/-- **The tabs of two levels add up.** -/
theorem indented_indented : indented k (indented j text) = indented (k + j) text := by
  simp [indented, indentFrom_indentFrom]

theorem indentFrom_zero : indentFrom 0 fresh cs = cs := by
  induction cs generalizing fresh with
  | nil => rfl
  | cons c cs ih => simp [indentFrom, ih]

theorem indented_zero : indented 0 text = text := by simp [indented, indentFrom_zero]

theorem indented_empty : indented k "" = "" := rfl

end Indented

/-! ## What writes lines -/

/-- Whole lines are written, the same at every level but for the tabs in front, and the level is not
changed. -/
structure Lined (f : Printer → Printer) : Prop where
  whole : EndsLine (f .empty).out
  eq : ∀ p : Printer, f p = ⟨p.out ++ indented p.indent (f .empty).out, p.indent⟩

namespace Lined

variable {f g : Printer → Printer}

/-- It is enough to have a text that is whole lines and is written with the tabs of the level. -/
theorem of_text {text : String} (hwhole : EndsLine text)
    (h : ∀ p : Printer, f p = ⟨p.out ++ indented p.indent text, p.indent⟩) : Lined f := by
  have hout : (f .empty).out = text := by
    rw [h, Printer.empty, indented_zero, String.empty_append]
  exact ⟨hout ▸ hwhole, fun p ↦ by rw [hout, h]⟩

/-- A line is lined. -/
theorem line {text : String} (h : OneLine text) : Lined (.line text) :=
  of_text (.inr ⟨text, rfl⟩) fun p ↦ by rw [indented_line h, Printer.line, Printer.write]

theorem id : Lined fun p ↦ p :=
  of_text (.inl rfl) fun p ↦ by rw [indented_empty, String.append_empty]

theorem comp_eq (hf : Lined f) (hg : Lined g) (p : Printer) :
    g (f p) = ⟨p.out ++ indented p.indent ((f .empty).out ++ (g .empty).out), p.indent⟩ := by
  rw [hg.eq, hf.eq, indented_append hf.whole, String.append_assoc]

/-- What is lined behind what is lined is lined. -/
theorem comp (hf : Lined f) (hg : Lined g) : Lined fun p ↦ g (f p) :=
  of_text (hf.whole.append hg.whole) (hf.comp_eq hg)

theorem comp_out (hf : Lined f) (hg : Lined g) :
    (g (f .empty)).out = (f .empty).out ++ (g .empty).out := by
  rw [hf.comp_eq hg, Printer.empty, indented_zero, String.empty_append]

section Each

variable {α : Type} {print : α → Printer → Printer} {xs : List α}

/-- Several things one after another are lined if each of them is. -/
theorem each (h : ∀ x ∈ xs, Lined (print x)) : Lined (.each print xs) := by
  induction xs with
  | nil => exact .id
  | cons x xs ih =>
    obtain ⟨hx, hxs⟩ := List.forall_mem_cons.mp h
    exact hx.comp (ih hxs)

/-- They are written one after another. -/
theorem each_out (h : ∀ x ∈ xs, Lined (print x)) :
    (Printer.each print xs .empty).out = String.join (xs.map fun x ↦ (print x .empty).out) := by
  induction xs with
  | nil => rfl
  | cons x xs ih =>
    obtain ⟨hx, hxs⟩ := List.forall_mem_cons.mp h
    rw [List.map_cons, String.join_cons, ← ih hxs]
    exact hx.comp_out (each hxs)

end Each

/-- A block is its heading, its body one level deeper and the closing brace. -/
theorem block_eq {heading : String} (hheading : OneLine heading) (hf : Lined f) (p : Printer) :
    Printer.block heading f p = ⟨p.out ++ indented p.indent
      (heading ++ " \x7b" ++ "\n" ++ (indented 1 (f .empty).out ++ ("\x7d" ++ "\n"))),
      p.indent⟩ := by
  have hopen : OneLine (heading ++ " \x7b") := hheading.append (by decide)
  have hclose : OneLine "\x7d" := by decide
  -- the body is indented for its own level, and again with the block that it is part of
  rw [Printer.block, hf.eq, indented_append (.inr ⟨_, rfl⟩), indented_append hf.whole.indented,
    indented_indented, indented_line hopen, indented_line hclose]
  simp [Printer.opened, Printer.closed, Printer.line, Printer.write, String.append_assoc]

/-- A block is lined if its body is. -/
theorem block {heading : String} (hheading : OneLine heading) (hf : Lined f) :
    Lined (.block heading f) := by
  refine of_text (.inr ⟨heading ++ " \x7b" ++ "\n" ++ (indented 1 (f .empty).out ++ "\x7d"), ?_⟩)
    (block_eq hheading hf)
  simp only [String.append_assoc]

/-- A block from an empty printer. -/
theorem block_out {heading : String} (hheading : OneLine heading) (hf : Lined f) :
    (Printer.block heading f .empty).out =
      heading ++ " \x7b\n" ++ indented 1 (f .empty).out ++ "\x7d\n" := by
  have hopen : " \x7b\n" = " \x7b" ++ "\n" := rfl
  have hclose : "\x7d\n" = "\x7d" ++ "\n" := rfl
  rw [block_eq hheading hf, hopen, hclose]
  show "" ++ indented 0 _ = _
  rw [indented_zero, String.empty_append]
  simp only [String.append_assoc]

end Lined

theorem Printer.each_append {α : Type} (print : α → Printer → Printer) (xs ys : List α) :
    Printer.each print (xs ++ ys) = fun p ↦ .each print ys (.each print xs p) := by
  funext p
  exact List.foldl_append

variable {ν : Type}

/-! ## Blocks -/

namespace Node

/-- The node is printed with braces, behind the heading and around the children. -/
inductive Headed : Node ν → String → List (Node ν) → Prop
  | block (header : Header ν) (body : List (Member ν)) (loc : ν) :
    Headed (.member (.block header body loc)) header.print (body.map .member)
  | oneOf (x : OneOf ν) :
    Headed (.member (.oneOf x)) ("oneof " ++ x.name)
      (x.options.map Setting.node ++ x.fields.map Field.node)
  | enumType (x : EnumType ν) :
    Headed (.member (.enumType x)) ("enum " ++ x.name)
      (x.options.map Setting.node ++ (x.values.map Field.node ++ x.reserved.map Reserved.node))
  | service (x : Service ν) :
    Headed (.service x) ("service " ++ x.name) (x.items.map ServiceItem.node)
  | rpc (x : Rpc ν) (h : x.options ≠ []) :
    Headed (.rpc x) x.heading (x.options.map Setting.node)

namespace Headed

variable {n : Node ν} {heading : String} {children : List (Node ν)}

/-- A node with braces is printed as a block with its children in it. -/
theorem printTo_eq (h : n.Headed heading children) :
    n.printTo = .block heading (.each Node.printTo children) := by
  have each_settings (xs : List (Setting ν)) :
      Printer.each Node.printTo (xs.map Setting.node) = .each Setting.printTo xs :=
    Printer.each_map fun _ ↦ rfl
  have each_fields (xs : List (Field ν)) :
      Printer.each Node.printTo (xs.map Field.node) = .each Field.printTo xs :=
    Printer.each_map fun _ ↦ rfl
  cases h with
  | block header body loc =>
    have each_members : Printer.each Node.printTo (body.map .member) = Member.printAll body := by
      rw [Member.printAll_eq_each]
      exact Printer.each_map fun _ ↦ rfl
    rw [each_members]
    rfl
  | oneOf x =>
    rw [Printer.each_append, each_settings, each_fields]
    rfl
  | enumType x =>
    have each_reserved : Printer.each Node.printTo (x.reserved.map Reserved.node) =
        .each Reserved.printTo x.reserved :=
      Printer.each_map fun _ ↦ rfl
    rw [Printer.each_append, Printer.each_append, each_settings, each_fields, each_reserved]
    rfl
  | service x =>
    have each_items : Printer.each Node.printTo (x.items.map ServiceItem.node) =
        .each ServiceItem.printTo x.items := by
      refine Printer.each_map fun item ↦ ?_
      cases item <;> rfl
    rw [each_items]
    rfl
  | rpc x hoptions =>
    rw [each_settings]
    exact if_neg (by simpa using hoptions)

theorem oneLine_heading (h : n.Headed heading children) (htexts : ∀ text ∈ n.texts, OneLine text) :
    OneLine heading := by
  cases h with
  | block header body loc => exact header.oneLine_print (List.forall_mem_append.mp htexts).1
  | oneOf x => exact .append (by decide) (htexts x.name List.mem_cons_self)
  | enumType x => exact .append (by decide) (htexts x.name List.mem_cons_self)
  | service x => exact .append (by decide) (htexts x.name List.mem_cons_self)
  | rpc x hoptions => exact x.oneLine_heading htexts

/-- What is below a child is below the node. -/
theorem texts_subset (h : n.Headed heading children) : children.flatMap texts ⊆ n.texts := by
  have texts_settings (xs : List (Setting ν)) :
      (xs.map Setting.node).flatMap texts = xs.flatMap Setting.texts := by
    rw [List.flatMap_map]
    rfl
  have texts_fields (xs : List (Field ν)) :
      (xs.map Field.node).flatMap texts = xs.flatMap Field.texts := by
    rw [List.flatMap_map]
    rfl
  cases h with
  | block header body loc =>
    rw [List.flatMap_map]
    show body.flatMap Member.texts ⊆ header.texts ++ Member.bodyTexts body
    rw [Member.bodyTexts_eq_flatMap]
    exact List.subset_append_right _ _
  | oneOf x =>
    rw [List.flatMap_append, texts_settings, texts_fields]
    exact List.subset_cons_self _ _
  | enumType x =>
    have texts_reserved : (x.reserved.map Reserved.node).flatMap texts =
        x.reserved.flatMap Reserved.texts := by
      rw [List.flatMap_map]
      rfl
    rw [List.flatMap_append, List.flatMap_append, texts_settings, texts_fields, texts_reserved]
    exact List.subset_cons_self _ _
  | service x =>
    have texts_items : (x.items.map ServiceItem.node).flatMap texts =
        x.items.flatMap ServiceItem.texts := by
      rw [List.flatMap_map]
      refine List.flatMap_congr fun item _ ↦ ?_
      cases item <;> rfl
    rw [texts_items]
    exact List.subset_cons_self _ _
  | rpc x hoptions =>
    rw [texts_settings]
    exact fun _ h ↦ List.mem_cons_of_mem _ (List.mem_cons_of_mem _ (List.mem_cons_of_mem _ h))

theorem oneLine_of_mem (h : n.Headed heading children) (htexts : ∀ text ∈ n.texts, OneLine text)
    {c : Node ν} (hc : c ∈ children) : ∀ text ∈ c.texts, OneLine text :=
  fun _ htext ↦ htexts _ (h.texts_subset (List.mem_flatMap_of_mem hc htext))

/-- A block is lined if its children are. -/
theorem lined (h : n.Headed heading children) (htexts : ∀ text ∈ n.texts, OneLine text)
    (hchildren : ∀ c ∈ children, (∀ text ∈ c.texts, OneLine text) → Lined c.printTo) :
    Lined n.printTo := by
  rw [h.printTo_eq]
  exact .block (h.oneLine_heading htexts)
    (.each fun c hc ↦ hchildren c hc (h.oneLine_of_mem htexts hc))

end Headed

end Node

/-! ## Statements -/

theorem Setting.lined {x : Setting ν} (h : ∀ text ∈ x.texts, OneLine text) : Lined x.printTo :=
  .line ((OneLine.append (by decide) (x.oneLine_entry h)).append (by decide))

theorem Field.lined {x : Field ν} (h : ∀ text ∈ x.texts, OneLine text) : Lined x.printTo := by
  obtain ⟨htype, hnumbered⟩ := List.forall_mem_append.mp h
  exact .line
    (((x.oneLine_qualifiers htype).append (oneLine_numbered _ hnumbered)).append (by decide))

theorem MapField.lined {x : MapField ν} (h : ∀ text ∈ x.texts, OneLine text) : Lined x.printTo := by
  obtain ⟨hkey, hrest⟩ := List.forall_mem_cons.mp h
  obtain ⟨hvalue, hnumbered⟩ := List.forall_mem_cons.mp hrest
  have htypes : OneLine ("map<" ++ x.keyType ++ ", " ++ x.valueType.text ++ "> ") :=
    (((OneLine.append (by decide) hkey).append (by decide)).append hvalue).append (by decide)
  exact .line ((htypes.append (oneLine_numbered _ hnumbered)).append (by decide))

theorem Extensions.lined {x : Extensions ν} (h : ∀ text ∈ x.texts, OneLine text) :
    Lined x.printTo := by
  have hranges : OneLine (commaSeparated (x.ranges.map NumberRange.print)) :=
    .commaSeparated_map fun r _ ↦ r.oneLine_print
  exact .line (((OneLine.append (by decide) hranges).append (Setting.oneLine_bracketed h)).append
    (by decide))

theorem Reserved.lined {x : Reserved ν} (h : ∀ text ∈ x.texts, OneLine text) : Lined x.printTo :=
  .line ((OneLine.append (by decide) (ReservedItems.oneLine_print h)).append (by decide))

theorem lined_settings (xs : List (Setting ν)) :
    ∀ c ∈ xs.map Setting.node, (∀ text ∈ c.texts, OneLine text) → Lined c.printTo :=
  List.forall_mem_map.mpr fun _ _ ↦ Setting.lined

theorem lined_fields (xs : List (Field ν)) :
    ∀ c ∈ xs.map Field.node, (∀ text ∈ c.texts, OneLine text) → Lined c.printTo :=
  List.forall_mem_map.mpr fun _ _ ↦ Field.lined

theorem lined_reserved (xs : List (Reserved ν)) :
    ∀ c ∈ xs.map Reserved.node, (∀ text ∈ c.texts, OneLine text) → Lined c.printTo :=
  List.forall_mem_map.mpr fun _ _ ↦ Reserved.lined

theorem OneOf.lined {x : OneOf ν} (h : ∀ text ∈ x.texts, OneLine text) : Lined x.printTo :=
  (Node.Headed.oneOf x).lined h
    (List.forall_mem_append.mpr ⟨lined_settings _, lined_fields _⟩)

theorem EnumType.lined {x : EnumType ν} (h : ∀ text ∈ x.texts, OneLine text) : Lined x.printTo :=
  (Node.Headed.enumType x).lined h (List.forall_mem_append.mpr
    ⟨lined_settings _, List.forall_mem_append.mpr ⟨lined_fields _, lined_reserved _⟩⟩)

mutual

/-- A member is lined, at any depth. -/
theorem Member.lined : ∀ x : Member ν, (∀ text ∈ x.texts, OneLine text) → Lined x.printTo
  | .field _, h => Field.lined h
  | .mapField _, h => MapField.lined h
  | .oneOf _, h => OneOf.lined h
  | .enumType _, h => EnumType.lined h
  | .extensions _, h => Extensions.lined h
  | .reserved _, h => Reserved.lined h
  | .setting _, h => Setting.lined h
  | .block header body loc, h =>
    (Node.Headed.block header body loc).lined h (List.forall_mem_map.mpr (Member.lined_body body))

theorem Member.lined_body : ∀ xs : List (Member ν),
    ∀ x ∈ xs, (∀ text ∈ x.texts, OneLine text) → Lined x.printTo
  | [] => List.forall_mem_nil _
  | x :: xs => List.forall_mem_cons.mpr ⟨Member.lined x, Member.lined_body xs⟩

end

theorem Rpc.lined {x : Rpc ν} (h : ∀ text ∈ x.texts, OneLine text) : Lined x.printTo := by
  by_cases hoptions : x.options = []
  · rw [Rpc.printTo, hoptions]
    exact .line ((x.oneLine_heading h).append (by decide))
  · exact (Node.Headed.rpc x hoptions).lined h (lined_settings _)

theorem Service.lined {x : Service ν} (h : ∀ text ∈ x.texts, OneLine text) : Lined x.printTo := by
  refine (Node.Headed.service x).lined h (List.forall_mem_map.mpr fun item _ htexts ↦ ?_)
  cases item with
  | setting y => exact Setting.lined htexts
  | rpc y => exact Rpc.lined htexts

theorem Import.lined {x : Import ν} (h : OneLine x.file) : Lined x.printTo := by
  refine .line (((OneLine.append (by decide) ?_).append h.quoted).append (by decide))
  cases x.modifier? with
  | none => exact .empty
  | some modifier => cases modifier <;> decide

theorem VersionStatement.lined (x : VersionStatement ν) : Lined x.printTo := by
  refine .line ((OneLine.append (by decide) ?_).append (by decide))
  cases x.version <;> decide

/-! ## Nodes -/

namespace Node

/-- Whether the node is printed as it is and not as lines. -/
def isBare : Node ν → Bool
  | fullName _ | optionName _ | typeRef _ | constant _ | literal .. => true
  | version _ | importFile _ | package _ | service _ | rpc _ | member _ => false

variable {n : Node ν} {heading : String} {children : List (Node ν)}

/-- A node that is no name, type or value is lined. -/
theorem lined (hbare : ¬n.isBare) (h : ∀ text ∈ n.texts, OneLine text) : Lined n.printTo := by
  cases n with
  | version x => exact x.lined
  | importFile x => exact Import.lined (h _ List.mem_cons_self)
  | package x => exact .line (.append (.append (by decide) (h _ List.mem_cons_self)) (by decide))
  | service x => exact Service.lined h
  | rpc x => exact Rpc.lined h
  | member x => exact Member.lined x h
  | fullName | optionName | typeRef | constant | literal => exact absurd rfl hbare

theorem printTo_of_isBare (h : n.isBare) : n.printTo = .write n.print := by
  have write_out (text : String) : text = (Printer.write text .empty).out :=
    String.empty_append.symm
  cases n with
  | fullName | optionName | typeRef | constant | literal =>
    exact congrArg Printer.write (write_out _)
  | version | importFile | package | service | rpc | member => cases h

theorem Headed.not_isBare (h : n.Headed heading children) : ∀ c ∈ children, ¬c.isBare := by
  have member_not_isBare {α : Type} (f : α → Member ν) (xs : List α) :
      ∀ c ∈ xs.map fun x ↦ Node.member (f x), ¬c.isBare :=
    List.forall_mem_map.mpr fun _ _ ↦ Bool.false_ne_true
  cases h with
  | block header body loc => exact member_not_isBare (fun x ↦ x) body
  | oneOf x => exact List.forall_mem_append.mpr ⟨member_not_isBare _ _, member_not_isBare _ _⟩
  | enumType x =>
    exact List.forall_mem_append.mpr
      ⟨member_not_isBare _ _, List.forall_mem_append.mpr
        ⟨member_not_isBare _ _, member_not_isBare _ _⟩⟩
  | service x =>
    refine List.forall_mem_map.mpr fun item _ ↦ ?_
    cases item <;> exact Bool.false_ne_true
  | rpc x hoptions => exact member_not_isBare _ _

/-- A block is printed as its heading, its children one level deeper and the closing brace. -/
theorem Headed.print_eq (h : n.Headed heading children) (htexts : ∀ text ∈ n.texts, OneLine text) :
    n.print = heading ++ " \x7b\n" ++ String.join (children.map fun c ↦ indented 1 c.print) ++
      "\x7d\n" := by
  have hlined (c : Node ν) (hc : c ∈ children) : Lined c.printTo :=
    Node.lined (h.not_isBare c hc) (h.oneLine_of_mem htexts hc)
  rw [print, h.printTo_eq, Lined.block_out (h.oneLine_heading htexts) (.each hlined),
    Lined.each_out hlined, indented_join (List.forall_mem_map.mpr fun c hc ↦ (hlined c hc).whole),
    List.map_map]
  rfl

end Node

/-! ## Files -/

/-- A file is printed root by root. -/
theorem Schema.printTo_eq_each (x : Schema ν) : x.printTo = .each Node.printTo x.roots := by
  have each_versions (vs : List (VersionStatement ν)) :
      Printer.each Node.printTo (vs.map .version) = .each VersionStatement.printTo vs :=
    Printer.each_map fun _ ↦ rfl
  have each_directives (ds : List (Directive ν)) :
      Printer.each Node.printTo (ds.map Directive.node) = .each Directive.printTo ds := by
    refine Printer.each_map fun d ↦ ?_
    cases d <;> rfl
  rw [roots, Printer.each_append, each_versions, each_directives]
  rfl

theorem Schema.lined {x : Schema ν} (h : ∀ text ∈ x.texts, OneLine text) : Lined x.printTo := by
  have hroots : ∀ n ∈ x.roots, ¬n.isBare := by
    refine List.forall_mem_append.mpr ⟨List.forall_mem_map.mpr fun _ _ ↦ Bool.false_ne_true, ?_⟩
    refine List.forall_mem_map.mpr fun d _ ↦ ?_
    cases d <;> exact Bool.false_ne_true
  rw [x.printTo_eq_each]
  exact .each fun n hn ↦ n.lined (hroots n hn) (List.forall_mem_flatMap.mp h n hn)

/-! ## Whatever is printed -/

/-- What can be printed: a node or a whole file. -/
inductive Printable (ν : Type) where
  | node (n : Node ν)
  | file (x : Schema ν)

namespace Printable

/-- The strings that it is made of. -/
def texts : Printable ν → List String
  | node n => n.texts
  | file x => x.texts

/-- Whether it is printed as it is and not as lines. -/
def isBare : Printable ν → Bool
  | node n => n.isBare
  | file _ => false

/-- Prints it. -/
def printTo : Printable ν → Printer → Printer
  | node n => n.printTo
  | file x => x.printTo

/-- Its text by itself. -/
def print : Printable ν → String
  | node n => n.print
  | file x => x.print

/-- What is written at a level of nesting. -/
def printAt (k : Nat) (x : Printable ν) : String :=
  if x.isBare then x.print else indented k x.print

theorem printTo_eq {x : Printable ν} (h : ∀ text ∈ x.texts, OneLine text) (p : Printer) :
    x.printTo p = ⟨p.out ++ x.printAt p.indent, p.indent⟩ := by
  cases x with
  | node n =>
    by_cases hbare : n.isBare
    · show n.printTo p = ⟨p.out ++ (if n.isBare then n.print else _), p.indent⟩
      rw [if_pos hbare, Node.printTo_of_isBare hbare]
      rfl
    · show n.printTo p = ⟨p.out ++ (if n.isBare then _ else indented p.indent n.print), p.indent⟩
      rw [if_neg hbare]
      exact (Node.lined hbare h).eq p
  | file x => exact (Schema.lined h).eq p

theorem printAt_zero (x : Printable ν) : x.printAt 0 = x.print := by
  rw [printAt, indented_zero, ite_self]

/-- Several things are printed as the texts of each, at the level that is reached. -/
theorem each_printTo_eq {xs : List (Printable ν)} (h : ∀ x ∈ xs, ∀ text ∈ x.texts, OneLine text)
    (p : Printer) :
    Printer.each printTo xs p = ⟨p.out ++ String.join (xs.map (printAt p.indent)), p.indent⟩ := by
  induction xs generalizing p with
  | nil =>
    show p = ⟨p.out ++ "", p.indent⟩
    rw [String.append_empty]
  | cons x xs ih =>
    obtain ⟨hx, hxs⟩ := List.forall_mem_cons.mp h
    show Printer.each printTo xs (x.printTo p) = _
    rw [printTo_eq hx, ih hxs, List.map_cons, String.join_cons, String.append_assoc]

/-- **Printing is compositional**, if no string has a newline.  A printer comes out of a node at the
level it went in with, and what it has written is the text of the node alone, with tabs in front of
its lines if it has lines.  So one printer writes the texts of its nodes one after another, and a
block is its heading, the texts of its children one level deeper and the closing brace. -/
theorem print_compositional :
    (∀ (x : Printable ν) (p : Printer), (∀ text ∈ x.texts, OneLine text) →
      x.printTo p =
        ⟨p.out ++ if x.isBare then x.print else indented p.indent x.print, p.indent⟩) ∧
    (∀ xs : List (Printable ν), (∀ x ∈ xs, ∀ text ∈ x.texts, OneLine text) →
      Printer.each printTo xs .empty = ⟨String.join (xs.map print), 0⟩) ∧
    ∀ (n : Node ν) (heading : String) (children : List (Node ν)), n.Headed heading children →
      (∀ text ∈ n.texts, OneLine text) →
      n.print = heading ++ " \x7b\n" ++ String.join (children.map fun c ↦ indented 1 c.print) ++
        "\x7d\n" := by
  refine ⟨fun x p h ↦ printTo_eq h p, fun xs h ↦ ?_, fun n heading children h ↦ h.print_eq⟩
  have hprint : xs.map (printAt 0) = xs.map print := List.map_congr_left fun x _ ↦ x.printAt_zero
  rw [each_printTo_eq h, ← hprint]
  exact congrArg (Printer.mk · 0) String.empty_append

/-- A message in a message: by itself at the second level, then behind a name and in front of a
file. -/
theorem print_compositional_nested :
    let oneOf : Member Unit := .oneOf ⟨"o", [], [], ()⟩
    let inner : Member Unit := .block (.message "N") [oneOf] ()
    let outer : Node Unit := .member (.block (.message "M") [inner] ())
    (node outer).printTo ⟨"\t", 1⟩ = ⟨"\t\tmessage M \x7b\n\t\tmessage N \x7b\n" ++
      "\t\t\toneof o \x7b\n\t\t\t\x7d\n\t\t\x7d\n\t\x7d\n", 1⟩ ∧
    Printer.each printTo [node (.fullName ⟨"a.b", ()⟩), node outer, file ⟨none, []⟩] .empty =
      ⟨String.join ["a.b", outer.print, ""], 0⟩ ∧
    outer.print = "message M" ++ " \x7b\n" ++ String.join [indented 1 (Node.member inner).print] ++
      "\x7d\n" := by
  intro oneOf inner outer
  obtain ⟨hprinter, hsequence, hblock⟩ := @print_compositional Unit
  refine ⟨(hprinter (node outer) ⟨"\t", 1⟩ (by decide)).trans (by decide +kernel), ?_, ?_⟩
  · exact hsequence [node (.fullName ⟨"a.b", ()⟩), node outer, file ⟨none, []⟩] (by decide)
  · exact hblock outer "message M" [.member inner] (.block (.message "M") [inner] ()) (by decide)

end Printable

end ProtoSchema
