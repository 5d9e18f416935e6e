import ProtoSchema.Proofs.Grammar.Completeness.Parse
import ProtoSchema.Proofs.Print.Schema

/-!
# Printing and reading again

What is printed for a schema that was read is a text that is read as the same schema, and printing
that one gives the same text again.  The places are others, and so are the tokens; what is printed
depends on neither.

The proof joins the two halves of the theory of the grammar.  What was read is derived from its
symbols (soundness), a derivation is printed as a text whose symbols derive the same tree
(`Schema.printed`), and what is derived is read (completeness).  The configuration is one
throughout: a tree that was read under it is as deep as it allows, and so is the same tree read
again.

## What is here

* `Constant.print_map` to `Schema.print_erase` — notes are not printed.  One lemma for each type of
  node, in the form that `simp` uses to carry a map out of a printer.
* `parse_print` — for every text and configuration: what is printed is read, the schema is the same
  when erased, and it is printed as the same text.
* `parse_print_group` — a text for which the printed one is different, in a number, its blanks and
  an empty statement, while the schema is the same.
-/

set_option autoImplicit false

namespace ProtoSchema

open Grammar Phrase

/-! ## Notes are not printed -/

section Notes

variable {ν μ : Type} (f : ν → μ)

/-- The text of a value does not depend on its notes. -/
@[simp]
theorem Constant.print_map (x : Constant ν) : (x.map f).print = x.print := by
  cases x <;> rfl

@[simp]
theorem Setting.entry_map (x : Setting ν) : (x.map f).entry = x.entry := by
  simp [Setting.entry, Setting.map, OptionName.map]

@[simp]
theorem Setting.bracketed_map (xs : List (Setting ν)) :
    bracketed (xs.map (Setting.map f)) = bracketed xs := by
  simp [bracketed, Function.comp_def]

@[simp]
theorem numbered_map (name : String) (number : Int) (options : List (Setting ν)) :
    numbered name number (options.map (Setting.map f)) = numbered name number options := by
  simp [numbered]

theorem Printer.each_map {α β : Type} {print : α → Printer → Printer}
    {print' : β → Printer → Printer} {g : α → β} {xs : List α}
    (h : ∀ x, print' (g x) = print x) : Printer.each print' (xs.map g) = .each print xs := by
  funext p
  simp [Printer.each, List.foldl_map, h]

theorem Setting.printTo_map (x : Setting ν) : (x.map f).printTo = x.printTo := by
  simp [Setting.printTo]

theorem Field.printTo_map (x : Field ν) : (x.map f).printTo = x.printTo := by
  obtain ⟨label?, type?, name, number, options, loc⟩ := x
  cases type? <;> simp [Field.printTo, Field.qualifiers, Field.map, TypeRef.map]

theorem MapField.printTo_map (x : MapField ν) : (x.map f).printTo = x.printTo := by
  simp [MapField.printTo, MapField.map, TypeRef.map]

theorem OneOf.printTo_map (x : OneOf ν) : (x.map f).printTo = x.printTo := by
  simp only [OneOf.printTo, OneOf.map, Printer.each_map (Setting.printTo_map f),
    Printer.each_map (Field.printTo_map f)]

theorem Extensions.printTo_map (x : Extensions ν) : (x.map f).printTo = x.printTo := by
  simp [Extensions.printTo, Extensions.map]

theorem EnumType.printTo_map (x : EnumType ν) : (x.map f).printTo = x.printTo := by
  have hreserved (x : Reserved ν) : (x.map f).printTo = x.printTo := rfl
  simp only [EnumType.printTo, EnumType.map, Printer.each_map (Setting.printTo_map f),
    Printer.each_map (Field.printTo_map f), Printer.each_map hreserved]

theorem Header.print_map (x : Header ν) : (x.map f).print = x.print := by
  cases x <;> simp [Header.print, Header.map, TypeRef.map]

mutual

/-- The lines of a member do not depend on its notes, at any depth. -/
theorem Member.printTo_map : ∀ x : Member ν, (x.map f).printTo = x.printTo
  | .field x => by funext p; simp [Member.map, Member.printTo, x.printTo_map f]
  | .mapField x => by funext p; simp [Member.map, Member.printTo, x.printTo_map f]
  | .oneOf x => by funext p; simp [Member.map, Member.printTo, x.printTo_map f]
  | .enumType x => by funext p; simp [Member.map, Member.printTo, x.printTo_map f]
  | .extensions x => by funext p; simp [Member.map, Member.printTo, x.printTo_map f]
  | .reserved _ => rfl
  | .setting x => by funext p; simp [Member.map, Member.printTo, x.printTo_map f]
  | .block header body _ => by
    funext p
    simp [Member.map, Member.printTo, header.print_map f, Member.printAll_map body]

theorem Member.printAll_map : ∀ xs : List (Member ν),
    Member.printAll (Member.mapAll f xs) = Member.printAll xs
  | [] => rfl
  | x :: xs => by
    funext p
    simp [Member.mapAll, Member.printAll, Member.printTo_map x, Member.printAll_map xs]

end

theorem Rpc.printTo_map (x : Rpc ν) : (x.map f).printTo = x.printTo := by
  have hheading : (x.map f).heading = x.heading := rfl
  have hoptions : (x.map f).options = x.options.map (Setting.map f) := rfl
  rw [Rpc.printTo, Rpc.printTo, hheading, hoptions, List.isEmpty_map,
    Printer.each_map (Setting.printTo_map f)]

theorem ServiceItem.printTo_map (x : ServiceItem ν) : (x.map f).printTo = x.printTo := by
  cases x with
  | setting s => exact s.printTo_map f
  | rpc r => exact r.printTo_map f

theorem Directive.printTo_map (x : Directive ν) : (x.map f).printTo = x.printTo := by
  cases x with
  | importFile i => rfl
  | package p => rfl
  | service s =>
    simp only [Directive.map, Directive.printTo, Service.printTo, Service.map,
      Printer.each_map (ServiceItem.printTo_map f)]
  | member m => exact m.printTo_map f

/-- The text of a schema is that of the schema without its notes. -/
theorem Schema.print_erase (x : Schema ν) : x.erase.print = x.print := by
  have hversion (v : VersionStatement ν) : (v.map fun _ ↦ ()).printTo = v.printTo := rfl
  have hversions : (x.version?.map (VersionStatement.map fun _ ↦ ())).toList =
      x.version?.toList.map (VersionStatement.map fun _ ↦ ()) := by
    cases x.version? <;> rfl
  simp only [Schema.print, Schema.printTo, Schema.erase, Schema.map, hversions,
    Printer.each_map hversion, Printer.each_map (Directive.printTo_map fun _ ↦ ())]

end Notes

/-! ## Reading what was printed -/

/-- **Reading what was printed.**  The text that is printed for a schema is read again, as the same
schema in other places, and the same text is printed for it. -/
theorem parse_print {text : String} {config : Config} {d : Document}
    (h : parse text config = .ok d) :
    ∃ d', parse d.schema.print config = .ok d' ∧ d'.schema.erase = d.schema.erase ∧
      d'.schema.print = d.schema.print := by
  obtain ⟨ts, stop, -, -, htiled, x, hx, hderives⟩ := exists_tiled_of_parse noNote h
  have hsaid : (Schema.Derives Integer config noNote).Said d.schema.erase := by
    rw [hx, Schema.erase_map]
    exact ⟨0, _, hderives, fun s hs ↦ genuine_of_mem_significant htiled hs⟩
  obtain ⟨ss, hwrites, hagain⟩ := Schema.printed hsaid
  obtain ⟨printed, hprinted, hspells⟩ := hwrites .empty
  have htext : d.schema.print = printed := by
    rw [← Schema.print_erase, Schema.print, hprinted]
    exact String.empty_append
  obtain ⟨hdivides, hcomment⟩ := hspells.scans.divides
  have hall : uncommented ss = ss :=
    List.filter_eq_self.mpr fun s hs ↦ by simpa [Symbol.is] using hcomment s hs
  obtain ⟨d', hd', herase⟩ := exists_parse_of_divides hdivides (hall.symm ▸ hagain 0)
  rw [← htext] at hd'
  refine ⟨d', hd', herase, ?_⟩
  rw [← Schema.print_erase, herase, Schema.print_erase]

/-- A group with an escape in an option, and a field whose type begins with a word of the
grammar. -/
theorem parse_print_group :
    ∃ text d d', text = "message M \x7b optional group G = 1 [a = '\\'\"', b = +0x1F] \x7b;\x7d " ++
        "message.G x = -2; \x7d" ∧ parse text {} = .ok d ∧
      parse d.schema.print {} = .ok d' ∧ d'.schema.erase = d.schema.erase ∧
      d'.schema.print = d.schema.print := by
  obtain ⟨d, h⟩ := exists_ok_of_isOk (x := parse
    ("message M \x7b optional group G = 1 [a = '\\'\"', b = +0x1F] \x7b;\x7d " ++
      "message.G x = -2; \x7d") {}) (by decide +kernel)
  obtain ⟨d', hprint⟩ := parse_print h
  exact ⟨_, d, d', rfl, h, hprint⟩

end ProtoSchema
