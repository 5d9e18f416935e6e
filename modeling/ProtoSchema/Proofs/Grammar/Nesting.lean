import ProtoSchema.Proofs.Grammar.Completeness.Parse
import ProtoSchema.Schema.Node
import ProtoSchema.Proofs.Token.Scans

/-!
# Statements in a message

Options, enums, messages and extensions stand at the top of a file and in the bodies of messages,
and are read there by different rules.  A rule for a body looks at the symbol behind the word of the
statement first, for a dot makes the word the start of a type.  The only one of the four that can
have a dot there is an extension of a type that is named from the root, and that one reads as a
field in a body; all others read alike.

The text is the same in both places, with what belongs to it: comments around the statement, and
semicolons by themselves, which are empty statements here as there.  A newline ends the text, for
its last line may be a comment.

## What is here

* `Phrase.Statements.exists_of_singleton`, `Phrase.Statements.singleton` — one statement among
  semicolons, taken out of statements and made statements of again.
* `divides_open`, `divides_close`, `exists_parse_message` — a message around a text, and how it is
  read.  The message is one block more than those of the text.
* `TypeRef.Derives.isRooted`, `Member.DerivesExtend.isRooted` — a dot behind `extend` is the dot of
  a name from the root.
* `Directive.Derives.member` — what is a statement of the top of a file is one of a message.
* `parse_in_message` — the theorem about texts, with `parse_in_message_comments` as one of its
  cases.
* `parse_in_message_rooted` — an extension that is none in a message.
-/

set_option autoImplicit false

namespace ProtoSchema

open Grammar Phrase

/-! ## One statement among semicolons -/

namespace Phrase.Statements

variable {α : Type} {p : Phrase α} {i : Nat} {x : α} {s : List Symbol}

/-- Statements of which nothing is kept are semicolons. -/
theorem semicolons_of_nil (h : Statements p i [] s) : ∀ c ∈ s, c.kind = .semicolon := by
  generalize hnil : [] = xs at h
  induction h with
  | nil => nofun
  | empty hsemi _ ih => exact List.forall_mem_cons.mpr ⟨hsemi, ih hnil⟩
  | cons => cases hnil

/-- One statement stands between semicolons. -/
theorem exists_of_singleton (h : Statements p i [x] s) :
    ∃ a v b, s = a ++ v ++ b ∧ (∀ c ∈ a, c.kind = .semicolon) ∧ (∀ c ∈ b, c.kind = .semicolon) ∧
      p (i + a.length) x v := by
  generalize hxs : [x] = xs at h
  induction h with
  | nil => cases hxs
  | @empty i semi xs t hsemi _ ih =>
    obtain ⟨a, v, b, rfl, ha, hb, hv⟩ := ih hxs
    refine ⟨semi :: a, v, b, rfl, List.forall_mem_cons.mpr ⟨hsemi, ha⟩, hb, ?_⟩
    rwa [List.length_cons, Nat.add_comm a.length, ← Nat.add_assoc]
  | @cons i y xs s t hy hys _ =>
    obtain ⟨rfl, rfl⟩ := List.cons.inj hxs
    exact ⟨[], s, t, rfl, nofun, hys.semicolons_of_nil, hy⟩

/-- Semicolons in front change nothing. -/
theorem of_semicolons {xs : List α} {a : List Symbol} (ha : ∀ c ∈ a, c.kind = .semicolon)
    (h : Statements p (i + a.length) xs s) : Statements p i xs (a ++ s) := by
  induction a generalizing i with
  | nil => exact h
  | cons c a ih =>
    obtain ⟨hc, ha⟩ := List.forall_mem_cons.mp ha
    refine .empty hc (ih ha ?_)
    rwa [Nat.add_assoc, Nat.add_comm 1]

/-- One statement between semicolons. -/
theorem singleton {a v b : List Symbol} (ha : ∀ c ∈ a, c.kind = .semicolon)
    (hb : ∀ c ∈ b, c.kind = .semicolon) (h : ∀ j, p j x v) : Statements p i [x] (a ++ v ++ b) := by
  rw [List.append_assoc, ← List.append_nil b]
  exact of_semicolons ha (.cons (h _) (of_semicolons hb .nil))

end Phrase.Statements

/-! ## The text of a message -/

/-- The heading of the message is divided into its symbols, whatever stands behind it. -/
theorem divides_open (behind : List Char) : Divides behind "message M \x7b".toList
    [.word "message", .word "M", .mark .leftBrace] := by
  have hword : Divides (" M \x7b".toList ++ behind) "message".toList [.word "message"] :=
    @Divides.piece _ 'm' ⟨.identifier, "essage".toList, none⟩ [] [] rfl .nil
  have hname : Divides (" \x7b".toList ++ behind) " M".toList [.word "M"] :=
    .blank rfl (@Divides.piece _ 'M' ⟨.identifier, [], none⟩ [] [] rfl .nil)
  have hbrace : Divides behind " \x7b".toList [.mark .leftBrace] :=
    .blank rfl (@Divides.piece _ '\x7b' ⟨.leftBrace, [], none⟩ [] [] rfl .nil)
  exact hword.append (hname.append hbrace)

/-- So is the brace at its end. -/
theorem divides_close (behind : List Char) :
    Divides behind "\x7d".toList [.mark .rightBrace] :=
  @Divides.piece _ '\x7d' ⟨.rightBrace, [], none⟩ [] [] rfl .nil

variable {config : Config}

/-- A message of which everything but the statements is written out. -/
theorem exists_parse_message {body : String} {ss : List Symbol} {xs : List (Member Unit)}
    {depth : Nat} (hdepth : config.maxDepth = depth + 1) (hbody : Divides ['\x7d'] body.toList ss)
    (h : Statements (Member.Derives Integer config noNote (Body.Derives Integer config noNote depth)
      .message) 3 xs (uncommented ss)) :
    ∃ d, parse ("message M \x7b" ++ body ++ "\x7d") config = .ok d ∧
      d.schema.erase = ⟨none, [.member (.block (.message "M") xs ())]⟩ := by
  have hblock : Body.Derives Integer config noNote config.maxDepth .message 2 xs
      (.mark .leftBrace :: (uncommented ss ++ [.mark .rightBrace])) := by
    rw [hdepth]
    exact Block.mk rfl h rfl
  have hmessage : Member.DerivesMessage noNote (Body.Derives Integer config noNote config.maxDepth)
      0 (.block (.message "M") xs ()) (.word "message" :: .word "M" :: .mark .leftBrace ::
        (uncommented ss ++ [.mark .rightBrace])) :=
    @Member.DerivesMessage.mk _ _ _ 0 (.word "message") (.word "M") xs _ rfl rfl hblock
  have hsymbols : uncommented ([.word "message", .word "M", .mark .leftBrace] ++ ss ++
      [.mark .rightBrace]) = .word "message" :: .word "M" :: .mark .leftBrace ::
        (uncommented ss ++ [.mark .rightBrace]) := by
    rw [uncommented, List.filter_append, List.filter_append]
    rfl
  have htext : Divides [] ("message M \x7b" ++ body ++ "\x7d").toList
      ([.word "message", .word "M", .mark .leftBrace] ++ ss ++ [.mark .rightBrace]) := by
    rw [String.toList_append, String.toList_append]
    exact ((divides_open _).append hbody).append (divides_close [])
  have hdirectives := Statements.cons (Directive.Derives.message hmessage) .nil
  rw [List.append_nil] at hdirectives
  refine exists_parse_of_divides htext ?_
  rw [hsymbols]
  exact .mk .none hdirectives

/-! ## Statements of the top of a file -/

variable {ν : Type} {note : Extent → ν} {i : Nat} {s : List Symbol}

/-- A reference that begins with a dot is one from the root. -/
theorem TypeRef.Derives.isRooted {x : TypeRef ν} {first : Symbol}
    (h : x.Derives note i (first :: s)) (hfirst : first.kind = .dot) : x.isRooted := by
  have hdot : (spelled (first :: s)).toList.head? = some '.' := by
    rw [spelled_cons, Symbol.spelling_of_kind hfirst rfl, String.toList_append]
    rfl
  generalize hs : first :: s = t at h hdot
  cases h with
  | primitive hprimitive =>
    obtain ⟨rfl, -⟩ := List.cons.inj hs
    exact absurd hprimitive (by simp [hfirst])
  | named => simpa [TypeRef.isRooted] using hdot

/-- An extension with a dot behind its word is one of a type that is named from the root. -/
theorem Member.DerivesExtend.isRooted {m : Member ν} {inner : Body → Phrase (List (Member ν))}
    {word next : Symbol} (h : m.DerivesExtend note inner i (word :: next :: s))
    (hnext : next.kind = .dot) :
    ∃ extendee body loc, m = .block (.extend extendee) body loc ∧ extendee.isRooted := by
  generalize hs : word :: next :: s = t at h
  obtain ⟨-, htype, -⟩ := h
  obtain ⟨first, u, rfl, -⟩ := htype.exists_cons
  simp only [List.cons_append, List.cons.injEq] at hs
  obtain ⟨-, rfl, -⟩ := hs
  exact ⟨_, _, _, rfl, htype.isRooted hnext⟩

/-- A statement of the top of a file, in the body of a message. -/
theorem Directive.Derives.member {m : Member ν}
    (h : (Directive.member m).Derives Integer config note i s) (config' : Config)
    (hconfig : config.allowNegative → config'.allowNegative)
    (hm : ∀ extendee body loc, m = .block (.extend extendee) body loc → ¬extendee.isRooted)
    (j : Nat) :
    (m.map fun _ ↦ ()).Derives Integer config' noNote
      (Body.Derives Integer config' noNote config.maxDepth) .message j s := by
  have hinner ⦃b i xs s⦄ (h : Body.Derives Integer config note config.maxDepth b i xs s) ⦃j⦄
      (hm : Moves (fun _ ↦ ()) note noNote i j s) :=
    h.elsewhere hconfig (Nat.le_refl _) hm
  cases h with
  | setting h => exact .setting (h.elsewhere .noNote)
  | message h => exact .message (h.elsewhere hinner .noNote)
  | enumType h => exact .enumType (h.elsewhere .noNote)
  | extend h =>
    obtain ⟨word, next, t, rfl⟩ := h.exists_cons_cons
    refine .extend (h.elsewhere hinner .noNote) fun hnext ↦ ?_
    obtain ⟨extendee, body, loc, rfl, hrooted⟩ := h.isRooted hnext
    exact hm extendee body loc rfl hrooted

/-- Whether an extension is of such a type does not depend on the notes. -/
theorem Member.not_isRooted_map {m : Member ν}
    (hm : ∀ extendee body loc, m = .block (.extend extendee) body loc → ¬extendee.isRooted) :
    ∀ extendee body loc, (m.map fun _ ↦ ()) = .block (.extend extendee) body loc →
      ¬extendee.isRooted := by
  intro extendee body loc hmap
  cases m with
  | block header ms l =>
    cases header with
    | extend e =>
      obtain ⟨hheader, -, -⟩ := Member.block.inj hmap
      obtain rfl := Header.extend.inj hheader
      exact hm e ms l rfl
    | message | group => cases hmap
  | _ => cases hmap

/-- **Statements read alike in a message.**  A text with one statement that can also stand in a
message is that statement of a message when the message is written around it, and one more block is
allowed to be nested. -/
theorem parse_in_message {text : String} {d : Document} {m : Member Location}
    (h : parse text config = .ok d) (hversion : d.schema.version? = none)
    (hdirectives : d.schema.directives = [.member m])
    (hm : ∀ extendee body loc, m = .block (.extend extendee) body loc → ¬extendee.isRooted) :
    ∃ d', parse ("message M \x7b\n" ++ text ++ "\n\x7d")
        { config with maxDepth := config.maxDepth + 1 } = .ok d' ∧
      d'.schema.erase = ⟨none, [.member (.block (.message "M") [m.map fun _ ↦ ()] ())]⟩ := by
  obtain ⟨ts, stop, hscan, -, -, x, hx, hderives⟩ := exists_tiled_of_parse noNote h
  have herase : x.map noNote = ⟨none, [.member (m.map fun _ ↦ ())]⟩ := by
    have hmap : x.map noNote = d.schema.erase := by rw [hx, Schema.erase_map]; rfl
    rw [hmap, Schema.erase, Schema.map, hversion, hdirectives]
    rfl
  rw [herase, significant_eq] at hderives
  generalize hss : uncommented (ts.map Token.toSymbol) = ss at hderives
  have htext : Divides ['\x7d'] ("\n" ++ text ++ "\n").toList (ts.map Token.toSymbol) := by
    have hdivides : Divides ('\n' :: ['\x7d']) text.toList (ts.map Token.toSymbol) :=
      (divides_of_scanFrom hscan).alike ⟨rfl, rfl⟩
    have hblank := hdivides.append (.blank rfl .nil)
    rw [List.append_nil] at hblank
    rw [String.append_assoc, String.toList_append, String.toList_append]
    exact .blank rfl hblank
  have hstatements : Statements (Member.Derives Integer
      { config with maxDepth := config.maxDepth + 1 } noNote (Body.Derives Integer
        { config with maxDepth := config.maxDepth + 1 } noNote config.maxDepth) .message) 3
      [m.map fun _ ↦ ()] (uncommented (ts.map Token.toSymbol)) := by
    obtain ⟨hnone, hds⟩ := hderives
    cases hnone
    obtain ⟨a, v, b, rfl, ha, hb, hv⟩ := hds.exists_of_singleton
    rw [hss, List.nil_append]
    refine .singleton ha hb fun j ↦ ?_
    have hmember := hv.member { config with maxDepth := config.maxDepth + 1 } id
      (Member.not_isRooted_map hm) j
    rwa [Member.map_map] at hmember
  obtain ⟨d', hparse, hd'⟩ := exists_parse_message rfl htext hstatements
  have hopen : "message M \x7b\n" = "message M \x7b" ++ "\n" := rfl
  have hclose : "\n\x7d" = "\n" ++ "\x7d" := rfl
  refine ⟨d', ?_, hd'⟩
  rw [← hparse, hopen, hclose]
  simp only [String.append_assoc]

/-- Which of the statements of a file is a member tells the word it begins with. -/
theorem Directive.exists_member {ds : List (Directive ν)} {word : String}
    (h : ds.map Directive.sort = [word])
    (hword : word ≠ "import" ∧ word ≠ "package" ∧ word ≠ "service") :
    ∃ m, ds = [.member m] ∧ m.sort = word := by
  obtain ⟨x, rfl, hx⟩ := List.map_eq_singleton_iff.mp h
  cases x with
  | member m => exact ⟨m, rfl, hx⟩
  | importFile => exact absurd hx.symm hword.1
  | package => exact absurd hx.symm hword.2.1
  | service => exact absurd hx.symm hword.2.2

/-- A message between comments, the last of which ends with the text. -/
theorem parse_in_message_comments :
    ∃ text d d' m, text = "; /* a */ message A \x7b oneof o \x7b option.x y = 1; \x7d \x7d ; // b" ∧
      parse text {} = .ok d ∧ d.schema.version? = none ∧ d.schema.directives = [.member m] ∧
      (∀ extendee body loc, m = .block (.extend extendee) body loc → ¬extendee.isRooted) ∧
      parse ("message M \x7b\n" ++ text ++ "\n\x7d") { maxDepth := 65 } = .ok d' ∧
      d'.schema.erase = ⟨none, [.member (.block (.message "M") [m.map fun _ ↦ ()] ())]⟩ := by
  obtain ⟨d, h⟩ := exists_ok_of_isOk (x := parse
    "; /* a */ message A \x7b oneof o \x7b option.x y = 1; \x7d \x7d ; // b" {})
    (by decide +kernel)
  have hshape : (parse "; /* a */ message A \x7b oneof o \x7b option.x y = 1; \x7d \x7d ; // b"
      {}).toOption.map (fun d ↦ (d.schema.version?, d.schema.directives.map Directive.sort)) =
        some (none, ["message"]) := by
    decide +kernel
  rw [h] at hshape
  obtain ⟨hversion, hsorts⟩ := Prod.mk.inj (Option.some.inj hshape)
  obtain ⟨m, hdirectives, hsort⟩ := Directive.exists_member hsorts (by decide)
  have hm : ∀ extendee body loc, m = .block (.extend extendee) body loc → ¬extendee.isRooted := by
    rintro extendee body loc rfl
    simp [Member.sort, Header.sort] at hsort
  obtain ⟨d', h', hd'⟩ := parse_in_message h hversion hdirectives hm
  exact ⟨_, d, d', m, rfl, h, hversion, hdirectives, hm, h', hd'⟩

/-- An extension of a type that is named from the root is no statement of a message. -/
theorem parse_in_message_rooted :
    ∃ text d m, text = "extend .foo \x7b\x7d" ∧ parse text {} = .ok d ∧
      d.schema.version? = none ∧ d.schema.directives = [.member m] ∧
      ¬∃ d', parse ("message M \x7b\n" ++ text ++ "\n\x7d") { maxDepth := 65 } = .ok d' ∧
        d'.schema.erase = ⟨none, [.member (.block (.message "M") [m.map fun _ ↦ ()] ())]⟩ := by
  obtain ⟨d, h⟩ := exists_ok_of_isOk (x := parse "extend .foo \x7b\x7d" {}) (by decide +kernel)
  have hshape : (parse "extend .foo \x7b\x7d" {}).toOption.map
      (fun d ↦ (d.schema.version?, d.schema.directives.map Directive.sort)) =
        some (none, ["extend"]) := by
    decide +kernel
  rw [h] at hshape
  obtain ⟨hversion, hsorts⟩ := Prod.mk.inj (Option.some.inj hshape)
  obtain ⟨m, hdirectives, -⟩ := Directive.exists_member hsorts (by decide)
  have hfails : (parse ("message M \x7b\n" ++ "extend .foo \x7b\x7d" ++ "\n\x7d")
      { maxDepth := 65 }).isOk = false := by
    decide +kernel
  refine ⟨_, d, m, rfl, h, hversion, hdirectives, ?_⟩
  rintro ⟨d', h', -⟩
  rw [h'] at hfails
  cases hfails

end ProtoSchema
