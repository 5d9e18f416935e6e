import ProtoSchema.Proofs.Grammar.Nesting
import ProtoSchema.Proofs.Grammar.Occurrence
import ProtoSchema.Proofs.Grammar.Placement

/-!
# Statements cut out of a text

The place of a statement says from where to where its text goes, and that text says all there is to
the statement: it reads as the statement again, alone in a file, or alone in a message if it is the
statement of a message.

A statement ends with a semicolon or a closing brace.  That is why the text of a statement is
divided as it is in the whole text, whatever stands behind it.

## What is here

* `Ended` — symbols that end a statement, two at least, so that the first and the last are not one.
* `Ended.append`, `Ended.semicolon`, `Ended.block` — how symbols come to be so.
* `Setting.Derives.ended` to `Directive.Derives.ended` — statements are so, line by line.
* `exists_tokens` — symbols in a row among those of a text, and the tokens they belong to, with the
  comments between them.
* `Sentence.span_locate` — the place of such a row, read off the first token and the last.
* `pieceAt_boundary`, `exists_cut_of_scanFrom`, `exists_part_of_scanFrom` — a text can be cut behind
  a semicolon or a brace, and what is cut off in front of it is divided as it was.
* `exists_excerpt` — the text of a statement, as a slice of the bytes and as a division.
* `Document.excerpts` — statements at the top of a file, and members of messages and groups at any
  depth.  Bodies of extensions are left out: a field of one may be no member of a message, since its
  type can be a word that begins another statement there.
-/

set_option autoImplicit false

namespace ProtoSchema

open Grammar Phrase

/-! ## The ends of statements -/

/-- Two symbols or more, the last of which is a semicolon or a closing brace. -/
inductive Ended : List Symbol → Prop
  | mk {first last : Symbol} {s : List Symbol}
    (hlast : last.kind = .semicolon ∨ last.kind = .rightBrace) : Ended (first :: (s ++ [last]))

namespace Ended

variable {a : Symbol} {s : List Symbol}

/-- Anything can stand in front. -/
theorem append (h : Ended s) (t : List Symbol) : Ended (t ++ s) := by
  obtain @⟨first, last, s, hlast⟩ := h
  cases t with
  | nil => exact .mk hlast
  | cons b t =>
    have hassoc : b :: t ++ first :: (s ++ [last]) = b :: (t ++ first :: s ++ [last]) := by simp
    rw [hassoc]
    exact .mk hlast

theorem cons (h : Ended s) (a : Symbol) : Ended (a :: s) := h.append [a]

/-- What a semicolon ends is ended. -/
theorem semicolon {semi : Symbol} (h : semi.kind = .semicolon) (a : Symbol) (s : List Symbol) :
    Ended (a :: (s ++ [semi])) :=
  .mk (.inl h)

theorem semicolon₂ {semi : Symbol} (h : semi.kind = .semicolon) (a : Symbol) (s t : List Symbol) :
    Ended (a :: (s ++ (t ++ [semi]))) := by
  rw [← List.append_assoc]
  exact .semicolon h a (s ++ t)

/-- A body ends with its brace. -/
theorem block {α : Type} {p : Phrase α} {i : Nat} {xs : List α} (h : Block p i xs s) : Ended s := by
  obtain ⟨-, -, hr⟩ := h
  exact .mk (.inr hr)

end Ended

section Statements

variable {ν : Type} {bare : Phrase Int} {config : Config} {note : Extent → ν} {i depth : Nat}
  {s : List Symbol}

theorem Body.Derives.ended {b : Body} {xs : List (Member ν)}
    (h : Body.Derives bare config note depth b i xs s) : Ended s := by
  cases depth with
  | zero => exact h.elim
  | succ depth => exact .block h

/-- An option statement ends with its semicolon. -/
theorem Setting.Derives.ended {x : Setting ν} (h : x.Derives note i s) : Ended s := by
  obtain ⟨-, -, -, -, hsemi⟩ := h
  exact ((Ended.semicolon hsemi _ _).append _).cons _

theorem EnumType.Derives.ended {x : EnumType ν} (h : x.Derives bare note i s) : Ended s := by
  obtain ⟨-, -, hitems⟩ := h
  exact ((Ended.block hitems).cons _).cons _

theorem Member.DerivesMessage.ended {x : Member ν}
    (h : x.DerivesMessage note (Body.Derives bare config note depth) i s) : Ended s := by
  obtain ⟨-, -, hbody⟩ := h
  exact (hbody.ended.cons _).cons _

theorem Member.DerivesExtend.ended {x : Member ν}
    (h : x.DerivesExtend note (Body.Derives bare config note depth) i s) : Ended s := by
  obtain ⟨-, -, hbody⟩ := h
  exact (hbody.ended.append _).cons _

/-- A member ends with a semicolon or with the brace of its body. -/
theorem Member.Derives.ended {b : Body} {x : Member ν}
    (h : x.Derives bare config note (Body.Derives bare config note depth) b i s) : Ended s := by
  cases h with
  | field h _ =>
    generalize _ :: _ :: _ = s at h
    obtain ⟨-, -, -, hsemi⟩ | ⟨-, -, -, hsemi⟩ := h
    · exact .semicolon₂ hsemi _ _ _
    · exact .semicolon₂ hsemi _ _ _
  | group h =>
    obtain ⟨-, -, -, hbody⟩ := h
    exact ((hbody.ended.append _).cons _).cons _
  | message h => exact h.ended
  | enumType h => exact h.ended
  | extend h _ => exact h.ended
  | extensions h _ =>
    generalize _ :: _ :: _ = s at h
    obtain ⟨-, -, -, hsemi⟩ := h
    exact .semicolon₂ hsemi _ _ _
  | setting h => exact h.ended
  | oneOf h =>
    obtain ⟨-, -, hitems⟩ := h
    exact ((Ended.block hitems).cons _).cons _
  | reserved h _ =>
    generalize _ :: _ :: _ = s at h
    obtain ⟨-, -, hsemi⟩ := h
    exact .semicolon hsemi _ _
  | mapField h =>
    obtain ⟨-, -, -, -, -, -, -, hsemi⟩ := h
    exact ((((Ended.semicolon hsemi _ _).append _).cons _).cons _).cons _ |>.cons _

/-- A statement at the top of a file ends with a semicolon or a brace. -/
theorem Directive.Derives.ended {x : Directive ν} (h : x.Derives bare config note i s) :
    Ended s := by
  cases h with
  | importFile h =>
    obtain ⟨-, -, -, hsemi⟩ := h
    exact .semicolon₂ hsemi _ _ _
  | package h =>
    obtain ⟨-, -, hsemi⟩ := h
    exact .semicolon hsemi _ _
  | setting h => exact h.ended
  | message h => exact h.ended
  | enumType h => exact h.ended
  | extend h => exact h.ended
  | service h =>
    obtain ⟨-, -, hitems⟩ := h
    exact ((Ended.block hitems).cons _).cons _

end Statements

/-! ## The text of a statement -/

section Text

variable {text : String} {ts : List Token} {stop : Token} {u v w : List Symbol}

/-- The tokens of symbols that the grammar reads in a row. -/
theorem exists_tokens {first last : Symbol} {mid : List Symbol}
    (h : significant ts = u ++ first :: (mid ++ [last]) ++ w) :
    ∃ ts₁ t ts₂ t' ts₃, ts = ts₁ ++ t :: (ts₂ ++ t' :: ts₃) ∧ significant ts₁ = u ∧
      t.toSymbol = first ∧ t.kind ≠ .comment ∧ significant ts₂ = mid ∧ t'.toSymbol = last ∧
      t'.kind ≠ .comment := by
  have hfirst : significant ts = u ++ first :: (mid ++ last :: w) := by simpa using h
  obtain ⟨ts₁, t, ts', rfl, hu, ht, hk, hmid⟩ := exists_token hfirst
  obtain ⟨ts₂, t', ts₃, rfl, hmid, ht', hk', -⟩ := exists_token hmid
  exact ⟨ts₁, t, ts₂, t', ts₃, rfl, hu, ht, hk, hmid, ht', hk'⟩

theorem Kind.ne_of_isBoundary {kind other : Kind} (h : kind.isBoundary) (ho : ¬other.isBoundary) :
    kind ≠ other := by
  rintro rfl
  exact ho h

/-- A semicolon or a brace is one character, and it is the same whatever follows. -/
theorem pieceAt_boundary {c : Char} {cs : List Char} {p : Piece} (h : pieceAt c cs = .ok (some p))
    (hk : p.kind.isBoundary) :
    p.tail = [] ∧ endsPiece c ∧ ∀ ds, pieceAt c ds = .ok (some p) := by
  have hsymbol {kind : Kind} (hk : p.kind = kind) (hmark : kind.spelling?.isSome) :
      p.symbol c = .mark kind :=
    (heads_of_pieceAt h).genuine.eq_mark hk hmark
  obtain ⟨kind, tail, value?⟩ := p
  simp only [Kind.isBoundary, Bool.or_eq_true, beq_iff_eq] at hk
  rcases hk with (rfl | rfl) | rfl
  all_goals
    obtain ⟨-, hlexeme, rfl⟩ := Symbol.mk.inj (hsymbol rfl rfl)
    obtain ⟨rfl, rfl⟩ := List.cons.inj (String.ofList_injective hlexeme)
    exact ⟨rfl, rfl, fun _ ↦ rfl⟩

/-- The place of symbols that stand in a row goes from the token of the first to that of the
last. -/
theorem Sentence.span_locate {ts₁ ts₂ : List Token} {t t' : Token} (hts₁ : ∀ s ∈ ts₁, s.kind ≠ .eof)
    (hcomment : t.kind ≠ .comment) (ht : t.kind ≠ .eof) (hts₂ : ∀ s ∈ ts₂, s.kind ≠ .eof)
    (hcomment' : t'.kind ≠ .comment) (ts₃ : List Token) :
    ((ofBuffer (ts₁ ++ t :: (ts₂ ++ t' :: ts₃))).locate ⟨(significant ts₁).length,
      (significant ts₁).length + (t.toSymbol :: (significant ts₂ ++ [t'.toSymbol])).length⟩).span =
      t.span.join t'.span := by
  have hlast : ((ofBuffer (ts₁ ++ t :: (ts₂ ++ t' :: ts₃))).place
      ((significant ts₁).length + (t.toSymbol :: (significant ts₂ ++ [t'.toSymbol])).length -
        1)).token = t' := by
    have hplace := @place_eq (ts₁ ++ t :: ts₂) ts₃ t'
      (List.forall_mem_append.mpr ⟨hts₁, List.forall_mem_cons.mpr ⟨ht, hts₂⟩⟩) hcomment'
    rw [significant_append, significant_cons hcomment, List.append_assoc, List.cons_append]
      at hplace
    have hlen : (significant ts₁).length +
        (t.toSymbol :: (significant ts₂ ++ [t'.toSymbol])).length - 1 =
          (significant ts₁ ++ t.toSymbol :: significant ts₂).length := by
      simp only [List.length_append, List.length_cons, List.length_nil]
      omega
    rw [hlen, hplace]
  rw [locate, place_eq hts₁ hcomment, hlast]

/-- A text may be cut behind a token at which a statement ends or a body begins: whatever stands
there, the text in front is divided as it was, and the rest is scanned as it was. -/
theorem exists_cut_of_scanFrom {m : Mark} {cs : List Char} {ts us : List Token} {t : Token}
    (h : scanFrom m cs = .ok (ts ++ t :: us)) (hk : t.kind.isBoundary) :
    ∃ part back, cs = part ++ back ∧ t.span.stop = m.after part ∧
      (∀ behind, Divides behind part ((ts ++ [t]).map Token.toSymbol)) ∧
      scanFrom t.span.stop back = .ok us := by
  have ht : t.kind ≠ .eof := Kind.ne_of_isBoundary hk (by decide)
  obtain ⟨front, c, p, back, rfl, hdivides, hpiece, rfl, hscan⟩ := exists_split_of_scanFrom h ht
  obtain ⟨htail, hends, hpieces⟩ := pieceAt_boundary hpiece hk
  have hstop : (p.token c (m.after front)).span.stop = (m.after front).after [c] := by
    rw [Piece.token, htail]
  refine ⟨front ++ [c], back, ?_, ?_, fun behind ↦ ?_, ?_⟩
  · rw [htail, List.nil_append, List.append_assoc, List.singleton_append]
  · rw [hstop, Mark.after_append]
  · have hfront : Divides ([c] ++ behind) front (ts.map Token.toSymbol) :=
      hdivides.alike ⟨rfl, hends⟩
    have hclose : Divides behind (c :: (p.tail ++ [])) [p.symbol c] := .piece (hpieces _) .nil
    rw [htail] at hclose
    rw [List.map_append]
    exact hfront.append hclose
  · rw [hstop]
    rw [scanFrom, hpieces] at hscan
    dsimp only at hscan
    rw [htail, List.nil_append, List.length_nil, List.drop_zero] at hscan
    obtain ⟨found, hback, hfound⟩ := map_cons_eq_ok hscan
    rw [hback, (List.cons.inj hfound).2]

/-- The text from one token to another one at which a statement ends is divided into the symbols of
the tokens, whatever stands behind it. -/
theorem exists_part_of_scanFrom {m : Mark} {cs : List Char} {ts₁ ts₂ ts₃ : List Token}
    {t t' : Token} (h : scanFrom m cs = .ok (ts₁ ++ t :: (ts₂ ++ t' :: ts₃))) (ht : t.kind ≠ .eof)
    (hk : t'.kind.isBoundary) :
    ∃ front part back, cs = front ++ part ++ back ∧ t.span.start = m.after front ∧
      t'.span.stop = m.after (front ++ part) ∧
      ∀ behind, Divides behind part ((t :: ts₂ ++ [t']).map Token.toSymbol) := by
  obtain ⟨front, c, p, rest, rfl, -, -, htoken, hscan⟩ := exists_split_of_scanFrom h ht
  have hscan : scanFrom (m.after front) (c :: (p.tail ++ rest)) = .ok (t :: ts₂ ++ t' :: ts₃) :=
    hscan
  obtain ⟨part, back, hcut, hstop, hdivides, -⟩ := exists_cut_of_scanFrom hscan hk
  refine ⟨front, part, back, ?_, ?_, ?_, hdivides⟩
  · rw [hcut, List.append_assoc]
  · rw [htoken, Piece.token]
  · rw [hstop, Mark.after_append]

/-- The text of a statement is divided into the symbols of the statement, whatever stands behind. -/
theorem exists_excerpt (hscan : scan text = .ok (ts ++ [stop]))
    (hts : ∀ t ∈ ts, t.kind ≠ .eof) (hsymbols : significant ts = u ++ v ++ w) (hv : Ended v) :
    ∃ part ss, IsSlice text part
        ((Sentence.ofBuffer (ts ++ [stop])).locate
          ⟨u.length, u.length + v.length⟩).span.start.offset
        ((Sentence.ofBuffer (ts ++ [stop])).locate
          ⟨u.length, u.length + v.length⟩).span.stop.offset ∧
      uncommented ss = v ∧ ∀ behind, Divides behind part.toList ss := by
  obtain @⟨first, last, mid, hlast⟩ := hv
  obtain ⟨ts₁, t, ts₂, t', ts₃, rfl, rfl, rfl, hcomment, rfl, rfl, hcomment'⟩ :=
    exists_tokens hsymbols
  rw [List.forall_mem_append, List.forall_mem_cons, List.forall_mem_append, List.forall_mem_cons]
    at hts
  obtain ⟨hts₁, ht, hts₂, -, -⟩ := hts
  have hassoc : ts₁ ++ t :: (ts₂ ++ t' :: ts₃) ++ [stop] =
      ts₁ ++ t :: (ts₂ ++ t' :: (ts₃ ++ [stop])) := by simp
  rw [hassoc] at hscan ⊢
  have hboundary : t'.kind.isBoundary := by
    rcases hlast with hk | hk <;> exact congrArg Kind.isBoundary hk
  obtain ⟨front, part, back, hcut, hstart, hstop, hdivides⟩ :=
    exists_part_of_scanFrom hscan ht hboundary
  refine ⟨String.ofList part, (t :: ts₂ ++ [t']).map Token.toSymbol, ?_, ?_, fun behind ↦ ?_⟩
  · have hslice : IsSlice text (String.ofList part) _ _ :=
      isSlice_of_append (by rw [String.toList_ofList]; exact hcut)
    rw [String.toList_ofList, ← Mark.offset_start_after, ← Mark.offset_start_after, ← hstart,
      ← hstop] at hslice
    rw [Sentence.span_locate hts₁ hcomment ht hts₂ hcomment' (ts₃ ++ [stop])]
    exact hslice
  · rw [← significant_eq, significant_append, significant_cons hcomment, significant_cons hcomment']
    rfl
  · rw [String.toList_ofList]
    exact hdivides behind

end Text

/-! ## Documents -/

/-- A block whose notes were changed was one before, and its members were. -/
theorem exists_block {ν μ : Type} {f : ν → μ} {n : Node ν} {header : Header μ}
    {body : List (Member μ)} {loc : μ} (h : n.map f = .member (.block header body loc))
    (hheader : ∀ extendee, header ≠ .extend extendee) {e : Member μ} (he : e ∈ body) :
    ∃ header₀ body₀ loc₀, n = .member (.block header₀ body₀ loc₀) ∧
      (∀ extendee, header₀ ≠ .extend extendee) ∧ ∃ e₀ ∈ body₀, e₀.map f = e := by
  cases n with
  | member m =>
    cases m with
    | block header₀ body₀ loc₀ =>
      obtain ⟨rfl, rfl, rfl⟩ := Member.block.inj (Node.member.inj h)
      rw [Member.mapAll_eq_map] at he
      refine ⟨header₀, body₀, loc₀, rfl, ?_, List.mem_map.mp he⟩
      rintro extendee rfl
      exact hheader _ rfl
    | _ => cases h
  | _ => cases h

/-- **A statement is its text.**  The text of a statement of a file reads as that statement alone,
and the text of a member of a message or a group, whatever depth that is at, as the only member of a
message. -/
theorem Document.excerpts {text : String} {config : Config} {d : Document}
    (h : parse text config = .ok d) :
    (∀ x ∈ d.schema.directives, ∃ part,
      IsSlice text part x.loc.span.start.offset x.loc.span.stop.offset ∧
      ∃ d', parse part config = .ok d' ∧ d'.schema.erase = ⟨none, [x.map fun _ ↦ ()]⟩) ∧
    ∀ header body loc, Node.member (.block header body loc) ∈ d.schema.nodes →
      (∀ extendee, header ≠ .extend extendee) → ∀ e ∈ body, ∃ part,
        IsSlice text part e.loc.span.start.offset e.loc.span.stop.offset ∧
        ∃ d', parse ("message M \x7b" ++ part ++ "\x7d") config = .ok d' ∧
          d'.schema.erase = ⟨none, [.member (.block (.message "M") [e.map fun _ ↦ ()] ())]⟩ := by
  obtain ⟨ts, stop, hscan, hstop, htiled, x, hx, hderives⟩ := exists_tiled_of_parse id h
  rw [← Function.comp_id (Sentence.locate _), ← Schema.map_map] at hx
  generalize x.map id = x at hx hderives
  have hts : ∀ t ∈ ts, t.kind ≠ .eof := htiled.kind_ne_eof
  rw [hx]
  constructor
  · simp only [Schema.map]
    rw [List.forall_mem_map]
    intro y hy
    obtain ⟨u, v, w, huvw, hv⟩ := hderives.directive_occurs hy
    rw [Nat.zero_add] at hv
    obtain ⟨part, ss, hslice, hss, hdivides⟩ := exists_excerpt hscan hts huvw hv.ended
    have hloc : y.loc = ⟨u.length, u.length + v.length⟩ := by rw [← Directive.loc_node, hv.sits.loc]
    have hstatements := Statements.cons (hv.elsewhere (j := 0) id (Nat.le_refl _) .noNote) .nil
    rw [List.append_nil] at hstatements
    rw [Directive.loc_map, hloc, ← Function.comp_apply (f := Directive.map fun _ ↦ ()),
      Directive.map_comp_map]
    exact ⟨part, hslice, exists_parse_of_divides (hdivides []) (hss ▸ .mk .none hstatements)⟩
  · rw [Schema.nodes_map]
    intro header body loc hmem hheader e he
    obtain ⟨n, hn, hmap⟩ := List.mem_map.mp hmem
    obtain ⟨header₀, body₀, loc₀, rfl, hheader₀, e₀, he₀, rfl⟩ := exists_block hmap hheader he
    obtain ⟨depth, hdepth, u, v, w, huvw, hv⟩ := hderives.member_occurs hn hheader₀ he₀
    rw [Nat.zero_add] at hv
    obtain ⟨part, ss, hslice, hss, hdivides⟩ := exists_excerpt hscan hts huvw hv.ended
    have hloc : e₀.loc = ⟨u.length, u.length + v.length⟩ := (hv.sits Body.Derives.row).loc
    obtain ⟨outer, houter⟩ := Nat.exists_eq_succ_of_ne_zero (Nat.ne_zero_of_lt hdepth)
    have hinner ⦃b i xs s⦄ (h : Body.Derives Integer config id depth b i xs s) ⦃j⦄
        (hm : Moves (fun _ ↦ ()) id noNote i j s) :=
      h.elsewhere id (Nat.le_of_lt_succ (houter ▸ hdepth)) hm
    have hstatements := Statements.cons (hv.elsewhere (j := 3) id hinner .noNote) .nil
    rw [List.append_nil, ← hss] at hstatements
    rw [Member.loc_map, hloc, Member.map_map]
    exact ⟨part, hslice, exists_parse_message houter (hdivides _) hstatements⟩

/-- Members of a message, of a group in it and of a message in that, cut out between comments. -/
theorem Document.excerpts_group :
    ∃ text d, text =
      "message M \x7b // a\n optional group G = 1 \x7b message N \x7b;\x7d; /* b */ " ++
        "reserved 'c'; \x7d N n = 2; \x7d package p; // d" ∧ parse text {} = .ok d ∧
      (∀ x ∈ d.schema.directives, ∃ part,
        IsSlice text part x.loc.span.start.offset x.loc.span.stop.offset ∧
        ∃ d', parse part {} = .ok d' ∧ d'.schema.erase = ⟨none, [x.map fun _ ↦ ()]⟩) ∧
      ∀ header body loc, Node.member (.block header body loc) ∈ d.schema.nodes →
        (∀ extendee, header ≠ .extend extendee) → ∀ e ∈ body, ∃ part,
          IsSlice text part e.loc.span.start.offset e.loc.span.stop.offset ∧
          ∃ d', parse ("message M \x7b" ++ part ++ "\x7d") {} = .ok d' ∧
            d'.schema.erase = ⟨none, [.member (.block (.message "M") [e.map fun _ ↦ ()] ())]⟩ := by
  obtain ⟨d, h⟩ := exists_ok_of_isOk (x := parse
    ("message M \x7b // a\n optional group G = 1 \x7b message N \x7b;\x7d; /* b */ " ++
      "reserved 'c'; \x7d N n = 2; \x7d package p; // d") {}) (by decide +kernel)
  exact ⟨_, d, rfl, h, Document.excerpts h⟩

end ProtoSchema
