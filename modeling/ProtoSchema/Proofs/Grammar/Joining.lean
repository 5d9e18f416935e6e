import ProtoSchema.Proofs.Grammar.Completeness.Parse
import ProtoSchema.Proofs.Token.Joining

/-!
# Files behind one another

A file that is put behind another one, on a line of its own, is read there as it is read by itself,
further down; and nothing of it shows in what is read of the other.  The one thing that a file
cannot bring along is a version, which stands at the top of a file or nowhere.

The tokens are joined as in `ProtoSchema.Proofs.Token.Joining`.  So the symbols of the files stand
behind one another too, and make up the statements of the one file and then those of the other.
What is left are the places, which a derivation can be moved to as in
`ProtoSchema.Proofs.Grammar.Elsewhere`.

## What is here

* `Location.shift` — the same place further down in characters, bytes, lines and tokens.
* `Sentence.exists_place_eq` — a symbol of a file, with the tokens in front of it, whatever more
  stands behind the file.
* `Sentence.moves_before` and `Sentence.moves_behind` — the places of the symbols of each file, in
  the file itself and in the joined one.  Those of the first do not move, and those of the second
  move by the length of the first.
* `Schema.Derives.append` — statements behind statements.  The second file must state no version.
* `Document.ofTokens_append` — what is read of the joined tokens.
* `parse_append_newline` — the same of texts with a newline between them, and
  `parse_append_newline_comment`, where the first of them ends within a line comment.
-/

set_option autoImplicit false

namespace ProtoSchema

open Grammar Phrase

/-- The same place further down, behind the given number of tokens. -/
def Location.shift (d : Shift) (tokens : Nat) (l : Location) : Location :=
  ⟨l.span.shift d, l.firstToken + tokens, l.lastToken + tokens⟩

variable {d : Shift} {ts us : List Token}

/-- Where tokens stand does not matter to their symbols. -/
theorem significant_map_shift (ts : List Token) :
    significant (ts.map (Token.shift d)) = significant ts := by
  rw [significant_eq, List.map_map, significant_eq]
  rfl

/-- Nor to whether one of them is an end. -/
theorem kind_ne_eof_of_map_shift (h : ∀ t ∈ ts, t.kind ≠ .eof) :
    ∀ t ∈ ts.map (Token.shift d), t.kind ≠ .eof :=
  List.forall_mem_map.mpr h

/-! ## Places in the joined file -/

namespace Sentence

variable {stop : Token}

/-- The place of a symbol and what stands in front of it. -/
theorem exists_place_eq (hts : ∀ t ∈ ts, t.kind ≠ .eof) {k : Nat}
    (hk : k < (significant ts).length) :
    ∃ ts₁ t ts₂, ts = ts₁ ++ t :: ts₂ ∧ (significant ts₁).length = k ∧ t.kind ≠ .comment ∧
      ∀ more, (ofBuffer (ts ++ more)).place k = ⟨t, ts₁.length⟩ := by
  have hsplit : significant ts =
      (significant ts).take k ++ (significant ts)[k] :: (significant ts).drop (k + 1) := by
    rw [← List.drop_eq_getElem_cons hk, List.take_append_drop]
  obtain ⟨ts₁, t, ts₂, rfl, hts₁, -, hcomment, -⟩ := exists_token hsplit
  have hlen : (significant ts₁).length = k := by
    rw [hts₁, List.length_take_of_le (Nat.le_of_lt hk)]
  refine ⟨ts₁, t, ts₂, rfl, hlen, hcomment, fun more ↦ ?_⟩
  rw [← hlen, List.append_assoc, List.cons_append]
  exact place_eq (fun t ht ↦ hts t (List.mem_append_left _ ht)) hcomment

/-- What stands behind a file does not move its symbols. -/
theorem moves_before (hts : ∀ t ∈ ts, t.kind ≠ .eof) (more more' : List Token) :
    Moves (ofBuffer (ts ++ more)).locate id (ofBuffer (ts ++ more')).locate 0 0
      (significant ts) := by
  have hplace {k : Nat} (hk : k < (significant ts).length) :
      (ofBuffer (ts ++ more)).place k = (ofBuffer (ts ++ more')).place k := by
    obtain ⟨ts₁, t, ts₂, -, -, -, hplace⟩ := exists_place_eq hts hk
    rw [hplace, hplace]
  intro a b hab hb
  simp only [Nat.zero_add, id_eq, locate]
  rw [hplace (by omega), hplace (by omega)]

/-- The symbols of a file that is put behind another move down with it. -/
theorem moves_behind (hts : ∀ t ∈ ts, t.kind ≠ .eof) (hus : ∀ u ∈ us, u.kind ≠ .eof)
    (stop : Token) : Moves (Location.shift d ts.length ∘ (ofBuffer (us ++ [stop])).locate) id
      (ofBuffer (ts ++ (us ++ [stop]).map (Token.shift d))).locate 0 (significant ts).length
      (significant us) := by
  have hplace {k : Nat} (hk : k < (significant us).length) :
      (ofBuffer (ts ++ (us ++ [stop]).map (Token.shift d))).place ((significant ts).length + k) =
        ⟨((ofBuffer (us ++ [stop])).place k).token.shift d,
          ((ofBuffer (us ++ [stop])).place k).index + ts.length⟩ := by
    obtain ⟨us₁, u, us₂, rfl, rfl, hcomment, hplace⟩ := exists_place_eq hus hk
    have hus₁ : ∀ u ∈ us₁, u.kind ≠ .eof := fun u hu ↦ hus u (List.mem_append_left _ hu)
    have hfront : ∀ t ∈ ts ++ us₁.map (Token.shift d), t.kind ≠ .eof :=
      List.forall_mem_append.mpr ⟨hts, kind_ne_eof_of_map_shift hus₁⟩
    have hjoined := @place_eq _ ((us₂ ++ [stop]).map (Token.shift d)) (u.shift d) hfront hcomment
    rw [significant_append, significant_map_shift, List.length_append, List.length_append,
      List.length_map, List.append_assoc] at hjoined
    rw [hplace, List.append_assoc, List.map_append, List.cons_append, List.map_cons, hjoined,
      Nat.add_comm ts.length]
  intro a b hab hb
  have hlast : (significant ts).length + b - 1 = (significant ts).length + (b - 1) := by omega
  simp only [Nat.zero_add, id_eq, Function.comp_apply, locate]
  rw [hlast, hplace (by omega), hplace (by omega)]
  rfl

end Sentence

/-! ## The joined file -/

/-- The statements of two files are those of one, if the second file states no version. -/
theorem Schema.Derives.append {ν : Type} {bare : Phrase Int} {config : Config} {note : Extent → ν}
    {i : Nat} {x y : Schema ν} {s t : List Symbol} (hx : x.Derives bare config note i s)
    (hy : y.Derives bare config note (i + s.length) t) (hv : y.version? = none) :
    (⟨x.version?, x.directives ++ y.directives⟩ : Schema ν).Derives
      bare config note i (s ++ t) := by
  obtain ⟨hversion, hds⟩ := hx
  obtain ⟨hnone, hds'⟩ := hy
  obtain rfl : _ = none := hv
  cases hnone
  rw [List.append_assoc]
  refine .mk hversion (hds.append ?_)
  rwa [List.length_append, ← Nat.add_assoc] at hds'

/-- What two files derive, with places for notes, is what is read when their tokens are joined. -/
theorem Document.ofTokens_append {config : Config} {x y : Schema Extent} {stop last : Token}
    (hts : ∀ t ∈ ts, t.kind ≠ .eof) (hus : ∀ u ∈ us, u.kind ≠ .eof) (hlast : last.kind = .eof)
    (hx : x.Derives Integer config id 0 (significant ts))
    (hy : y.Derives Integer config id 0 (significant us)) (hv : y.version? = none) :
    ∃ d', Document.ofTokens config (ts ++ (us ++ [last]).map (Token.shift d)) = .ok d' ∧
      d'.tokens = ts ++ (us ++ [last]).map (Token.shift d) ∧
      d'.schema.version? = (x.map (Sentence.ofBuffer (ts ++ [stop])).locate).version? ∧
      d'.schema.directives = (x.map (Sentence.ofBuffer (ts ++ [stop])).locate).directives ++
        (y.map (Location.shift d ts.length ∘
          (Sentence.ofBuffer (us ++ [last])).locate)).directives := by
  have hall : ∀ t ∈ ts ++ us.map (Token.shift d), t.kind ≠ .eof :=
    List.forall_mem_append.mpr ⟨hts, kind_ne_eof_of_map_shift hus⟩
  have hbefore := hx.elsewhere id (Nat.le_refl _)
    (Sentence.moves_before hts [stop] ((us ++ [last]).map (Token.shift d)))
  have hbehind := hy.elsewhere id (Nat.le_refl _) (Sentence.moves_behind (d := d) hts hus last)
  rw [← Nat.zero_add (significant ts).length] at hbehind
  have hjoined := hbefore.append hbehind (by rw [Schema.map, hv, Option.map_none])
  have htokens : ts ++ (us ++ [last]).map (Token.shift d) =
      ts ++ us.map (Token.shift d) ++ [last.shift d] := by simp
  rw [← significant_map_shift us, ← significant_append, htokens] at hjoined
  rw [htokens]
  exact ⟨_, Document.ofTokens_of_located hall hlast hjoined, rfl, rfl, rfl⟩

/-- **Files are read one after the other.**  What is read of a file and another one behind it are
the statements of the first, at their places, and those of the second, further down; if the second
file states no version, for else it is in the wrong place there. -/
theorem parse_append_newline {text more : String} {config : Config} {d d' : Document}
    (h : parse text config = .ok d) (h' : parse more config = .ok d')
    (hv : d'.schema.version? = none) :
    ∃ joined, parse (text ++ "\n" ++ more) config = .ok joined ∧
      joined.tokens = d.tokens.dropLast ++ d'.tokens.map (Token.shift (.past text)) ∧
      joined.schema.version? = d.schema.version? ∧
      joined.schema.directives = d.schema.directives ++
        d'.schema.directives.map
          (Directive.map (Location.shift (.past text) d.tokens.dropLast.length)) := by
  obtain ⟨ts, stop, hscan, -, htiled, htokens, x, hx, hderives⟩ := exists_extents_of_parse h
  obtain ⟨us, last, hscan', hlast, htiled', htokens', y, hy, hderives'⟩ :=
    exists_extents_of_parse h'
  have hjoined : scan (text ++ "\n" ++ more) =
      .ok (ts ++ (us ++ [last]).map (Token.shift (.past text))) := by
    rw [scan_append hscan, hscan']
    rfl
  have hnone : y.version? = none := by
    rw [hy] at hv
    exact Option.map_eq_none_iff.mp hv
  obtain ⟨joined, hread, hall, hversion, hdirectives⟩ :=
    Document.ofTokens_append (d := .past text) htiled.kind_ne_eof htiled'.kind_ne_eof hlast hderives
      hderives' hnone
  refine ⟨joined, parse_eq_ok_iff.mpr ⟨_, hjoined, hread⟩, ?_, ?_, ?_⟩
  · rw [hall, htokens, htokens', List.dropLast_concat]
  · rw [hversion, hx]
  · rw [hdirectives, hx, hy, htokens, List.dropLast_concat, ← Schema.map_map]
    rfl

/-- Behind a file that ends with a comment and no newline. -/
theorem parse_append_newline_comment :
    ∃ text more d d', text = "syntax = 'proto2'; message M \x7b \x7d // é" ∧
      more = "; /* a */ package p.q;\n enum E \x7b A = 0; \x7d" ∧ parse text {} = .ok d ∧
      parse more {} = .ok d' ∧ d'.schema.version? = none ∧
      ∃ joined, parse (text ++ "\n" ++ more) {} = .ok joined ∧
        joined.tokens = d.tokens.dropLast ++ d'.tokens.map (Token.shift (.past text)) ∧
        joined.schema.version? = d.schema.version? ∧
        joined.schema.directives = d.schema.directives ++
          d'.schema.directives.map
            (Directive.map (Location.shift (.past text) d.tokens.dropLast.length)) := by
  obtain ⟨d, h⟩ := exists_ok_of_isOk
    (x := parse "syntax = 'proto2'; message M \x7b \x7d // é" {}) (by decide +kernel)
  obtain ⟨d', h'⟩ := exists_ok_of_isOk
    (x := parse "; /* a */ package p.q;\n enum E \x7b A = 0; \x7d" {}) (by decide +kernel)
  have hversion : (parse "; /* a */ package p.q;\n enum E \x7b A = 0; \x7d" {}).toOption.map
      (fun d ↦ d.schema.version?.isNone) = some true := by decide +kernel
  rw [h'] at hversion
  have hv : d'.schema.version? = none := Option.isNone_iff_eq_none.mp (Option.some.inj hversion)
  exact ⟨_, _, d, d', rfl, rfl, h, h', hv, parse_append_newline h h' hv⟩

end ProtoSchema
