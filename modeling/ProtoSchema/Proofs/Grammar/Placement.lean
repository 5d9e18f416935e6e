import ProtoSchema.Proofs.Grammar.Layout
import ProtoSchema.Proofs.Grammar.Soundness.Parse
import ProtoSchema.Proofs.Schema.Notes

/-!
# Where the nodes of a document stand

A buffer of tokens has comments between the symbols that the grammar reads, and a document has the
place of each node in the buffer.  The nodes of a schema lie as its symbols do, and the sentence of
a buffer keeps the order of the tokens; so the nodes lie the same way in the buffer, comments and
all.

Nothing is asked of the buffer: it may be made by hand, with ends in the middle of it and with spans
that do not follow one another.  So it is numbers of tokens that are in order here, and of the span
of a node it is only said from which tokens it is.

## What is here

* `Location.Inside`, `Location.Before` — how two places can lie.
* `Node.Placed` — a node that stands where it was read: its first and last token, its span, no end
  in it, and its parts inside of it.
* `Sentence.place_lt_place` and the lemmas around it — the sentence keeps the order of the tokens.
* `Sentence.Holds`, `Sentence.locate_inside`, `Sentence.locate_before` — so do extents and places.
* `Sentence.nests_of_nests`, `Sentence.placed_of_laid` — a node that is laid out well among the
  symbols is placed well among the tokens.
* `Document.nodes_placed` — all nodes of a document, by `Schema.Derives.row`.
* `Document.nodes_placed_message` — a message with comments in it.
-/

set_option autoImplicit false

namespace ProtoSchema

/-- The tokens of the one place are among those of the other. -/
def Location.Inside (l around : Location) : Prop :=
  around.firstToken ≤ l.firstToken ∧ l.lastToken ≤ around.lastToken

/-- The one place ends in front of the token that the other begins with. -/
def Location.Before (l later : Location) : Prop := l.lastToken < later.firstToken

/-- The node begins and ends with tokens of the buffer, neither of which is a comment; its span goes
from the one to the other, and no end lies between them; and its parts lie well inside of it. -/
structure Node.Placed (tokens : List Token) (n : Node Location) : Prop where
  order : n.loc.firstToken ≤ n.loc.lastToken
  bound : n.loc.lastToken < tokens.length
  ends : ∃ first last, tokens[n.loc.firstToken]? = some first ∧
    tokens[n.loc.lastToken]? = some last ∧ first.kind ≠ .comment ∧ last.kind ≠ .comment ∧
      n.loc.span = first.span.join last.span
  no_end : ∀ i t, n.loc.firstToken ≤ i → i ≤ n.loc.lastToken → tokens[i]? = some t → t.kind ≠ .eof
  nests : n.Nests Location.Inside Location.Before

/-! ## Places in a sentence -/

namespace Sentence

variable {tokens : List Token}

/-- How many symbols the sentence of a buffer has. -/
abbrev count (tokens : List Token) : Nat := (ofBuffer tokens).places.size

/-- The place with a number of the sentence, and not its end. -/
theorem place_of_lt {s : Sentence} {i : Nat} (h : i < s.places.size) : s.place i = s.places[i] := by
  rw [place, Array.getD_eq_getD_getElem?, Array.getElem?_eq_getElem h, Option.getD_some]

theorem place_mem {i : Nat} (h : i < count tokens) :
    (ofBuffer tokens).place i ∈ (ofBuffer tokens).places.toList := by
  rw [place_of_lt h]
  exact Array.getElem_mem_toList h

/-- Places stand in their order. -/
theorem place_lt_place {i j : Nat} (hij : i < j) (hj : j < count tokens) :
    ((ofBuffer tokens).place i).index < ((ofBuffer tokens).place j).index := by
  have hi : i < count tokens := Nat.lt_trans hij hj
  rw [place_of_lt hi, place_of_lt hj]
  exact List.pairwise_iff_getElem.mp places_pairwise i j hi hj hij

theorem place_le_place {i j : Nat} (hij : i ≤ j) (hj : j < count tokens) :
    ((ofBuffer tokens).place i).index ≤ ((ofBuffer tokens).place j).index := by
  rcases Nat.lt_or_eq_of_le hij with hlt | rfl
  · exact Nat.le_of_lt (place_lt_place hlt hj)
  · exact Nat.le_refl _

/-! ## Locating -/

/-- The extent has symbols, all of them of the sentence. -/
def Holds (tokens : List Token) (e : Extent) : Prop := e.start < e.stop ∧ e.stop ≤ count tokens

variable {e e' : Extent}

/-- What lies inside among the symbols lies inside among the tokens. -/
theorem locate_inside (he : Holds tokens e) (he' : Holds tokens e') (h : e.Inside e') :
    ((ofBuffer tokens).locate e).Inside ((ofBuffer tokens).locate e') := by
  obtain ⟨hlt, hle⟩ := he
  obtain ⟨hlt', hle'⟩ := he'
  obtain ⟨hstart, hstop⟩ := h
  exact ⟨place_le_place hstart (by omega), place_le_place (by omega) (by omega)⟩

/-- What lies in front among the symbols lies in front among the tokens. -/
theorem locate_before (he : Holds tokens e) (he' : Holds tokens e') (h : e.Before e') :
    ((ofBuffer tokens).locate e).Before ((ofBuffer tokens).locate e') := by
  obtain ⟨hlt, hle⟩ := he
  obtain ⟨hlt', hle'⟩ := he'
  have hstart : e.stop ≤ e'.start := h
  exact place_lt_place (by omega) (by omega)

/-- Parts that lie well among the symbols lie well among the tokens. -/
theorem nests_of_nests {n : Node Extent} (h : n.Nests Extent.Inside Extent.Before)
    (hn : Holds tokens n.loc) (hparts : ∀ c ∈ n.parts.flatten, Holds tokens c.loc) :
    (n.map (ofBuffer tokens).locate).Nests Location.Inside Location.Before where
  inside := by
    rw [Node.parts_map, ← List.map_flatten, List.forall_mem_map, Node.loc_map]
    intro c hc
    rw [Node.loc_map]
    exact locate_inside (hparts c hc) hn (h.inside c hc)
  increasing := by
    rw [Node.parts_map, List.forall_mem_map]
    intro cs hcs
    have hmem : ∀ c ∈ cs, Holds tokens c.loc :=
      fun c hc ↦ hparts c (List.mem_flatten.mpr ⟨cs, hcs, hc⟩)
    refine List.pairwise_map.mpr ((h.increasing cs hcs).imp_of_mem fun {a b} ha hb hab ↦ ?_)
    rw [Node.loc_map, Node.loc_map]
    exact locate_before (hmem a ha) (hmem b hb) hab
  apart := by
    rw [Node.parts_map, ← List.map_flatten]
    refine List.pairwise_map.mpr (h.apart.imp_of_mem fun {a b} ha hb hab ↦ ?_)
    rw [Node.loc_map, Node.loc_map]
    exact hab.imp (locate_before (hparts a ha) (hparts b hb))
      (locate_before (hparts b hb) (hparts a ha))

/-- A node that is laid out well among the symbols is placed well among the tokens. -/
theorem placed_of_laid {n : Node Extent} (hn : n.Laid) (hstop : n.loc.stop ≤ count tokens)
    (hparts : ∀ c ∈ n.parts.flatten, Holds tokens c.loc) :
    (n.map (ofBuffer tokens).locate).Placed tokens := by
  have hpos := hn.nonempty
  have hfirst := place_mem (i := n.loc.start) (Nat.lt_of_lt_of_le hpos hstop)
  have hlast := place_mem (i := n.loc.stop - 1) (Nat.lt_of_lt_of_le (by omega) hstop)
  have hget := getElem?_of_mem hlast
  refine ⟨?_, ?_, ?_, ?_, nests_of_nests hn.nests ⟨hpos, hstop⟩ hparts⟩
  all_goals rw [Node.loc_map]
  · exact place_le_place (by omega) (by omega)
  · exact (List.getElem?_eq_some_iff.mp hget).1
  · exact ⟨_, _, getElem?_of_mem hfirst, hget, kind_ne_comment hfirst, kind_ne_comment hlast, rfl⟩
  · exact fun i t _ hle ht ↦ kind_ne_eof hlast hle ht

end Sentence

/-! ## Documents -/

/-- **The nodes of a document stand where they were read**, each inside of the one it is a part of,
and behind the part that was read before it. -/
theorem Document.nodes_placed {config : Config} {tokens : List Token} {d : Document}
    (h : Document.ofTokens config tokens = .ok d) :
    d.tokens = endedBuffer tokens ∧ (∀ n ∈ d.schema.nodes, n.Placed d.tokens) ∧
      d.schema.roots.Pairwise fun a b ↦ a.loc.Before b.loc := by
  obtain ⟨x, hx, htokens, hderives⟩ := Document.derives_of_ofTokens id h
  rw [← Function.comp_id (Sentence.locate _), ← Schema.map_map] at hx
  generalize x.map id = x at hx hderives
  have hrow := hderives.row
  have hcount : (Sentence.ofBuffer d.tokens).cursor.rest.length = Sentence.count d.tokens := by
    simp [Sentence.cursor]
  rw [hcount, Nat.zero_add] at hrow
  have hholds : ∀ n ∈ x.nodes, Sentence.Holds d.tokens n.loc :=
    fun n hn ↦ ⟨(hrow.laid n hn).1.nonempty, (hrow.laid n hn).2.2⟩
  refine ⟨htokens, ?_, ?_⟩
  · rw [hx, Schema.nodes_map, List.forall_mem_map]
    intro n hn
    obtain ⟨hlaid, -, hstop⟩ := hrow.laid n hn
    exact Sentence.placed_of_laid hlaid hstop fun c hc ↦ hholds c (x.hasParts n hn hc)
  · rw [hx, Schema.roots_map]
    refine List.pairwise_map.mpr (hrow.pairwise.imp_of_mem fun {a b} ha hb hab ↦ ?_)
    rw [Node.loc_map, Node.loc_map]
    exact Sentence.locate_before (hholds a (x.roots_subset ha)) (hholds b (x.roots_subset hb)) hab

/-- A message with an enum inside, and comments among the tokens of both. -/
theorem Document.nodes_placed_message :
    ∃ text tokens d, text =
      "message M \x7b /* a */ enum E \x7b A = 0; // b\n reserved 1 to max; \x7d \x7d" ∧
      scan text = .ok tokens ∧ Document.ofTokens {} tokens = .ok d ∧
      d.tokens = endedBuffer tokens ∧ (∀ n ∈ d.schema.nodes, n.Placed d.tokens) ∧
      d.schema.roots.Pairwise fun a b ↦ a.loc.Before b.loc := by
  obtain ⟨d, h⟩ := exists_ok_of_isOk (x := parse
    "message M \x7b /* a */ enum E \x7b A = 0; // b\n reserved 1 to max; \x7d \x7d" {})
    (by decide +kernel)
  obtain ⟨tokens, hscan, hread⟩ := parse_eq_ok_iff.mp h
  exact ⟨_, tokens, d, rfl, hscan, hread, Document.nodes_placed hread⟩

end ProtoSchema
