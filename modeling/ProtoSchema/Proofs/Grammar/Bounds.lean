import ProtoSchema.Proofs.Grammar.Blame
import ProtoSchema.Proofs.Grammar.Coverage
import ProtoSchema.Proofs.Grammar.Foresight
import ProtoSchema.Proofs.Grammar.Stepping

/-!
# Every buffer is read to an end, and within its bounds

Any list of tokens can be read: without an end, with ends in the middle, with values that do not go
with their kinds.  The reading is followed here step by step on the machine of
`Proofs/Grammar/Stepping.lean`.  Whatever state it comes to is safe: the cursor stands at a token of
the buffer, in front of which there is no end, all the symbols that may be pointed back to have
their tokens too, and the depth is that of the bodies being read.  Loops and blocks take symbols,
and so the machine comes to stand still, with a schema or with a failure.

## What is here

* `Machine.start`, `Machine.after`, `Machine.State.outcome?` — the reading of a buffer as a sequence
  of states, and what it has come to.
* `Machine.Safe` — a state in which nothing is out of bounds.  It speaks of the buffer by its
  indices and of the comments that are passed over, so no fact about the machine's own lists is left
  implicit.
* `Machine.after_safe` — every state is safe; by induction on the steps, where one step is covered
  by the lemmas of the machine on how a cursor moves and which symbols are noted.
* `Machine.exists_outcome?` — the machine stands still after finitely many steps, with what the rule
  comes to by `Rule.run`.
* `Document.holds_of_read` — the extents in a schema that was read are of symbols of the sentence.
* `Document.ofTokens_safe` — both together, for every configuration and every list of tokens.
-/

set_option autoImplicit false

namespace ProtoSchema

open Grammar

namespace Machine

/-- The machine in front of a buffer. -/
def start (tokens : List Token) : State (Schema Extent) :=
  ⟨(Sentence.ofBuffer (endedBuffer tokens)).cursor, 0, .run Grammar.schema .done⟩

/-- The state of the reading of a buffer after `n` steps. -/
def after (config : Config) (tokens : List Token) (n : Nat) : State (Schema Extent) :=
  (step config)^[n] (start tokens)

/-- What the reading has come to, if it has ended. -/
def State.outcome? {ω : Type} (s : State ω) : Option (Outcome ω) :=
  match s.control with
  | .give a .done => some (.ok (a, s.cursor))
  | .fail f => some (.error f)
  | _ => none

/-- A state of the reading of a buffer in which nothing is out of bounds. -/
structure Safe (config : Config) (tokens : List Token) (s : State (Schema Extent)) : Prop where
  /-- The symbols up to the current one are those of tokens, and these are in the buffer. -/
  places : ∀ i ≤ s.cursor.index, ∃ p, (Sentence.visible (endedBuffer tokens))[i]? = some p ∧
    (Sentence.ofBuffer (endedBuffer tokens)).place i = p ∧
    (endedBuffer tokens)[p.index]? = some p.token
  /-- The current symbol is that of the token at the cursor. -/
  current : s.cursor.current.symbol =
    ((Sentence.ofBuffer (endedBuffer tokens)).place s.cursor.index).token.toSymbol
  /-- No end has been passed. -/
  no_end : ∀ t ∈ (withoutComments (endedBuffer tokens)).take s.cursor.index, t.kind ≠ .eof
  /-- The cursor does not move back. -/
  onward : s.cursor.index ≤ (step config s).cursor.index
  /-- No more bodies are being read than are allowed. -/
  depth : s.depth ≤ config.maxDepth
  /-- Where a body is left, there is one to leave. -/
  leave : ∀ xs frames, s.control = .give xs (.leave frames) → (step config s).depth + 1 = s.depth
  /-- A loop ends, or comes to fail, or comes to its next turn with a symbol taken. -/
  loop : ∀ {α : Type} test (item : Entry → Rule α) items frames,
    s.control = .loop test item items frames →
    step config s = ⟨s.cursor, s.depth, .give items frames⟩ ∨ Fails config s ∨ ∃ a c,
      Reaches config s ⟨c, s.depth, .loop test item (items ++ [a]) frames⟩ ∧
        s.cursor.index < c.index
  /-- The body of a block comes to fail, or to its result with a symbol taken. -/
  nested : ∀ b frames, s.control = .run (.nested b) frames →
    Fails config s ∨ ∃ xs c, Reaches config s ⟨c, s.depth, .give xs frames⟩ ∧
      s.cursor.index < c.index

variable {config : Config} {tokens : List Token}

/-- A machine that has come to something stands still. -/
theorem outcome?_step {ω : Type} {s : State ω} {x : Outcome ω} (h : s.outcome? = some x) :
    (step config s).outcome? = some x := by
  obtain ⟨c, depth, control⟩ := s
  cases control with
  | run | loop => cases h
  | give a frames =>
    cases frames with
    | done => exact h
    | andThen | again | leave => cases h
  | fail => exact h

/-- The machine stands still once the reading has ended. -/
theorem outcome?_after {n m : Nat} {x : Outcome (Schema Extent)}
    (h : (after config tokens n).outcome? = some x) (hle : n ≤ m) :
    (after config tokens m).outcome? = some x := by
  induction hle with
  | refl => exact h
  | step _ ih =>
    rw [after, Function.iterate_succ_apply']
    exact outcome?_step ih

/-- In front of a symbol of the sentence there is no end. -/
theorem kind_ne_eof_of_mem_take {k : Nat} (hk : k ≤ Sentence.count (endedBuffer tokens)) :
    ∀ t ∈ (withoutComments (endedBuffer tokens)).take k, t.kind ≠ .eof := by
  intro t ht
  obtain ⟨i, hi, hget⟩ := List.mem_take_iff_getElem.mp ht
  have hlt : i < Sentence.count (endedBuffer tokens) := by omega
  have htoken := Sentence.getElem?_withoutComments (Nat.le_of_lt hlt)
  rw [List.getElem?_eq_getElem (by omega), hget, Option.some.injEq] at htoken
  have hmem := Sentence.place_mem hlt
  exact htoken ▸ Sentence.kind_ne_eof hmem (Nat.le_refl _) (Sentence.getElem?_of_mem hmem)

/-- **Every state that the reading comes to is safe.** -/
theorem after_safe (config : Config) (tokens : List Token) (n : Nat) :
    Safe config tokens (after config tokens n) := by
  have honward : (start tokens).cursor.Onward (after config tokens n).cursor :=
    iterate_onward n (start tokens)
  have hbalanced : Balanced config (after config tokens n) :=
    Balanced.iterate n (.of_bodies (Nat.zero_le _) rfl)
  generalize after config tokens n = s at honward hbalanced ⊢
  obtain ⟨c, depth, control⟩ := s
  have hle : c.index ≤ Sentence.count (endedBuffer tokens) := by
    simpa [start, Sentence.cursor] using honward.index_le_stop
  have hstop : c.stop.kind = .eof := by
    rw [show c.stop = _ from honward.stop]
    exact Sentence.kind_stop
  have hcurrent := honward.symbolAt_eq (Nat.le_refl c.index)
  refine ⟨fun i hi ↦ ?_, ?_, kind_ne_eof_of_mem_take hle, (step_onward config _).index_le,
    hbalanced.le, ?_, ?_, ?_⟩
  · have hvisible := Sentence.getElem?_visible (Nat.le_trans hi hle)
    exact ⟨_, hvisible, rfl, (Sentence.mem_visible.mp (List.mem_of_getElem? hvisible)).1⟩
  · exact c.symbolAt_index.symm.trans (hcurrent.trans (Sentence.symbolAt_cursor _ _))
  · intro xs frames hcontrol
    obtain rfl : control = .give xs (.leave frames) := hcontrol
    exact Nat.sub_add_cancel hbalanced.depth_pos
  · intro α test item items frames hcontrol
    obtain rfl : control = .loop test item items frames := hcontrol
    by_cases htest : (!c.rest.isEmpty && test c.current.symbol) = true
    · exact .inr (loop_goes_on hbalanced.le item items frames htest)
    · exact .inl (step_loop_end item items frames htest)
  · intro b frames hcontrol
    obtain rfl : control = .run (.nested b) frames := hcontrol
    exact nested_goes_on hbalanced.le hstop b frames

/-- The reading comes to what `Grammar.read` says. -/
theorem exists_outcome? (config : Config) (tokens : List Token) :
    ∃ n, (after config tokens n).outcome? =
      some (Grammar.read config Grammar.schema
        (Sentence.ofBuffer (endedBuffer tokens)).cursor) := by
  have hcomes := read_comes config Grammar.schema (Sentence.ofBuffer (endedBuffer tokens)).cursor
    (Frames.done : Frames (Schema Extent) (Schema Extent))
  generalize Grammar.read config Grammar.schema _ = x at hcomes
  cases hcomes with
  | ok h =>
    obtain ⟨n, hn⟩ := h
    exact ⟨n, congrArg State.outcome? hn⟩
  | error h =>
    obtain ⟨n, hn⟩ := h
    exact ⟨n, congrArg State.outcome? hn⟩

end Machine

/-- The extents that have been noted are those of symbols of the sentence. -/
theorem Document.holds_of_read {config : Config} {tokens : List Token} {x : Schema Extent}
    {c : Cursor} (h : Grammar.read config Grammar.schema
      (Sentence.ofBuffer (endedBuffer tokens)).cursor = .ok (x, c)) :
    ∀ n ∈ x.nodes, Sentence.Holds (endedBuffer tokens) n.loc := by
  have hrun : (Reader.ofConfig config Sentence.kind_stop).run Grammar.schema 0
      (Sentence.ofBuffer (endedBuffer tokens)).cursor.rest = .ok (x, c) := h
  obtain ⟨s, rest, hrest, hderives, -⟩ := Reader.schema_ok id hrun
  have hlen : s.length ≤ Sentence.count (endedBuffer tokens) := by
    rw [← Sentence.length_rest, hrest, List.length_append]
    exact Nat.le_add_right _ _
  intro n hn
  have hmem : n.map id ∈ (x.map id).nodes := by
    rw [Schema.nodes_map]
    exact List.mem_map_of_mem hn
  obtain ⟨hlaid, -, hstop⟩ := hderives.row.laid _ hmem
  have hpos := hlaid.nonempty
  rw [Node.loc_map] at hpos hstop
  exact ⟨hpos, Nat.le_trans hstop (by simpa using hlen)⟩

/-- **Every buffer is read to an end, and within its bounds.**  From each buffer the reading goes
through safe states only, and it comes to a state in which it stays: either with a schema, all of
whose nodes have been made of symbols of the sentence, or with a failure at one of these symbols or
at the end behind them. -/
theorem Document.ofTokens_safe (config : Config) (tokens : List Token) :
    (∀ n, Machine.Safe config tokens (Machine.after config tokens n)) ∧
    ∃ n x, (∀ m, n ≤ m → (Machine.after config tokens m).outcome? = some x) ∧
      ((∃ schema c d, x = .ok (schema, c) ∧ ofTokens config tokens = .ok d ∧
        d.schema = schema.map (Sentence.ofBuffer (endedBuffer tokens)).locate ∧
        ∀ node ∈ schema.nodes, Sentence.Holds (endedBuffer tokens) node.loc) ∨
      ∃ f, x = .error f ∧ f.index ≤ Sentence.count (endedBuffer tokens) ∧
        ofTokens config tokens = .error ((Sentence.ofBuffer (endedBuffer tokens)).report f)) := by
  refine ⟨Machine.after_safe config tokens, ?_⟩
  obtain ⟨n, hn⟩ := Machine.exists_outcome? config tokens
  refine ⟨n, _, fun m hle ↦ Machine.outcome?_after hn hle, ?_⟩
  cases hread : Grammar.read config Grammar.schema
    (Sentence.ofBuffer (endedBuffer tokens)).cursor with
  | ok y =>
    have hok : ofTokens config tokens =
        .ok ⟨y.1.map (Sentence.ofBuffer (endedBuffer tokens)).locate, endedBuffer tokens,
          ⟨.start, bufferEnd (endedBuffer tokens)⟩⟩ := by
      simp only [ofTokens, hread]
    exact .inl ⟨y.1, y.2, _, rfl, hok, rfl, holds_of_read hread⟩
  | error f =>
    have hwithin :=
      Grammar.read_schema_within config (Sentence.ofBuffer (endedBuffer tokens)).cursor
    refine .inr ⟨f, rfl, ?_, ofTokens_eq_error_iff.mpr ⟨f, hread, rfl⟩⟩
    simpa [Sentence.cursor] using hwithin f hread

end ProtoSchema
