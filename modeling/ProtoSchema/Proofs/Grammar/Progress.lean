import ProtoSchema.Parse.Document

/-!
# Reading goes on

A rule never goes back.  What it leaves is the end of what stood in front of it, and a symbol that
it finds unexpected is one of those that stood there, or the one behind all of them.  So the index
of a cursor and the length of what is left always have the same sum, and between two cursors of a
reading the index says it all.

A repetition takes a symbol in front of each of its items, and an item does not give symbols back.
This is why the fuel of a repetition never runs out: `Rule.run_many` is the equation of the loop,
and there is no fuel in it.

## What is here

* `Cursor.Onward` — the one cursor stands behind the other, or is the same.  It is an order
  (`Cursor.Onward.refl`, `Cursor.Onward.trans`), and `Cursor.advance` goes along it.
* `Cursor.symbolAt` — the symbol with a number, which all later cursors see alike.
* `Outcome.Onward` — an outcome that leaves a later cursor, or reports an unexpected symbol that is
  one of those left or the end, or is a violation.
* `Cursor.repeatWhile_onward`, `Cursor.repeatWhile_eq` — loops, and that more fuel changes nothing.
* `Rule.run_onward` — every rule reads on, by induction on the rule.  The bodies of blocks are a
  parameter there, and `Grammar.readBody_onward` is the induction on the depth.
* `Rule.run_many` — the equation of a loop.
* `Grammar.unexpected_of_read` — an unexpected symbol is one that is there, and is reported as it
  is.
-/

set_option autoImplicit false

namespace ProtoSchema

open Grammar

namespace Cursor

/-- Between the first cursor and the second some symbols have been taken. -/
structure Onward (c c' : Cursor) : Prop where
  rest : c'.rest <:+ c.rest
  index : c'.index + c'.rest.length = c.index + c.rest.length
  stop : c'.stop = c.stop

namespace Onward

variable {c c' c'' : Cursor}

/-- Where nothing has been taken. -/
theorem refl (c : Cursor) : c.Onward c := ⟨List.suffix_refl _, rfl, rfl⟩

/-- Reading on twice is reading on. -/
theorem trans (h : c.Onward c') (h' : c'.Onward c'') : c.Onward c'' :=
  ⟨h'.rest.trans h.rest, h'.index.trans h.index, h'.stop.trans h.stop⟩

/-- Taking a symbol is reading on. -/
theorem advance (c : Cursor) : c.Onward c.advance := by
  obtain ⟨i, rest, stop⟩ := c
  cases rest with
  | nil => exact refl _
  | cons s rest => exact ⟨List.suffix_cons s rest, by simp [Cursor.advance]; omega, rfl⟩

/-- The numbers go up. -/
theorem index_le (h : c.Onward c') : c.index ≤ c'.index := by
  have hlen := h.rest.length_le
  have hindex := h.index
  omega

/-- No more symbols are taken than there are. -/
theorem index_le_stop (h : c.Onward c') : c'.index ≤ c.index + c.rest.length := by
  have hindex := h.index
  omega

/-- What is left is what was left, without the symbols taken. -/
theorem rest_eq (h : c.Onward c') : c'.rest = c.rest.drop (c'.index - c.index) := by
  have hlen : c.rest.length - c'.rest.length = c'.index - c.index := by
    have hindex := h.index
    omega
  rw [← hlen]
  exact List.suffix_iff_eq_drop.mp h.rest

end Onward

/-- The symbol with the given number, which is not one of those taken already. -/
def symbolAt (c : Cursor) (i : Nat) : Symbol := c.rest.getD (i - c.index) c.stop

/-- The current symbol is the one with the number of the cursor. -/
theorem symbolAt_index (c : Cursor) : c.symbolAt c.index = c.current.symbol := by
  obtain ⟨i, rest, stop⟩ := c
  cases rest <;> simp [symbolAt, current]

/-- Symbols that have not been taken are the same to both cursors. -/
theorem Onward.symbolAt_eq {c c' : Cursor} (h : c.Onward c') {i : Nat} (hi : c'.index ≤ i) :
    c'.symbolAt i = c.symbolAt i := by
  have hsum : c'.index - c.index + (i - c'.index) = i - c.index := by
    have hle := h.index_le
    omega
  simp only [symbolAt, List.getD_eq_getElem?_getD, h.rest_eq, h.stop, List.getElem?_drop, hsum]

/-- In front of a symbol, taking it is a step. -/
theorem index_lt_advance {c : Cursor} (h : c.rest ≠ []) : c.index < c.advance.index := by
  obtain ⟨i, rest, stop⟩ := c
  obtain ⟨s, rest, rfl⟩ := List.exists_cons_of_ne_nil h
  exact Nat.lt_succ_self i

/-- In front of a symbol, taking it leaves less. -/
theorem length_advance_lt {c : Cursor} (h : c.rest ≠ []) :
    c.advance.rest.length < c.rest.length := by
  obtain ⟨i, rest, stop⟩ := c
  obtain ⟨s, rest, rfl⟩ := List.exists_cons_of_ne_nil h
  exact Nat.lt_succ_self _

/-- In front of an item of a loop there is a symbol. -/
theorem rest_ne_nil {c : Cursor} {test : Bool} (h : !c.rest.isEmpty && test) : c.rest ≠ [] := by
  intro hnil
  simp [hnil] at h

end Cursor

/-- An outcome that reading on from the cursor can have. -/
inductive Outcome.Onward {α : Type} (c : Cursor) : Outcome α → Prop
  | read {a : α} {c' : Cursor} (h : c.Onward c') : Onward c (.ok (a, c'))
  | unexpected {i : Nat} {expected : Expected} {s : Symbol} (hle : c.index ≤ i)
      (hstop : i ≤ c.index + c.rest.length) (hs : c.symbolAt i = s) :
    Onward c (.error ⟨i, .unexpected expected s.kind s.lexeme⟩)
  | violation {i : Nat} {v : Violation} : Onward c (.error ⟨i, .violation v⟩)

namespace Outcome.Onward

variable {α β : Type} {c c' : Cursor} {x : Outcome α}

theorem cursor {a : α} (h : Outcome.Onward c (.ok (a, c') : Outcome α)) : c.Onward c' := by
  cases h with
  | read h => exact h

/-- What comes of reading on from a later cursor comes of reading on. -/
theorem of_cursor (hc : c.Onward c') (h : x.Onward c') : x.Onward c := by
  cases h with
  | read h => exact .read (hc.trans h)
  | unexpected hle hstop hs =>
    exact .unexpected (Nat.le_trans hc.index_le hle) (hc.index ▸ hstop) (hc.symbolAt_eq hle ▸ hs)
  | violation => exact .violation

/-- One step of reading on after another. -/
theorem bind {next : α × Cursor → Outcome β} (h : x.Onward c)
    (hnext : ∀ a c', c.Onward c' → (next (a, c')).Onward c') :
    Outcome.Onward c (Except.bind x next) := by
  cases h with
  | read h => exact (hnext _ _ h).of_cursor h
  | unexpected hle hstop hs => exact .unexpected hle hstop hs
  | violation => exact .violation

/-- What comes next has to agree for later cursors only. -/
theorem bind_congr {next next' : α × Cursor → Outcome β} (h : x.Onward c)
    (hnext : ∀ a c', c.Onward c' → next (a, c') = next' (a, c')) :
    Except.bind x next = Except.bind x next' := by
  cases h with
  | read h => exact hnext _ _ h
  | unexpected | violation => rfl

theorem map {f : α → β} (h : x.Onward c) :
    Outcome.Onward c (Except.map (fun y : α × Cursor ↦ (f y.1, y.2)) x) := by
  cases h with
  | read h => exact .read h
  | unexpected hle hstop hs => exact .unexpected hle hstop hs
  | violation => exact .violation

end Outcome.Onward

/-! ## Loops -/

namespace Cursor

variable {α : Type} {test : Symbol → Bool} {item : Entry → Cursor → Outcome α}
  (hitem : ∀ e c, (item e c).Onward c)

include hitem

/-- A loop reads on, whatever its fuel is. -/
theorem repeatWhile_onward (fuel : Nat) (c : Cursor) :
    Outcome.Onward c (c.repeatWhile test item fuel) := by
  induction fuel generalizing c with
  | zero => exact .read (.refl c)
  | succ fuel ih =>
    rw [repeatWhile]
    split
    · exact ((hitem _ _).bind fun a c' _ ↦ (ih c').map (f := List.cons a)).of_cursor (.advance c)
    · exact .read (.refl c)

/-- As much fuel as there are symbols is enough. -/
theorem repeatWhile_eq {fuel fuel' : Nat} {c : Cursor} (h : c.rest.length ≤ fuel)
    (h' : c.rest.length ≤ fuel') :
    c.repeatWhile test item fuel = c.repeatWhile test item fuel' := by
  induction fuel generalizing fuel' c with
  | zero =>
    have hnil : c.rest = [] := List.length_eq_zero_iff.mp (Nat.le_zero.mp h)
    cases fuel' with
    | zero => rfl
    | succ fuel' => simp [repeatWhile, hnil]
  | succ fuel ih =>
    obtain ⟨i, rest, stop⟩ := c
    cases rest with
    | nil => cases fuel' <;> simp [repeatWhile]
    | cons s rest =>
      obtain ⟨fuel', rfl⟩ := Nat.exists_eq_succ_of_ne_zero (Nat.ne_zero_of_lt h')
      rw [repeatWhile, repeatWhile]
      refine ite_congr rfl (fun _ ↦ ?_) fun _ ↦ rfl
      refine (hitem _ _).bind_congr fun a c' honward ↦ ?_
      have hlen : c'.rest.length ≤ rest.length := honward.rest.length_le
      rw [ih (Nat.le_trans hlen (Nat.le_of_succ_le_succ h))
        (Nat.le_trans hlen (Nat.le_of_succ_le_succ h'))]

end Cursor

/-! ## Rules -/

namespace Rule

variable (config : Config) {nested : Body → Cursor → Outcome (List (Member Extent))} {α : Type}
  (hnested : ∀ b c, (nested b c).Onward c)

include hnested

/-- **A rule reads on** if the bodies of blocks do. -/
theorem run_onward (rule : Rule α) (c : Cursor) :
    Outcome.Onward c (rule.run config nested c) := by
  induction rule generalizing c with
  | andThen first next ihfirst ihnext => exact (ihfirst c).bind fun a c' _ ↦ ihnext a c'
  | result | current => exact .read (.refl c)
  | take => exact .read (.advance c)
  | reject => exact .unexpected (Nat.le_refl _) (Nat.le_add_right _ _) c.symbolAt_index
  | violate => exact .violation
  | demand =>
    rw [run]
    split
    · exact .read (.refl c)
    · exact .violation
  | many test item ih => exact Cursor.repeatWhile_onward (fun e c ↦ ih e c) _ c
  | nested b => exact hnested b c

/-- The equation of a loop: either it ends, or a symbol is taken, an item read and the loop goes
on. -/
theorem run_many (test : Symbol → Bool) (item : Entry → Rule α) (c : Cursor) :
    (many test item).run config nested c =
      if !c.rest.isEmpty && test c.current.symbol then
        ((item c.current).run config nested c.advance).bind fun x ↦
          ((many test item).run config nested x.2).map fun y ↦ (x.1 :: y.1, y.2)
      else .ok ([], c) := by
  obtain ⟨i, rest, stop⟩ := c
  cases rest with
  | nil => rfl
  | cons s rest =>
    refine ite_congr rfl (fun _ ↦ ?_) fun _ ↦ rfl
    refine (run_onward config hnested _ _).bind_congr fun a c' honward ↦ congrArg _ ?_
    exact Cursor.repeatWhile_eq (fun e ↦ run_onward config hnested (item e)) honward.rest.length_le
      (Nat.le_refl _)

end Rule

/-! ## Bodies of blocks -/

namespace Grammar

variable (config : Config)

/-- The bodies of blocks are read on, by induction on how deep they may be nested. -/
theorem readBody_onward (depth : Nat) (b : Body) (c : Cursor) :
    Outcome.Onward c (readBody config depth b c) := by
  induction depth generalizing b c with
  | zero => exact .violation
  | succ depth ih => exact Rule.run_onward config ih (body b) c

theorem read_onward {α : Type} (rule : Rule α) (c : Cursor) :
    Outcome.Onward c (read config rule c) :=
  Rule.run_onward config (readBody_onward config config.maxDepth) rule c

/-- A symbol that is unexpected is one of those that were left, or the one behind them. -/
theorem unexpected_of_read {config : Config} {α : Type} {rule : Rule α} {c : Cursor} {k : Nat}
    {expected : Expected} {found : Kind} {lexeme : String}
    (h : read config rule c = .error ⟨k, .unexpected expected found lexeme⟩) :
    k ≤ c.index + c.rest.length ∧ (c.symbolAt k).kind = found ∧ (c.symbolAt k).lexeme = lexeme := by
  have honward := read_onward config rule c
  rw [h] at honward
  cases honward with
  | unexpected _ hstop hs => exact ⟨hstop, hs ▸ rfl, hs ▸ rfl⟩

end Grammar

/-- The symbols of a sentence, the end included, are those of its tokens. -/
theorem Sentence.symbolAt_cursor (s : Sentence) (k : Nat) :
    s.cursor.symbolAt k = (s.place k).token.toSymbol := by
  rw [Cursor.symbolAt, List.getD_eq_getElem?_getD, cursor, List.getElem?_map, place,
    Array.getD_eq_getD_getElem?, ← Array.getElem?_toList]
  exact Option.getD_map (fun p ↦ p.token.toSymbol) s.stop _

end ProtoSchema
