import ProtoSchema.Proofs.Grammar.Bounds
import ProtoSchema.Proofs.Grammar.Choosing

/-!
# Looking ahead in the buffer

A rule sees the symbols of a sentence one at a time, and looks at a symbol only when it has taken
the one in front of it.  A program that keeps the whole buffer goes about it in another way: it has
the numbers of all tokens other than comments and a position among them, it looks at the current
token and at the one behind it before it takes either, and it notes the numbers that tokens have in
the buffer.  Here the one is shown to come to the other.

## What is here

* `TokenCursor` — a buffer with a position in it, and what a program does with the two: `peek?`,
  `peekNext?`, `currentIndex?`, `lastConsumed?`, `isAtEnd` and `advance`.  An index that is out of
  bounds gives `none`.
* `TokenCursor.Shows` — the relation between such a cursor and that of a rule.  Both see the same
  token (`Shows.peek?`), they are at the end together (`Shows.isAtEnd_iff`), and they go on together
  (`Shows.advance`).
* `Shows.peekNext?` — in front of the end, the token behind the current one is the one that is
  current once that has been taken, and the bound on the index is not met.  At the end it is met,
  and keeps the index in the buffer (`Shows.isSome_peekNext?`).
* `Shows.locate` — the numbers in the buffer that a program notes are those that `Sentence.locate`
  makes of the numbers in the sentence.
* `Shows.run_take_current` — to take a symbol and look at the next is to look at both and take the
  first.  So the rules for a member (`Shows.run_member`) and for a type of a call
  (`Shows.run_endpoint`) choose as if they had looked ahead.
* `Machine.after_shows` and `Machine.tokenCursor_succ` — in the reading of a buffer the two cursors
  go together from the first step to the last, and the position changes by `advance` alone.
-/

set_option autoImplicit false

namespace ProtoSchema

open Grammar Rule

/-- A buffer of tokens, and how many of those other than comments have been taken. -/
structure TokenCursor where
  buffer : List Token
  pos : Nat

namespace TokenCursor

/-- The numbers of the tokens other than comments. -/
def significant (t : TokenCursor) : List Nat :=
  (t.buffer.zipIdx.filter fun x => !x.1.is .comment).map Prod.snd

/-- The token at an index among those other than comments. -/
def tokenAt? (t : TokenCursor) (i : Nat) : Option Token := do
  let number ← t.significant[i]?
  t.buffer[number]?

/-- The current token. -/
def peek? (t : TokenCursor) : Option Token := t.tokenAt? t.pos

/-- The token behind the current one.  Behind the last one there is none, and that one is looked at
again. -/
def peekNext? (t : TokenCursor) : Option Token :=
  t.tokenAt? (min (t.pos + 1) (t.significant.length - 1))

/-- The number of the current token in the buffer. -/
def currentIndex? (t : TokenCursor) : Option Nat := t.significant[t.pos]?

/-- The number of the last token taken. -/
def lastConsumed? (t : TokenCursor) : Option Nat := t.significant[t.pos - 1]?

/-- The current token is an end. -/
def isAtEnd (t : TokenCursor) : Bool := t.peek?.any (·.is .eof)

/-- Takes the current token, unless it is an end. -/
def advance (t : TokenCursor) : TokenCursor :=
  if t.isAtEnd then t else { t with pos := t.pos + 1 }

variable (t : TokenCursor)

theorem buffer_advance : t.advance.buffer = t.buffer := by
  rw [advance]
  split <;> rfl

theorem significant_eq : t.significant = (Sentence.visible t.buffer).map Place.index := by
  rw [Sentence.visible, List.filter_map, List.map_map]
  rfl

/-- A number that is looked up is that of a visible token. -/
theorem getElem?_significant (i : Nat) :
    t.significant[i]? = (Sentence.visible t.buffer)[i]?.map Place.index := by
  rw [significant_eq, List.getElem?_map]

/-- The number that is looked up belongs to the buffer. -/
theorem tokenAt?_eq (i : Nat) : t.tokenAt? i = (Sentence.visible t.buffer)[i]?.map Place.token := by
  rw [tokenAt?, getElem?_significant]
  cases h : (Sentence.visible t.buffer)[i]? with
  | none => rfl
  | some p => exact (Sentence.mem_visible.mp (List.mem_of_getElem? h)).1

variable {t}

/-- There is a token at every index within bounds. -/
theorem isSome_tokenAt? {i : Nat} : (t.tokenAt? i).isSome ↔ i < t.significant.length := by
  rw [tokenAt?_eq, Option.isSome_map, significant_eq, List.length_map, Option.isSome_iff_exists]
  exact ⟨fun ⟨_, h⟩ ↦ (List.getElem?_eq_some_iff.mp h).1, fun h ↦ ⟨_, List.getElem?_eq_getElem h⟩⟩

/-! ## Two cursors in one place -/

/-- The token cursor stands in a buffer with an end, where the cursor of a rule stands in the
sentence of that buffer. -/
structure Shows (t : TokenCursor) (c : Cursor) : Prop where
  ended : ∃ tokens, t.buffer = endedBuffer tokens
  onward : (Sentence.ofBuffer t.buffer).cursor.Onward c
  pos_eq : t.pos = c.index

/-- In front of the sentence. -/
theorem Shows.start (tokens : List Token) :
    Shows ⟨endedBuffer tokens, 0⟩ (Sentence.ofBuffer (endedBuffer tokens)).cursor :=
  ⟨⟨tokens, rfl⟩, .refl _, rfl⟩

namespace Shows

variable {c : Cursor} (h : t.Shows c)

include h

theorem getElem?_visible {i : Nat} (hi : i ≤ c.index) :
    (Sentence.visible t.buffer)[i]? = some ((Sentence.ofBuffer t.buffer).place i) := by
  have hle : c.index ≤ Sentence.count t.buffer := by
    simpa [Sentence.cursor] using h.onward.index_le_stop
  obtain ⟨tokens, htokens⟩ := h.ended
  rw [htokens] at hle ⊢
  exact Sentence.getElem?_visible (Nat.le_trans hi hle)

/-- Both see the same token. -/
theorem peek? : t.peek? = some ((Sentence.ofBuffer t.buffer).place c.index).token ∧
    c.current.symbol = ((Sentence.ofBuffer t.buffer).place c.index).token.toSymbol := by
  constructor
  · rw [TokenCursor.peek?, tokenAt?_eq, h.pos_eq, h.getElem?_visible (Nat.le_refl _),
      Option.map_some]
  · rw [← c.symbolAt_index, h.onward.symbolAt_eq (Nat.le_refl _), Sentence.symbolAt_cursor]

theorem current_eq {token : Token} (htoken : t.peek? = some token) :
    c.current = ⟨t.pos, token.toSymbol⟩ := by
  obtain ⟨hpeek, hsymbol⟩ := h.peek?
  obtain rfl := Option.some.inj (hpeek.symm.trans htoken)
  rw [h.pos_eq, ← hsymbol]
  rfl

/-- The end of the buffer that the one sees is the end of what is left to the other. -/
theorem isAtEnd_iff : t.isAtEnd ↔ c.rest = [] := by
  obtain ⟨hpeek, hsymbol⟩ := h.peek?
  have hend : t.isAtEnd ↔ c.current.symbol.kind = .eof := by
    rw [isAtEnd, hpeek, Option.any_some, Symbol.is_iff, hsymbol]
  rw [hend, Cursor.current]
  cases hrest : c.rest with
  | nil =>
    have hstop : c.stop.kind = .eof := by
      rw [h.onward.stop]
      exact Sentence.kind_stop
    simp [hstop]
  | cons s rest =>
    have hmem : s ∈ (Sentence.ofBuffer t.buffer).cursor.rest :=
      h.onward.rest.subset (hrest ▸ List.mem_cons_self)
    simp [Sentence.rest_cursor_ne_eof s hmem]

theorem advance_pos : t.advance.pos = c.advance.index := by
  obtain ⟨i, rest, stop⟩ := c
  have hiff := h.isAtEnd_iff
  have hpos := h.pos_eq
  cases rest with
  | nil =>
    rw [TokenCursor.advance, if_pos (hiff.mpr rfl)]
    exact hpos
  | cons s rest =>
    rw [TokenCursor.advance, if_neg fun hend ↦ nomatch hiff.mp hend]
    exact congrArg (· + 1) hpos

/-- Both go on together. -/
theorem advance : t.advance.Shows c.advance where
  ended := t.buffer_advance ▸ h.ended
  onward := t.buffer_advance ▸ h.onward.trans (.advance c)
  pos_eq := h.advance_pos

/-! ## One token ahead -/

/-- **The token behind the current one** is the one that becomes current when that is taken, and
there is one: the bound on its index is not met. -/
theorem peekNext? (hend : ¬t.isAtEnd) :
    min (t.pos + 1) (t.significant.length - 1) = t.pos + 1 ∧
      t.peekNext? = t.advance.peek? := by
  have hadvance : t.advance = { t with pos := t.pos + 1 } := if_neg hend
  have hpeek : t.advance.peek? = t.tokenAt? (t.pos + 1) := by
    rw [hadvance]
    rfl
  have hlt : t.pos + 1 < t.significant.length := by
    rw [← isSome_tokenAt?, ← hpeek, h.advance.peek?.1, Option.isSome_some]
  have hmin : min (t.pos + 1) (t.significant.length - 1) = t.pos + 1 := by omega
  exact ⟨hmin, by rw [TokenCursor.peekNext?, hmin, hpeek]⟩

/-- At the end too the index is one of the buffer. -/
theorem isSome_peekNext? : t.peekNext?.isSome := by
  have hlt : t.pos < t.significant.length := by
    rw [← isSome_tokenAt?, ← TokenCursor.peek?, h.peek?.1, Option.isSome_some]
  exact isSome_tokenAt?.mpr (by omega)

/-- What is current behind the first symbol is the token that was looked ahead to. -/
theorem advance_current_eq (hend : ¬t.isAtEnd) {next : Token} (hnext : t.peekNext? = some next) :
    c.advance.current = ⟨t.pos + 1, next.toSymbol⟩ := by
  rw [(h.peekNext? hend).2] at hnext
  rw [h.advance.current_eq hnext, TokenCursor.advance, if_neg hend]

/-! ## Numbers in the buffer -/

/-- The number of the current token is that of the place where the rule stands. -/
theorem currentIndex? :
    t.currentIndex? = some ((Sentence.ofBuffer t.buffer).place c.index).index := by
  rw [TokenCursor.currentIndex?, getElem?_significant, h.pos_eq, h.getElem?_visible (Nat.le_refl _),
    Option.map_some]

/-- The number of the last token taken is that of the place in front. -/
theorem lastConsumed? :
    t.lastConsumed? = some ((Sentence.ofBuffer t.buffer).place (c.index - 1)).index := by
  rw [TokenCursor.lastConsumed?, getElem?_significant, h.pos_eq,
    h.getElem?_visible (Nat.sub_le _ _), Option.map_some]

omit h in
/-- The numbers noted where a node begins and where it ends are those of its place. -/
theorem locate {t' : TokenCursor} {c' : Cursor} (h : t.Shows c) (h' : t'.Shows c')
    (hbuffer : t'.buffer = t.buffer) :
    t.currentIndex? =
      some ((Sentence.ofBuffer t.buffer).locate ⟨c.index, c'.index⟩).firstToken ∧
    t'.lastConsumed? =
      some ((Sentence.ofBuffer t.buffer).locate ⟨c.index, c'.index⟩).lastToken := by
  rw [h.currentIndex?, h'.lastConsumed?, hbuffer]
  exact ⟨rfl, rfl⟩

/-! ## Rules that look ahead -/

variable {config : Config} {nested : Body → Cursor → Outcome (List (Member Extent))} {α : Type}
  (hend : ¬t.isAtEnd) {first next : Token} (hfirst : t.peek? = some first)
  (hnext : t.peekNext? = some next)

include hend hfirst hnext

/-- **Taking a symbol and looking at the next** is looking at both and taking the first. -/
theorem run_take_current (k : Entry → Entry → Rule α) :
    (do let a ← take; let b ← current; k a b).run config nested c =
      (k ⟨t.pos, first.toSymbol⟩ ⟨t.pos + 1, next.toSymbol⟩).run config nested c.advance := by
  simp only [run_bind, run_take, run_current, Outcome.ok_bind]
  rw [h.current_eq hfirst, h.advance_current_eq hend hnext]

/-- The rule for a member is chosen by the current token and the one behind it. -/
theorem run_member {rule : Rule (Member Extent)}
    (hrule : MemberRule ⟨t.pos, first.toSymbol⟩ next.toSymbol rule) :
    (take >>= memberFrom).run config nested c = rule.run config nested c.advance := by
  obtain ⟨choice, hchoice, hiff⟩ := memberFrom_eq_bind ⟨t.pos, first.toSymbol⟩
  have hrun : choice ⟨t.pos + 1, next.toSymbol⟩ = rule :=
    (hiff ⟨t.pos + 1, next.toSymbol⟩ rule).mp hrule
  rw [run_bind, run_take, Outcome.ok_bind]
  dsimp only
  rw [h.current_eq hfirst, hchoice, run_bind, run_current, Outcome.ok_bind]
  dsimp only
  rw [h.advance_current_eq hend hnext, hrun]

/-- In a call the word `stream` is set apart from the type of that name by the token behind it, and
then taken or left. -/
theorem run_endpoint {c' : Cursor} (hparen : c'.current.symbol.kind = .leftParen)
    (hc : c'.advance = c) :
    endpoint.run config nested c' = Rule.run config nested (do
      let stream := first.toSymbol.isWord "stream" && !next.toSymbol.is .rightParen
      if stream then
        let _ ← take
      let type ← typeRef
      let _ ← expect .rightParen
      return (stream, type)) c := by
  have hcurrent := h.current_eq hfirst
  have hahead := h.advance_current_eq hend hnext
  have hexpect : (expect .leftParen).run config nested c' = .ok (c'.current, c) := by
    rw [expect, run_bind, run_current, Outcome.ok_bind, if_pos (Symbol.is_iff.mpr hparen),
      run_take, hc]
  have htype (hstarts : startsType first.toSymbol) : typeRef.run config nested c =
      (typeRefFrom ⟨t.pos, first.toSymbol⟩).run config nested c.advance := by
    rw [typeRef, run_bind, run_current, Outcome.ok_bind]
    dsimp only
    rw [hcurrent, if_pos hstarts, run_bind, run_take, Outcome.ok_bind, hcurrent]
  rw [endpoint, run_bind, hexpect, Outcome.ok_bind, run_bind, run_current, Outcome.ok_bind]
  dsimp only
  rw [hcurrent]
  by_cases hword : first.toSymbol.isWord "stream"
  · have hstarts : startsType first.toSymbol := by
      rw [startsType, Symbol.isName_of_kind (Symbol.kind_of_isWord hword), Bool.true_or]
    rw [if_pos hword, run_bind, run_take, Outcome.ok_bind, run_bind, run_current, Outcome.ok_bind]
    dsimp only
    rw [hahead]
    by_cases hright : next.toSymbol.is .rightParen
    · simp [hword, hright, htype hstarts]
    · simp [hword, hright]
  · simp [hword]

end Shows

end TokenCursor

/-! ## The reading of a buffer -/

namespace Machine

variable (config : Config) (tokens : List Token)

/-- The token cursor in the state of the reading after `n` steps. -/
def tokenCursor (n : Nat) : TokenCursor :=
  ⟨endedBuffer tokens, (after config tokens n).cursor.index⟩

/-- **The two cursors stand in one place** after every step of the reading. -/
theorem after_shows (n : Nat) :
    (tokenCursor config tokens n).Shows (after config tokens n).cursor :=
  ⟨⟨tokens, rfl⟩, iterate_onward n (start tokens), rfl⟩

/-- A step leaves the token cursor where it is, or takes a token. -/
theorem tokenCursor_succ (n : Nat) :
    tokenCursor config tokens (n + 1) = tokenCursor config tokens n ∨
      tokenCursor config tokens (n + 1) = (tokenCursor config tokens n).advance := by
  have hsucc : after config tokens (n + 1) = step config (after config tokens n) :=
    Function.iterate_succ_apply' _ _ _
  rcases step_cursor config (after config tokens n) with hstep | hstep
  · left
    rw [tokenCursor, hsucc, hstep]
    rfl
  · right
    have hbuffer : (tokenCursor config tokens n).advance.buffer = endedBuffer tokens :=
      (tokenCursor config tokens n).buffer_advance
    rw [tokenCursor, hsucc, hstep, ← (after_shows config tokens n).advance_pos, ← hbuffer]

end Machine

end ProtoSchema
