import ProtoSchema.Parse.Error
import ProtoSchema.Schema.Basic

/-!
# Rules

The grammar reads a sequence of symbols from left to right.  A `Rule α` is a program for reading
some of them and making an `α` of what they say.  It can look at the current symbol, take it, and
fail at it; it cannot look further ahead, and it cannot go back.  What follows a symbol is therefore
looked at only after the symbol has been taken, and a rule that fails at a symbol has seen nothing
behind it.

Rules are trees and not functions, so that what holds of everything a rule can do is proved once, by
induction on the rule.  `Rule.run` is what they mean.

Repetition is `Rule.many`, which takes a symbol in front of each item and so always goes on.  The
bodies of blocks nest, and nothing else does: `Rule.nested` stands for the body of a block, whose
meaning is given to `Rule.run`.

## What is here

* `Entry`, `Extent`, `Cursor` — symbols by their number in the sequence, and how far it is read.
  `Cursor.advance` stops at the end: the symbol that stands there is never taken away.
* `Failure`, `Outcome` — how reading ends.
* `Config` — the two things that a caller chooses, with their defaults.
* `Rule` — the programs.  There are nine constructors, and `reject`, `violate` and `demand` are the
  only ones that fail.  Only `demand` asks the configuration, and it does so in one place.
* `Cursor.repeatWhile`, `Rule.run` — the meaning of a rule, by structural recursion.
* `Rule.takeIf`, `Rule.expect`, `Rule.separated`, `Rule.statements`, `Rule.block` — the shapes that
  the rules of the grammar are made from.

## One symbol of lookahead

Where a statement is told by its first *two* symbols, the rule takes the first and looks at the
second.  A reader that keeps an index into an array of tokens can instead look one token past its
index, and takes nothing yet.  That both are the same, end of input and comments included, is
`Proofs/Grammar/Lookahead.lean`.
-/

set_option autoImplicit false

namespace ProtoSchema

/-! ## Symbols in a sequence -/

/-- A symbol and its number in the sequence. -/
structure Entry where
  index : Nat
  symbol : Symbol
  deriving DecidableEq, Repr

/-- The symbols with the numbers from `start` up to `stop`, which is not included. -/
structure Extent where
  start : Nat
  stop : Nat
  deriving DecidableEq, Repr

/-- How far a sequence has been read: the number of symbols taken, the others, and the symbol that
stands behind all of them. -/
structure Cursor where
  index : Nat
  rest : List Symbol
  stop : Symbol
  deriving DecidableEq, Repr

namespace Cursor

/-- The current symbol, which at the end is the one that stands behind all others. -/
def current (c : Cursor) : Entry := ⟨c.index, c.rest.headD c.stop⟩

/-- The cursor behind the current symbol; there is nothing behind the end. -/
def advance (c : Cursor) : Cursor :=
  match c.rest with
  | [] => c
  | _ :: rest => ⟨c.index + 1, rest, c.stop⟩

end Cursor

/-- A fault and the number of the symbol that it is found at. -/
structure Failure where
  index : Nat
  fault : Fault
  deriving DecidableEq, Repr

/-- What reading comes to: a result and how far the sequence has been read, or a failure. -/
abbrev Outcome (α : Type) := Except Failure (α × Cursor)

namespace Outcome

variable {ε α β : Type}

@[simp]
theorem ok_bind (a : α) (next : α → Except ε β) : (Except.ok a).bind next = next a := rfl

@[simp]
theorem error_bind (e : ε) (next : α → Except ε β) :
    (Except.error e : Except ε α).bind next = .error e := rfl

/-- Something is read in two steps if and only if each of them is. -/
theorem bind_eq_ok_iff {x : Except ε α} {next : α → Except ε β} {b : β} :
    x.bind next = .ok b ↔ ∃ a, x = .ok a ∧ next a = .ok b := by
  cases x <;> simp

end Outcome

/-! ## Configuration -/

/-- What is allowed in a schema. -/
structure Config where
  /-- Whether the number of a field may be negative. -/
  allowNegative : Bool := true
  /-- How many blocks may be nested in each other. -/
  maxDepth : Nat := 64
  deriving DecidableEq, Repr

/-! ## Rules -/

/-- The two sorts of bodies that blocks have. -/
inductive Body where
  | message
  | extension
  deriving DecidableEq, Repr

/-- A program that reads symbols and makes an `α` of them, or fails. -/
inductive Rule : Type → Type 1 where
  /-- Reads nothing. -/
  | result {α : Type} (a : α) : Rule α
  /-- Reads on by a rule that depends on what was read. -/
  | andThen {α β : Type} (first : Rule α) (next : α → Rule β) : Rule β
  /-- Looks at the current symbol. -/
  | current : Rule Entry
  /-- Takes the current symbol. -/
  | take : Rule Entry
  /-- Fails at the current symbol, in whose place something else could stand. -/
  | reject {α : Type} (expected : Expected) : Rule α
  /-- Fails at a symbol seen before. -/
  | violate {α : Type} (index : Nat) (v : Violation) : Rule α
  /-- Fails at a symbol seen before unless the configuration allows to go on. -/
  | demand (allowed : Config → Bool) (index : Nat) (v : Violation) : Rule Unit
  /-- As long as the current symbol passes the test, takes it and reads an item behind it. -/
  | many {α : Type} (test : Symbol → Bool) (item : Entry → Rule α) : Rule (List α)
  /-- Reads the body of a block. -/
  | nested (body : Body) : Rule (List (Member Extent))

instance : Monad Rule where
  pure := .result
  bind := .andThen

/-- Repeats `item` as `Rule.many` does, at most `fuel` times. -/
def Cursor.repeatWhile {α : Type} (test : Symbol → Bool) (item : Entry → Cursor → Outcome α) :
    (fuel : Nat) → Cursor → Outcome (List α)
  | 0, c => .ok ([], c)
  | fuel + 1, c =>
    if !c.rest.isEmpty && test c.current.symbol then
      (item c.current c.advance).bind fun x =>
        (repeatWhile test item fuel x.2).map fun y => (x.1 :: y.1, y.2)
    else .ok ([], c)

/-- The meaning of a rule, when `nested` is that of the bodies of blocks.  Each item of a repetition
takes a symbol, so there are no more items than symbols left. -/
def Rule.run (config : Config) (nested : Body → Cursor → Outcome (List (Member Extent))) :
    {α : Type} → Rule α → Cursor → Outcome α
  | _, .result a, c => .ok (a, c)
  | _, .andThen first next, c =>
    (first.run config nested c).bind fun x => (next x.1).run config nested x.2
  | _, .current, c => .ok (c.current, c)
  | _, .take, c => .ok (c.current, c.advance)
  | _, .reject expected, c =>
    let found := c.current.symbol
    .error ⟨c.index, .unexpected expected found.kind found.lexeme⟩
  | _, .violate index v, _ => .error ⟨index, .violation v⟩
  | _, .demand allowed index v, c =>
    if allowed config then .ok ((), c) else .error ⟨index, .violation v⟩
  | _, .many test item, c =>
    c.repeatWhile test (fun e c' => (item e).run config nested c') c.rest.length
  | _, .nested body, c => nested body c

namespace Rule

section Run

variable {config : Config} {nested : Body → Cursor → Outcome (List (Member Extent))} {α β : Type}

@[simp]
theorem run_pure (a : α) (c : Cursor) :
    (pure a : Rule α).run config nested c = .ok (a, c) := rfl

@[simp]
theorem run_bind (first : Rule α) (next : α → Rule β) (c : Cursor) :
    (first >>= next).run config nested c =
      (first.run config nested c).bind fun x => (next x.1).run config nested x.2 := rfl

@[simp]
theorem run_current (c : Cursor) : current.run config nested c = .ok (c.current, c) := rfl

@[simp]
theorem run_take (c : Cursor) : take.run config nested c = .ok (c.current, c.advance) := rfl

@[simp]
theorem run_nested (b : Body) (c : Cursor) : (Rule.nested b).run config nested c = nested b c := rfl

end Run

/-! ## Small rules -/

/-- Takes the current symbol if it passes the test. -/
def takeIf (test : Symbol → Bool) : Rule (Option Entry) := do
  if test (← current).symbol then
    let entry ← take
    return some entry
  else return none

/-- Takes a symbol of the given kind. -/
def expect (kind : Kind) : Rule Entry := do
  if (← current).symbol.is kind then take else reject (.kind kind)

/-- Takes the given word. -/
def expectWord (word : String) : Rule Entry := do
  if (← current).symbol.isWord word then take else reject (.word word)

/-- The symbols from `first` to the last one taken. -/
def extentFrom (first : Entry) : Rule Extent := do
  return ⟨first.index, (← current).index⟩

/-- One item or more, with commas between them. -/
def separated {α : Type} (item : Rule α) : Rule (List α) := do
  let first ← item
  let others ← many (·.is .comma) fun _ => item
  return first :: others

/-- Statements one after another.  A statement begins with a symbol that passes the test and is read
behind it; a semicolon alone is an empty statement, which is not kept. -/
def statements {α : Type} (starts : Symbol → Bool) (statement : Entry → Rule α) :
    Rule (List α) := do
  let all ← many (fun s => s.is .semicolon || starts s) fun first => do
    if first.symbol.is .semicolon then return none
    else
      let a ← statement first
      return some a
  return all.filterMap id

/-- Statements between braces. -/
def block {α : Type} (starts : Symbol → Bool) (expected : Expected) (statement : Entry → Rule α) :
    Rule (List α) := do
  let _ ← expect .leftBrace
  let all ← statements starts statement
  if (← current).symbol.is .rightBrace then
    let _ ← take
    return all
  else reject expected

end Rule

end ProtoSchema
