import ProtoSchema.Proofs.Grammar.Progress
import ProtoSchema.Proofs.Grammar.Soundness.Schema
import Mathlib.Logic.Function.Iterate

/-!
# Reading step by step

`Rule.run` says what a rule comes to, and nothing of the way there.  The way is that of a machine.
Its state is the cursor, how many bodies of blocks are being read inside of each other, and what is
being done: a rule is being run, a loop stands in front of its next item, a result is given to what
waits for it, or the reading has failed.  What waits is a stack of frames.

The machine comes to what `Rule.run` comes to (`Machine.run_comes`): this is by induction on the
rule, on what is left to read for a loop, and on the depth for the bodies.

So whatever is shown of each step of the machine is shown of the reading: that it stays in the
buffer and within the depth that is allowed, and that a loop never stands where it stood before.

## What is here

* `Machine.Frames`, `Machine.Control`, `Machine.State`, `Machine.step` — the machine.  The frames
  have the type of the result that they wait for, so a result of another type cannot be given to
  them.
* `Machine.Reaches`, `Machine.Comes` — from one state to another, and from a state to an outcome.
* `Machine.loop_comes`, `Machine.run_comes`, `Machine.nested_comes`, `Machine.read_comes` — what the
  machine comes to.
* `Machine.step_cursor`, `Machine.step_onward` — a step takes one symbol or none.
* `Machine.Balanced`, `Machine.Balanced.step` — the depth that the machine counts is the number of
  bodies to be left, and no more than is allowed.
* `Machine.iterate_onward`, `Machine.Balanced.iterate` — the same of any number of steps.
* `Machine.loop_goes_on`, `Machine.nested_goes_on` — a loop that comes to another item, and a body
  that is read, have taken a symbol.

What this says of the reading of a buffer, from its start to its end, is in
`ProtoSchema.Proofs.Grammar.Bounds`.
-/

set_option autoImplicit false

namespace ProtoSchema

open Grammar

namespace Machine

variable {ω : Type}

/-- What waits for a result, the last one to wait first.  All of it comes to an `ω`. -/
inductive Frames (ω : Type) : Type → Type 1 where
  /-- Nothing waits. -/
  | done : Frames ω ω
  /-- A rule waits that depends on the result. -/
  | andThen {α β : Type} (next : α → Rule β) (frames : Frames ω β) : Frames ω α
  /-- A loop waits for its next item, and `items` are those that it has. -/
  | again {α : Type} (test : Symbol → Bool) (item : Entry → Rule α) (items : List α)
      (frames : Frames ω (List α)) : Frames ω α
  /-- The body of a block is left with the result. -/
  | leave (frames : Frames ω (List (Member Extent))) : Frames ω (List (Member Extent))

/-- How many bodies of blocks there are to leave. -/
def Frames.bodies : {α : Type} → Frames ω α → Nat
  | _, .done => 0
  | _, .andThen _ frames => frames.bodies
  | _, .again _ _ _ frames => frames.bodies
  | _, .leave frames => frames.bodies + 1

/-- What the machine is doing. -/
inductive Control (ω : Type) : Type 1 where
  | run {α : Type} (rule : Rule α) (frames : Frames ω α)
  /-- A loop has read some items and stands in front of the next one, or of what is behind it. -/
  | loop {α : Type} (test : Symbol → Bool) (item : Entry → Rule α) (items : List α)
      (frames : Frames ω (List α))
  | give {α : Type} (a : α) (frames : Frames ω α)
  | fail (f : Failure)

/-- Where the machine is: its cursor, the depth and what it is doing. -/
structure State (ω : Type) : Type 1 where
  cursor : Cursor
  /-- How many bodies of blocks are being read. -/
  depth : Nat
  control : Control ω

/-! ## Steps -/

/-- Begins to run a rule. -/
def enter (config : Config) (c : Cursor) (depth : Nat) :
    {α : Type} → Rule α → Frames ω α → State ω
  | _, .result a, frames => ⟨c, depth, .give a frames⟩
  | _, .andThen first next, frames => ⟨c, depth, .run first (.andThen next frames)⟩
  | _, .current, frames => ⟨c, depth, .give c.current frames⟩
  | _, .take, frames => ⟨c.advance, depth, .give c.current frames⟩
  | _, .reject expected, _ =>
    let found := c.current.symbol
    ⟨c, depth, .fail ⟨c.index, .unexpected expected found.kind found.lexeme⟩⟩
  | _, .violate index v, _ => ⟨c, depth, .fail ⟨index, .violation v⟩⟩
  | _, .demand allowed index v, frames =>
    if allowed config then ⟨c, depth, .give () frames⟩
    else ⟨c, depth, .fail ⟨index, .violation v⟩⟩
  | _, .many test item, frames => ⟨c, depth, .loop test item [] frames⟩
  | _, .nested b, frames =>
    if depth < config.maxDepth then ⟨c, depth + 1, .run (body b) (.leave frames)⟩
    else ⟨c, depth, .fail ⟨c.index, .violation (.nestingTooDeep config.maxDepth)⟩⟩

/-- Gives a result to what waits for it. -/
def resume (c : Cursor) (depth : Nat) : {α : Type} → α → Frames ω α → State ω
  | _, a, .done => ⟨c, depth, .give a .done⟩
  | _, a, .andThen next frames => ⟨c, depth, .run (next a) frames⟩
  | _, a, .again test item items frames => ⟨c, depth, .loop test item (items ++ [a]) frames⟩
  | _, a, .leave frames => ⟨c, depth - 1, .give a frames⟩

/-- One step.  With a result that nothing waits for, or with a failure, the machine stands still. -/
def step (config : Config) (s : State ω) : State ω :=
  match s.control with
  | .run rule frames => enter config s.cursor s.depth rule frames
  | .loop test item items frames =>
    if !s.cursor.rest.isEmpty && test s.cursor.current.symbol then
      ⟨s.cursor.advance, s.depth, .run (item s.cursor.current) (.again test item items frames)⟩
    else ⟨s.cursor, s.depth, .give items frames⟩
  | .give a frames => resume s.cursor s.depth a frames
  | .fail _ => s

/-- The machine comes from the one state to the other. -/
def Reaches (config : Config) (s t : State ω) : Prop := ∃ n, (step config)^[n] s = t

namespace Reaches

variable {config : Config} {s t t' : State ω}

theorem refl (config : Config) (s : State ω) : Reaches config s s := ⟨0, rfl⟩

theorem trans (h : Reaches config s t) (h' : Reaches config t t') : Reaches config s t' := by
  obtain ⟨n, rfl⟩ := h
  obtain ⟨m, rfl⟩ := h'
  exact ⟨m + n, Function.iterate_add_apply _ _ _ _⟩

theorem of_step (h : Reaches config (step config s) t) : Reaches config s t :=
  trans ⟨1, rfl⟩ h

end Reaches

/-! ## The machine comes to what rules come to -/

/-- From the state the machine comes to the outcome: it gives the result to the frames that wait for
it, as deep as it was, or it fails. -/
inductive Comes (config : Config) (s : State ω) (depth : Nat) {α : Type} (frames : Frames ω α) :
    Outcome α → Prop
  | ok {a : α} {c : Cursor} (h : Reaches config s ⟨c, depth, .give a frames⟩) :
    Comes config s depth frames (.ok (a, c))
  | error {f : Failure} {c : Cursor} {depth' : Nat} (h : Reaches config s ⟨c, depth', .fail f⟩) :
    Comes config s depth frames (.error f)

namespace Comes

variable {config : Config} {s t : State ω} {depth : Nat} {α β : Type} {x : Outcome α}

/-- What comes behind. -/
theorem of_reaches {frames : Frames ω α} (h : Reaches config s t)
    (ht : Comes config t depth frames x) : Comes config s depth frames x := by
  cases ht with
  | ok h' => exact .ok (h.trans h')
  | error h' => exact .error (h.trans h')

theorem of_step {frames : Frames ω α} (h : Comes config (step config s) depth frames x) :
    Comes config s depth frames x :=
  of_reaches ⟨1, rfl⟩ h

/-- If what waits for the result goes on from where the machine gives it, so does the machine. -/
theorem bind {frames : Frames ω α} {frames' : Frames ω β} {depth' : Nat}
    {next : α × Cursor → Outcome β} (h : Comes config s depth frames x)
    (hnext : ∀ a c, x = .ok (a, c) →
      Comes config ⟨c, depth, .give a frames⟩ depth' frames' (next (a, c))) :
    Comes config s depth' frames' (Except.bind x next) := by
  cases h with
  | ok h => exact of_reaches h (hnext _ _ rfl)
  | error h => exact .error h

end Comes

variable {config : Config} {nested : Body → Cursor → Outcome (List (Member Extent))} {depth : Nat}
  {α : Type} {c : Cursor}

section

variable {test : Symbol → Bool} (item : Entry → Rule α) (items : List α)
  (frames : Frames ω (List α))

/-- A loop with another item takes its first symbol and runs the rule for it. -/
theorem step_loop (h : !c.rest.isEmpty && test c.current.symbol) :
    step config ⟨c, depth, .loop test item items frames⟩ =
      ⟨c.advance, depth, .run (item c.current) (.again test item items frames)⟩ :=
  if_pos h

/-- A loop without one gives its items. -/
theorem step_loop_end (h : ¬(!c.rest.isEmpty && test c.current.symbol)) :
    step config ⟨c, depth, .loop test item items frames⟩ = ⟨c, depth, .give items frames⟩ :=
  if_neg h

end

section

variable (b : Body) (frames : Frames ω (List (Member Extent)))

/-- A body that may be nested is entered. -/
theorem step_nested (h : depth < config.maxDepth) :
    step config ⟨c, depth, .run (.nested b) frames⟩ =
      ⟨c, depth + 1, .run (body b) (.leave frames)⟩ :=
  if_pos h

/-- A body that may not be nested fails at its first symbol. -/
theorem step_nested_full (h : ¬depth < config.maxDepth) :
    step config ⟨c, depth, .run (.nested b) frames⟩ =
      ⟨c, depth, .fail ⟨c.index, .violation (.nestingTooDeep config.maxDepth)⟩⟩ :=
  if_neg h

end

/-- A loop comes to its outcome, behind the items that it has, if its items come to theirs. -/
theorem loop_comes (honward : ∀ b c, (nested b c).Onward c) (test : Symbol → Bool)
    (item : Entry → Rule α)
    (hitem : ∀ e c (frames : Frames ω α), Comes config ⟨c, depth, .run (item e) frames⟩ depth frames
      ((item e).run config nested c))
    (c : Cursor) (items : List α) (frames : Frames ω (List α)) :
    Comes config ⟨c, depth, .loop test item items frames⟩ depth frames
      (((Rule.many test item).run config nested c).map fun y ↦ (items ++ y.1, y.2)) := by
  induction hlen : c.rest.length using Nat.strongRecOn generalizing c items with
  | ind n ih =>
    subst hlen
    rw [Rule.run_many config honward]
    refine .of_step ?_
    by_cases htest : (!c.rest.isEmpty && test c.current.symbol) = true
    · have hbind : ∀ (x : Outcome α) (next : α × Cursor → Outcome (List α)),
          (x.bind next).map (fun y ↦ (items ++ y.1, y.2)) =
            x.bind fun y ↦ (next y).map fun y ↦ (items ++ y.1, y.2) := by
        intro x next
        cases x <;> rfl
      rw [step_loop item items frames htest, if_pos htest, hbind]
      refine (hitem _ _ _).bind fun a c' hread ↦ .of_step ?_
      have honward' := Rule.run_onward config honward (item c.current) c.advance
      rw [hread] at honward'
      have hrest := Cursor.rest_ne_nil htest
      have hlt : c'.rest.length < c.rest.length :=
        Nat.lt_of_le_of_lt honward'.cursor.rest.length_le (Cursor.length_advance_lt hrest)
      have hagain := ih _ hlt c' (items ++ [a]) rfl
      show Comes config ⟨c', depth, .loop test item (items ++ [a]) frames⟩ depth frames _
      cases hrun : (Rule.many test item).run config nested c' <;>
        simpa [hrun, Except.map] using hagain
    · rw [step_loop_end item items frames htest, if_neg htest]
      have hitems : Comes config ⟨c, depth, .give items frames⟩ depth frames (.ok (items, c)) :=
        .ok (.refl config _)
      simpa [Except.map] using hitems

/-- **The machine comes to what a rule comes to** if it does so for the bodies of blocks. -/
theorem run_comes (honward : ∀ b c, (nested b c).Onward c)
    (hnested : ∀ b c (frames : Frames ω (List (Member Extent))),
      Comes config ⟨c, depth, .run (.nested b) frames⟩ depth frames (nested b c))
    (rule : Rule α) (c : Cursor) (frames : Frames ω α) :
    Comes config ⟨c, depth, .run rule frames⟩ depth frames (rule.run config nested c) := by
  induction rule generalizing c with
  | andThen first next ihfirst ihnext =>
    refine .of_step ((ihfirst c _).bind fun a c' _ ↦ .of_step ?_)
    exact ihnext a c' frames
  | result | current | take => exact .of_step (.ok (.refl config _))
  | reject | violate => exact .of_step (.error (.refl config _))
  | demand allowed index v =>
    refine .of_step ?_
    rw [Rule.run]
    show Comes config (if allowed config then _ else _) depth frames _
    split
    · exact .ok (.refl config _)
    · exact .error (.refl config _)
  | many test item ih =>
    have hloop := loop_comes honward test item (fun e c frames ↦ ih e c frames) c [] frames
    refine .of_step ?_
    show Comes config ⟨c, depth, .loop test item [] frames⟩ depth frames _
    cases hrun : (Rule.many test item).run config nested c <;> simpa [hrun, Except.map] using hloop
  | nested b => exact hnested b c frames

/-- The machine comes to what the body of a block comes to, at every depth that is allowed. -/
theorem nested_comes {left : Nat} (hleft : depth + left = config.maxDepth) (b : Body) (c : Cursor)
    (frames : Frames ω (List (Member Extent))) :
    Comes config ⟨c, depth, .run (.nested b) frames⟩ depth frames (readBody config left b c) := by
  induction left generalizing depth b c frames with
  | zero =>
    refine .of_step ?_
    rw [step_nested_full b frames (by omega)]
    exact .error (.refl config _)
  | succ left ih =>
    have hbody : Comes config ⟨c, depth + 1, .run (body b) (.leave frames)⟩ (depth + 1)
        (.leave frames) ((body b).run config (readBody config left) c) :=
      run_comes (readBody_onward config left)
        (fun b c frames ↦ ih (by omega) b c frames) (body b) c _
    refine .of_step ?_
    rw [step_nested b frames (by omega), readBody]
    generalize (body b).run config (readBody config left) c = x at hbody
    cases hbody with
    | ok h => exact .ok (h.trans (.of_step (.refl config _)))
    | error h => exact .error h

/-- **The machine comes to what is read.** -/
theorem read_comes (config : Config) (rule : Rule α) (c : Cursor) (frames : Frames ω α) :
    Comes config ⟨c, 0, .run rule frames⟩ 0 frames (Grammar.read config rule c) :=
  run_comes (readBody_onward config config.maxDepth) (nested_comes (Nat.zero_add _)) rule c frames

/-! ## What a step keeps -/

/-- How many bodies of blocks are to be left, unless the reading has failed. -/
def Control.bodies? : Control ω → Option Nat
  | .run _ frames => some frames.bodies
  | .loop _ _ _ frames => some frames.bodies
  | .give _ frames => some frames.bodies
  | .fail _ => none

/-- The depth is that of the frames, and is allowed. -/
structure Balanced (config : Config) (s : State ω) : Prop where
  le : s.depth ≤ config.maxDepth
  bodies : ∀ n ∈ s.control.bodies?, n = s.depth

/-- A step leaves the cursor where it is, or takes the current symbol. -/
theorem step_cursor (config : Config) (s : State ω) :
    (step config s).cursor = s.cursor ∨ (step config s).cursor = s.cursor.advance := by
  obtain ⟨c, depth, control⟩ := s
  cases control with
  | run rule frames =>
    cases rule with
    | take => exact .inr rfl
    | demand =>
      left
      show State.cursor (if _ then _ else _) = c
      split <;> rfl
    | nested =>
      left
      show State.cursor (if _ then _ else _) = c
      split <;> rfl
    | result | andThen | current | reject | violate | many => exact .inl rfl
  | loop test item items frames =>
    show State.cursor (if _ then _ else _) = c ∨ State.cursor (if _ then _ else _) = c.advance
    split
    · exact .inr rfl
    · exact .inl rfl
  | give a frames => cases frames <;> exact .inl rfl
  | fail => exact .inl rfl

/-- **A step reads on.** -/
theorem step_onward (config : Config) (s : State ω) : s.cursor.Onward (step config s).cursor := by
  rcases step_cursor config s with h | h
  · exact h ▸ .refl s.cursor
  · exact h ▸ .advance s.cursor

theorem Balanced.of_bodies {c : Cursor} {control : Control ω} (hle : depth ≤ config.maxDepth)
    (h : control.bodies? = some depth) : Balanced config ⟨c, depth, control⟩ :=
  ⟨hle, fun _ hn ↦ Option.some.inj (hn.symm.trans h)⟩

theorem Balanced.fail {c : Cursor} {f : Failure} (hle : depth ≤ config.maxDepth) :
    Balanced config (⟨c, depth, .fail f⟩ : State ω) :=
  ⟨hle, nofun⟩

/-- **A step keeps the balance**: a body is counted when it is entered and when it is left. -/
theorem Balanced.step {s : State ω} (h : Balanced config s) : Balanced config (step config s) := by
  obtain ⟨c, depth, control⟩ := s
  obtain ⟨hle, hbodies⟩ := h
  cases control with
  | run rule frames =>
    have hframes : some frames.bodies = some depth := congrArg some (hbodies _ rfl)
    cases rule with
    | demand allowed =>
      show Balanced config (if allowed config then _ else _)
      split
      · exact .of_bodies hle hframes
      · exact .fail hle
    | nested b =>
      by_cases hfree : depth < config.maxDepth
      · rw [step_nested b frames hfree]
        exact .of_bodies hfree (congrArg (Option.map Nat.succ) hframes)
      · rw [step_nested_full b frames hfree]
        exact .fail hle
    | reject | violate => exact .fail hle
    | result | andThen | current | many | take => exact .of_bodies hle hframes
  | loop test item items frames =>
    have hframes : some frames.bodies = some depth := congrArg some (hbodies _ rfl)
    by_cases htest : (!c.rest.isEmpty && test c.current.symbol) = true
    · rw [step_loop item items frames htest]
      exact .of_bodies hle hframes
    · rw [step_loop_end item items frames htest]
      exact .of_bodies hle hframes
  | give a frames =>
    have hframes : frames.bodies = depth := hbodies _ rfl
    cases frames with
    | leave frames =>
      have hdepth : frames.bodies = depth - 1 := Nat.eq_sub_of_add_eq hframes
      exact .of_bodies (Nat.le_trans (Nat.sub_le depth 1) hle) (congrArg some hdepth)
    | done | andThen | again => exact .of_bodies hle (congrArg some hframes)
  | fail => exact ⟨hle, hbodies⟩

/-- There is a body to leave where one is left. -/
theorem Balanced.depth_pos {c : Cursor} {xs : List (Member Extent)}
    {frames : Frames ω (List (Member Extent))}
    (h : Balanced config ⟨c, depth, .give xs (.leave frames)⟩) : 0 < depth := by
  have hdepth : frames.bodies + 1 = depth := h.bodies _ rfl
  omega

section

variable (n : Nat) (s : State ω)

/-- Steps read on. -/
theorem iterate_onward : s.cursor.Onward ((step config)^[n] s).cursor := by
  induction n with
  | zero => exact .refl _
  | succ n ih =>
    rw [Function.iterate_succ_apply']
    exact ih.trans (step_onward config _)

/-- Steps keep the balance. -/
theorem Balanced.iterate {s : State ω} (h : Balanced config s) :
    Balanced config ((Machine.step config)^[n] s) := by
  induction n with
  | zero => exact h
  | succ n ih =>
    rw [Function.iterate_succ_apply']
    exact ih.step

end

/-! ## Loops and blocks go on -/

/-- The reading comes to fail. -/
def Fails (config : Config) (s : State ω) : Prop :=
  ∃ c depth f, Reaches config s ⟨c, depth, .fail f⟩

/-- The machine comes to what a rule comes to, at every depth that is allowed. -/
theorem rule_comes (hdepth : depth ≤ config.maxDepth) (rule : Rule α) (c : Cursor)
    (frames : Frames ω α) :
    Comes config ⟨c, depth, .run rule frames⟩ depth frames
      (rule.run config (readBody config (config.maxDepth - depth)) c) :=
  run_comes (readBody_onward config _) (nested_comes (Nat.add_sub_cancel' hdepth)) rule c frames

/-- **A loop goes on**: with an item, some symbol has been taken. -/
theorem loop_goes_on (hdepth : depth ≤ config.maxDepth) {test : Symbol → Bool}
    (item : Entry → Rule α) (items : List α) (frames : Frames ω (List α))
    (htest : !c.rest.isEmpty && test c.current.symbol) :
    Fails config ⟨c, depth, .loop test item items frames⟩ ∨ ∃ a c',
      Reaches config ⟨c, depth, .loop test item items frames⟩
        ⟨c', depth, .loop test item (items ++ [a]) frames⟩ ∧ c.index < c'.index := by
  have hcomes := rule_comes hdepth (item c.current) c.advance (Frames.again test item items frames)
  have honward := Rule.run_onward config (readBody_onward config (config.maxDepth - depth))
    (item c.current) c.advance
  have hstep : step config ⟨c, depth, .loop test item items frames⟩ = _ :=
    step_loop item items frames htest
  generalize (item c.current).run config _ c.advance = x at hcomes honward
  cases hcomes with
  | error h => exact .inl ⟨_, _, _, .of_step (hstep ▸ h)⟩
  | @ok a c' h =>
    have hrest := Cursor.rest_ne_nil htest
    refine .inr ⟨a, c', .of_step ?_,
      Nat.lt_of_lt_of_le (Cursor.index_lt_advance hrest) honward.cursor.index_le⟩
    rw [hstep]
    exact h.trans (.of_step (.refl config _))

/-- A body that has been read begins with a brace. -/
theorem index_lt_of_readBody {left : Nat} {b : Body} {xs : List (Member Extent)} {c c' : Cursor}
    (hstop : c.stop.kind = .eof) (h : readBody config left b c = .ok (xs, c')) :
    c.index < c'.index := by
  obtain ⟨s, rest, -, rfl, hbody⟩ := Reader.readBody_reads id config hstop left b h
  exact Nat.lt_add_of_pos_right (List.length_pos_iff.mpr hbody.ne_nil)

/-- **A body goes on**: a brace at least has been taken of it. -/
theorem nested_goes_on (hdepth : depth ≤ config.maxDepth) (hstop : c.stop.kind = .eof) (b : Body)
    (frames : Frames ω (List (Member Extent))) :
    Fails config ⟨c, depth, .run (.nested b) frames⟩ ∨ ∃ xs c',
      Reaches config ⟨c, depth, .run (.nested b) frames⟩ ⟨c', depth, .give xs frames⟩ ∧
        c.index < c'.index := by
  have hcomes := rule_comes hdepth (.nested b) c frames
  rw [Rule.run_nested] at hcomes
  cases hread : readBody config (config.maxDepth - depth) b c with
  | error f =>
    rw [hread] at hcomes
    cases hcomes with
    | error h => exact .inl ⟨_, _, _, h⟩
  | ok x =>
    rw [hread] at hcomes
    cases hcomes with
    | ok h => exact .inr ⟨_, _, h, index_lt_of_readBody hstop hread⟩

end Machine

end ProtoSchema
