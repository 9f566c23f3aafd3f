import Reckoner.Evaluation

/-!
# Walking over tokens

The value of a formula worked out in one walk over its tokens, without a tree and without taking the
tokens apart. A cursor stands in front of the next token and counts the levels of nesting that are in use.
There is a procedure for every rule of the grammar and one more, `operand`, which takes a level for a signed
operand and gives it back whatever comes of the operand. A failure leaves the walk where it happened.

A procedure spends one of the ticks that it is given and leaves the others to each procedure it calls, and as many as a
walk needs are known from its tokens (`enoughTicks`). A run has no result if it runs out of ticks, or if it gives back a
level while none is in use.
-/

namespace Reckoner

/-- A place on a walk: how many tokens lie behind it and how many levels of nesting are in use. -/
structure Cursor where
  position : Nat
  depth : Nat
  deriving DecidableEq, Repr

/-- A walk: where it stands and where it has stood before, the latest place first. -/
structure Walk where
  cursor : Cursor
  past : List Cursor

/-- What goes on with a walk and comes to a value or fails. -/
abbrev Walking (α : Type) := ExceptT EvalError (StateT Walk Option) α

namespace Walk

/-- A walk that has not left a place yet. -/
def start (c : Cursor) : Walk := ⟨c, []⟩

/-- The places of a walk, the latest first. -/
def places (w : Walk) : List Cursor := w.cursor :: w.past

/-- A walk that has gone on to a place. -/
def goTo (w : Walk) (c : Cursor) : Walk := ⟨c, w.places⟩

/-- The walk with one more token behind it. -/
def stepped (w : Walk) : Walk := w.goTo { w.cursor with position := w.cursor.position + 1 }

/-- The walk with one more level in use. -/
def raised (w : Walk) : Walk := w.goTo { w.cursor with depth := w.cursor.depth + 1 }

/-- The walk with one level fewer in use, if any is. -/
def lowered? (w : Walk) : Option Walk :=
  match w.cursor.depth with
  | 0 => none
  | depth + 1 => some (w.goTo { w.cursor with depth })

@[simp] theorem stepped_position (w : Walk) : w.stepped.cursor.position = w.cursor.position + 1 := rfl

@[simp] theorem stepped_depth (w : Walk) : w.stepped.cursor.depth = w.cursor.depth := rfl

@[simp] theorem raised_depth (w : Walk) : w.raised.cursor.depth = w.cursor.depth + 1 := rfl

/-- Gives up. -/
def fail {α : Type} : Walking α := throw .invalidExpression

/-- Goes past a token. -/
def step : Walking Unit := fun w => some (.ok (), w.stepped)

/-- Takes a level, if one is left. -/
def takeLevel : Walking Unit := fun w =>
  if w.cursor.depth < Expr.maxLevels then some (.ok (), w.raised) else some (.error .invalidExpression, w)

/-- A procedure: one for each rule of the grammar, and a signed operand on a level of its own. -/
inductive Procedure
  | sum
  | product
  | operand
  | signed
  | power
  | primary
  deriving DecidableEq, Repr

/-- A rule that goes on for as long as one of its operators follows. -/
inductive Chain
  | sum
  | product
  deriving DecidableEq, Repr

namespace Chain

/-- What an operator of the rule does to the number so far and the next operand. -/
def operation? : Chain → Token → Option (Float → Float → Float)
  | .sum, .plus => some (· + ·)
  | .sum, .minus => some (· - ·)
  | .product, .times => some (· * ·)
  | .product, .over => some (· / ·)
  | _, _ => none

/-- The procedure for an operand of the rule. -/
def operand : Chain → Procedure
  | .sum => .product
  | .product => .operand

end Chain

section

variable (tokens : List Token)

/-- The token that the cursor stands in front of. -/
def look : Walking (Option Token) := fun w => some (.ok tokens[w.cursor.position]?, w)

/-- Takes the next token, if there is one. -/
def next : Walking (Option Token) := do
  let token ← look tokens
  if token.isSome then step
  return token

/-- Takes the next token, which has to be of a kind. -/
def expect (isExpected : Token → Bool) : Walking Unit := do
  match ← next tokens with
  | some token => if isExpected token then return () else fail
  | none => fail

mutual

/-- Performs a procedure. -/
def perform : Nat → Procedure → Walking Float
  | 0, _ => fun _ => none
  | n + 1, .sum => do goOn n .sum (← perform n .product)
  | n + 1, .product => do goOn n .product (← perform n .operand)
  | n + 1, .operand => do
    takeLevel
    fun w => do
      -- an outcome of either kind is handed on
      let run ← perform n .signed w
      return (run.1, ← run.2.lowered?)
  | n + 1, .signed => do
    match ← look tokens with
    | some .minus =>
      step
      return -(← perform n .operand)
    | some .plus =>
      step
      perform n .operand
    | _ => perform n .power
  | n + 1, .power => do
    let base ← perform n .primary
    match ← look tokens with
    | some .power =>
      step
      return base.pow (← perform n .operand)
    | _ => return base
  | n + 1, .primary => do
    match ← next tokens with
    | some (.number x) => return x
    | some .opening =>
      let value ← perform n .sum
      expect tokens (· matches .closing)
      return value
    | some (.func f) =>
      expect tokens (· matches .opening)
      let argument ← perform n .sum
      expect tokens (· matches .closing)
      return f.apply argument
    | _ => fail

/-- Goes on with the number so far while an operator follows. -/
def goOn : Nat → Chain → Float → Walking Float
  | 0, _, _ => fun _ => none
  | n + 1, chain, left => do
    match (← look tokens).bind chain.operation? with
    | none => return left
    | some apply =>
      step
      let right ← perform n chain.operand
      goOn n chain (apply left right)

end

/-- As many ticks as any procedure needs where so many levels are in use: on every other level the six procedures need
one each, and both of the chains one for every token and one for the end. -/
def enoughTicks (depth : Nat) : Nat :=
  (Expr.maxLevels + 1 - depth) * (2 * tokens.length + 8)

/-- Hands on a value behind the last token. -/
def finish (value : Float) : Walking Float := do
  match ← look tokens with
  | none => return value
  | some _ => fail

/-- The value of a formula that is all of the tokens. -/
def valueOfAll : Walking Float := do
  finish tokens (← perform tokens (enoughTicks tokens 0) .sum)

end

end Walk
end Reckoner
