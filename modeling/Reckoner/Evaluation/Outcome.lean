import Reckoner.Evaluation
import Reckoner.Json.Basic

/-!
# Outcomes

The outcome of evaluating a formula, kept with the formula, and how it is reported to whoever asked for
one evaluation: as a line of plain text or of JSON.
-/

namespace Reckoner

/-- A formula and what came of it. -/
structure Outcome where
  expression : String
  answer : Except EvalError String

/-- What a program leaves behind: its exit status and the lines of its two outputs. -/
structure Report where
  status : UInt32
  output : List String
  errors : List String
  deriving DecidableEq, Repr

namespace Outcome

/-- The outcome of evaluating a formula. -/
def ofExpression (expression : String) : Outcome :=
  ⟨expression, evaluate expression⟩

/-- Whether there is an answer. -/
def isSuccess (o : Outcome) : Bool :=
  o.answer.isOk

/-- The answer, or the message in its place. -/
def shown (o : Outcome) : String :=
  match o.answer with
  | .ok answer => answer
  | .error e => e.message

/-- The outcome as JSON: the formula with its answer as `result` or the message as `error`. -/
def json (o : Outcome) : String :=
  let field := if o.isSuccess then "result" else "error"
  String.ofList (Json.ofMembers
    [("expression", Json.ofString o.expression), (field, Json.ofString o.shown)]).text

/-- The report on an outcome; without JSON a message is an error output. -/
def report (o : Outcome) (asJson : Bool) : Report where
  status := if o.isSuccess then 0 else 1
  output := if asJson then [o.json] else if o.isSuccess then [o.shown] else []
  errors := if asJson || o.isSuccess then [] else [o.shown]

end Outcome
end Reckoner
