import Reckoner.Expression.PlainForm
import Reckoner.Expression.Reading
import Reckoner.Number.Answer

/-!
# Evaluation

From the text of a formula to the text of its answer. Evaluation fails in one of two ways, and a division
by a literal zero is found as soon as the text has tokens, so it wins over every fault in their order.
-/

namespace Reckoner

/-- Why a formula has no answer. -/
inductive EvalError
  | invalidExpression
  | divisionByZero
  deriving DecidableEq, Repr

namespace EvalError

/-- What is shown in place of an answer. -/
def message : EvalError → String
  | .invalidExpression => "Invalid Expression"
  | .divisionByZero => "Cannot divide by zero"

end EvalError

/-- A value that may be missing because the expression is invalid. -/
def orInvalid {α : Type} : Option α → Except EvalError α
  | some a => .ok a
  | none => .error .invalidExpression

/-- The text that a computed number is shown as. -/
def answerText (x : Float) : Except EvalError String :=
  orInvalid ((Answer.ofFloat? x).map Answer.text)

/-- The value of a list of tokens. -/
def valueOfTokens (tokens : List Token) : Except EvalError Float :=
  orInvalid ((Expr.ofTokens? tokens).map Expr.value)

/-- The text of the answer that tokens evaluate to. -/
def evaluateTokens (tokens : List Token) : Except EvalError String :=
  if Expr.dividesByZeroLiteral tokens then .error .divisionByZero
  else valueOfTokens tokens >>= answerText

/-- The text of the answer to a formula as it stands on the display. -/
def evaluate (expression : String) : Except EvalError String := do
  let plain ← orInvalid (PlainForm.ofText? expression.toList)
  let tokens ← orInvalid (Token.ofText? plain)
  evaluateTokens tokens

/-- The answer to a formula, or the message in its place. -/
def evaluateToText (expression : String) : String :=
  match evaluate expression with
  | .ok answer => answer
  | .error e => e.message

end Reckoner
