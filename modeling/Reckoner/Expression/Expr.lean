import Reckoner.Expression.Func

/-!
# Expressions

Formulas as trees. Parentheses are nodes of their own, so that a tree says exactly how it was written and
how deeply each number in it is nested.
-/

namespace Reckoner

/-- A formula as a tree. -/
inductive Expr
  | number (value : Float)
  | positive (operand : Expr)
  | negative (operand : Expr)
  | add (left right : Expr)
  | subtract (left right : Expr)
  | multiply (left right : Expr)
  | divide (left right : Expr)
  | power (base exponent : Expr)
  | group (inner : Expr)
  | call (f : Func) (argument : Expr)

namespace Expr

/-- The value of a formula; every step is the operation on binary64 numbers. -/
def value : Expr → Float
  | .number x => x
  | .positive e => e.value
  | .negative e => -e.value
  | .add l r => l.value + r.value
  | .subtract l r => l.value - r.value
  | .multiply l r => l.value * r.value
  | .divide l r => l.value / r.value
  | .power b e => b.value.pow e.value
  | .group e => e.value
  | .call f e => f.apply e.value

/-- The largest number of parentheses, calls, signs and exponents around any one number. -/
def nesting : Expr → Nat
  | .number _ => 0
  | .positive e | .negative e | .group e | .call _ e => e.nesting + 1
  | .add l r | .subtract l r | .multiply l r | .divide l r => max l.nesting r.nesting
  | .power b e => max b.nesting (e.nesting + 1)

end Expr
end Reckoner
