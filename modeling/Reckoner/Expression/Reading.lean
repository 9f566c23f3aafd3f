import Reckoner.Expression.Expr
import Reckoner.Expression.Token

/-!
# Reading expressions

The grammar of formulas, loosest binding first:

    sum      = product (("+" | "-") product)*
    product  = signed (("*" | "/") signed)*
    signed   = ("+" | "-") signed | power
    power    = primary ("^" signed)?
    primary  = number | "(" sum ")" | function "(" sum ")"

A power binds tighter than a sign to its left and groups to the right. A reader takes a phrase off the
front of the tokens and returns its tree with the tokens left over. Every nesting construct passes
through `signed`, which is read with a number of levels to spare and fails when none is left.
-/

namespace Reckoner.Expr

/-- Takes a phrase off the front of the tokens. -/
abbrev Reader := List Token → Option (Expr × List Token)

/-- The tree constructor of an operator that joins products. -/
def sumOperator? : Token → Option (Expr → Expr → Expr)
  | .plus => some .add
  | .minus => some .subtract
  | _ => none

/-- The tree constructor of an operator that joins signed operands. -/
def productOperator? : Token → Option (Expr → Expr → Expr)
  | .times => some .multiply
  | .over => some .divide
  | _ => none

/-- Goes on with a left operand while an operator follows, grouping to the left, for at most a given
number of operators. -/
def chain (operand : Reader) (operator? : Token → Option (Expr → Expr → Expr)) :
    Nat → Expr → Reader
  | 0, left, tokens => some (left, tokens)
  | _ + 1, left, [] => some (left, [])
  | n + 1, left, token :: rest =>
    match operator? token with
    | none => some (left, token :: rest)
    | some join =>
      match operand rest with
      | none => none
      | some (right, rest) => chain operand operator? n (join left right) rest

section

variable (bound : Nat) (signed : Reader)

/-- A product with at most `bound` operators, over a reader of signed operands. -/
def product : Reader := fun tokens =>
  match signed tokens with
  | none => none
  | some (left, rest) => chain signed productOperator? bound left rest

/-- A sum with at most `bound` operators, over a reader of signed operands. -/
def sum : Reader := fun tokens =>
  match product bound signed tokens with
  | none => none
  | some (left, rest) => chain (product bound signed) sumOperator? bound left rest

/-- The rest of a parenthesised sum after its opening parenthesis. -/
def closed : Reader := fun tokens =>
  match sum bound signed tokens with
  | some (inner, .closing :: rest) => some (inner, rest)
  | _ => none

/-- A number, a parenthesised sum or a call. -/
def primary : Reader
  | .number value :: rest => some (.number value, rest)
  | .opening :: rest => (closed bound signed rest).map fun (e, rest) => (.group e, rest)
  | .func f :: .opening :: rest => (closed bound signed rest).map fun (e, rest) => (.call f e, rest)
  | _ => none

/-- A primary and its exponent, if one follows. -/
def powered : Reader := fun tokens =>
  match primary bound signed tokens with
  | some (base, .power :: rest) => (signed rest).map fun (e, rest) => (.power base e, rest)
  | other => other

end

/-- A signed operand, with a number of levels to spare. -/
def signed (bound : Nat) : Nat → Reader
  | 0, _ => none
  | levels + 1, .minus :: rest => (signed bound levels rest).map fun (e, rest) => (.negative e, rest)
  | levels + 1, .plus :: rest => (signed bound levels rest).map fun (e, rest) => (.positive e, rest)
  | levels + 1, tokens => powered bound (signed bound levels) tokens

/-- How many levels of nesting a formula can have, counting its outermost operands as one. -/
def maxLevels : Nat := 256

/-- The formula that the tokens, all of them, are. It has fewer operators than tokens. -/
def ofTokens? (tokens : List Token) : Option Expr :=
  match sum tokens.length (signed tokens.length maxLevels) tokens with
  | some (e, []) => some e
  | _ => none

/-- Whether a division sign stands directly before a number that is zero. -/
def dividesByZeroLiteral (tokens : List Token) : Bool :=
  (tokens.zip tokens.tail).any fun
    | (.over, .number x) => x == 0
    | _ => false

end Reckoner.Expr
