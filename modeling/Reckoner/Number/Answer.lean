import Reckoner.Number.Shortest

/-!
# Answers

How a computed number is shown as an answer. Numbers below `10^15` are rounded to seven decimal places,
half a place towards positive infinity; larger ones have no such places to round. From `10^21` on an
answer is written in scientific form. An answer is always written with the fewest digits that name its
number, zero never carries a sign, and what is not a number has no answer.
-/

namespace Reckoner

-- the power of the natural numbers themselves, also where an algebra library offers another one
attribute [local instance (2000)] instPowNat

/-- An answer by the form it is written in. -/
inductive Answer
  | infinite (negative : Bool)
  | scientific (negative : Bool) (size : Decimal)
  | inPlace (negative : Bool) (size : Decimal)
  deriving DecidableEq, Repr

namespace Answer

/-- The number of decimal places kept. -/
def places : Nat := 7

/-- From this size on numbers are not rounded to places. -/
def roundingLimit : Rat := ((10 ^ (15 : Nat) : Nat) : Rat)

/-- From this size on answers are written in scientific form. -/
def exponentLimit : Rat := ((10 ^ (21 : Nat) : Nat) : Rat)

/-- How many units of the last place kept a number has, each step of the scaling rounded to binary64. -/
def inPlaces (x : Rat) : Int :=
  (Binary64.round (Binary64.round (x * ((10 ^ places : Nat) : Rat)) + mkRat 1 2)).floor

/-- The answer for the number with a sign and a rank. -/
def ofRank (negative : Bool) (rank : Nat) : Answer :=
  let size := Binary64.value rank
  if exponentLimit ≤ size then .scientific negative (Decimal.shortest rank)
  else if roundingLimit ≤ size then .inPlace negative (Decimal.shortest rank)
  else
    let count := inPlaces (Binary64.signed negative size)
    .inPlace (decide (count < 0))
      (Decimal.shortest (Binary64.nearest (mkRat count.natAbs (10 ^ places))))

/-- The answer for a computed number; there is none if it is not a number. -/
def ofFloat? (x : Float) : Option Answer :=
  match Binary64.ofFloat x with
  | .notANumber => none
  | .infinite negative => some (.infinite negative)
  | .finite negative rank => some (ofRank negative rank)

/-- The sign written before a size. -/
def sign (negative : Bool) : List Char :=
  if negative then ['-'] else []

/-- The characters of an answer. -/
def chars : Answer → List Char
  | .infinite negative => sign negative ++ "Infinity".toList
  | .scientific negative size => sign negative ++ size.scientific
  | .inPlace negative size => sign negative ++ size.inPlace

/-- The text of an answer. -/
def text (a : Answer) : String :=
  String.ofList a.chars

end Answer
end Reckoner
