/-!
# Binary64 numbers by rank

The non-negative binary64 numbers, counted upwards from zero: the number of *rank* `n` is the one whose
encoding is `n`. Zero has rank 0, the least positive number `2^-1074` has rank 1, and the rank after the
last number stands for infinity. A rank is all that the decimal text of a number depends on, and rounding
to the nearest number is a statement about ranks: `nearest` finds the rank of the number nearest to a
rational, of two equally near the one of even rank.
-/

namespace Reckoner

-- the power of the natural numbers themselves, also where an algebra library offers another one
attribute [local instance (2000)] instPowNat

/-- A quotient rounded to the nearest natural number, of two equally near to the even one. -/
def roundQuotient (dividend divisor : Nat) : Nat :=
  let below := dividend / divisor
  let doubled := 2 * (dividend % divisor)
  if doubled < divisor ∨ doubled = divisor ∧ below % 2 = 0 then below else below + 1

/-- A binary64 number taken apart into its sign and its rank. -/
inductive Binary64
  | notANumber
  | infinite (negative : Bool)
  | finite (negative : Bool) (rank : Nat)
  deriving DecidableEq, Repr

namespace Binary64

/-- The rank that stands for infinity. -/
def infinityRank : Nat := 2047 * 2 ^ (52 : Nat)

/-- The number of some rank, counted in units of `2^-1074`. -/
def units (rank : Nat) : Nat :=
  if rank < 2 ^ (52 : Nat) then rank else (2 ^ (52 : Nat) + rank % 2 ^ (52 : Nat)) * 2 ^ (rank / 2 ^ (52 : Nat) - 1)

/-- The number of some rank. -/
def value (rank : Nat) : Rat :=
  mkRat (units rank) (2 ^ (1074 : Nat))

/-- The rank of the number nearest to `dividend / divisor` units.

The quotient's leading 53 binary places are kept, and all of them below `2^53`, where the numbers are
one unit apart; a carry out of the kept places leads to the first rank of the next binade. -/
def nearestToUnits (dividend divisor : Nat) : Nat :=
  let shift := (dividend / divisor).log2 - 52
  min infinityRank (shift * 2 ^ (52 : Nat) + roundQuotient dividend (divisor * 2 ^ shift))

/-- The rank of the number nearest to a non-negative rational. -/
def nearest (x : Rat) : Nat :=
  nearestToUnits (x.num.toNat * 2 ^ (1074 : Nat)) x.den

/-- A rational rounded to a binary64 number. -/
def round (x : Rat) : Rat :=
  if x < 0 then -value (nearest (-x)) else value (nearest x)

/-- The number with a given sign and size. -/
def signed (negative : Bool) (size : Rat) : Rat :=
  if negative then -size else size

/-- Reads the sign and the rank off an encoding: the top bit and the bits below it. -/
def ofBits (bits : Nat) : Binary64 :=
  let negative := decide (2 ^ (63 : Nat) ≤ bits)
  let rank := bits % 2 ^ (63 : Nat)
  if rank < infinityRank then .finite negative rank
  else if rank = infinityRank then .infinite negative
  else .notANumber

/-- Takes a floating-point number apart. -/
def ofFloat (x : Float) : Binary64 :=
  ofBits x.toBits.toNat

/-- The non-negative floating-point number of some rank. -/
def toFloat (rank : Nat) : Float :=
  Float.ofBits (UInt64.ofNat rank)

end Binary64
end Reckoner
