/-!
# Decimal numbers and their texts

A decimal number is a count of some power of ten. It is written either in place (`0.05`, `1200`), never
with an exponent, or in scientific form (`1.2e+21`), with an exponent that always carries its sign. A
numeral is read from a run of digits with at most one point among them.
-/

namespace Reckoner

-- the power of the natural numbers themselves, also where an algebra library offers another one
attribute [local instance (2000)] instPowNat

/-- The decimal number `digits · 10^exponent`. -/
structure Decimal where
  digits : Nat
  exponent : Int
  deriving DecidableEq, Repr

namespace Decimal

/-- A power of ten. -/
def powerOfTen : Int → Rat
  | .ofNat n => ((10 ^ n : Nat) : Rat)
  | .negSucc n => mkRat 1 (10 ^ (n + 1))

/-- The number itself. -/
def value (d : Decimal) : Rat :=
  (d.digits : Rat) * powerOfTen d.exponent

/-- Written in place, with as many zeros as the point needs. -/
def inPlace (d : Decimal) : List Char :=
  let written := Nat.toDigits 10 d.digits
  match d.exponent with
  | .ofNat zeros => written ++ List.replicate zeros '0'
  | .negSucc n =>
    let padded := written.leftpad (n + 2) '0'
    let whole := padded.length - (n + 1)
    padded.take whole ++ '.' :: padded.drop whole

/-- An exponent with its sign. -/
def exponentText (e : Int) : List Char :=
  (if e < 0 then '-' else '+') :: Nat.toDigits 10 e.natAbs

/-- Written with one digit before the point and the power of ten behind an `e`. -/
def scientific (d : Decimal) : List Char :=
  let written := Nat.toDigits 10 d.digits
  let mantissa := written.take 1 ++ if written.length = 1 then [] else '.' :: written.drop 1
  mantissa ++ 'e' :: exponentText (d.exponent + (written.length - 1 : Nat))

/-- Whether a character can stand in a numeral. -/
def isNumeralChar (c : Char) : Bool :=
  c.isDigit || c == '.'

/-- Reads a numeral: digits with at most one point anywhere among them. -/
def ofNumeral? (numeral : List Char) : Option Decimal :=
  let whole := numeral.takeWhile (· != '.')
  let fraction := (numeral.dropWhile (· != '.')).drop 1
  let written := whole ++ fraction
  if !written.isEmpty && written.all Char.isDigit then
    some ⟨Nat.ofDigitChars 10 written 0, -(fraction.length : Int)⟩
  else none

end Decimal
end Reckoner
