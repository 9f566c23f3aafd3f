import Reckoner.Number.Decimal

/-!
# Lexemes

The pieces a formula's text falls into before any of them is given a meaning: maximal runs of digits and
points, maximal runs of ASCII letters, and every other character by itself.
-/

namespace Reckoner.Lexeme

/-- Whether a character can stand in a name: an ASCII letter. -/
def isNameChar (c : Char) : Bool :=
  c.isAlpha

/-- Whether two neighbouring characters belong to one lexeme. -/
def joined (a b : Char) : Bool :=
  Decimal.isNumeralChar a && Decimal.isNumeralChar b || isNameChar a && isNameChar b

/-- The lexemes of a text in order; together they are the text. -/
def split (text : List Char) : List (List Char) :=
  text.splitBy joined

end Reckoner.Lexeme
