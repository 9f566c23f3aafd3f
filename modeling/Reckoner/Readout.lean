import Reckoner.Machine

/-!
# The readout

The two lines that show a machine, with the thousands of an answer marked off by commas on request.
-/

namespace Reckoner

namespace Grouping

/-- Digits with a comma before every three that end them. -/
def byThousands : List Char → List Char
  | [] => []
  | digit :: rest =>
    if rest ≠ [] ∧ rest.length % 3 = 0 then digit :: ',' :: byThousands rest
    else digit :: byThousands rest

/-- An unsigned number with its whole part grouped, if it is plain digits with at most one point. -/
def unsigned? (number : List Char) : Option (List Char) :=
  let whole := number.takeWhile (· != '.')
  let fraction := number.dropWhile (· != '.')
  if !whole.isEmpty && whole.all Char.isDigit && (fraction.drop 1).all Char.isDigit then
    some (byThousands whole ++ fraction)
  else none

/-- A number in place with its whole part grouped. -/
def chars? : List Char → Option (List Char)
  | '-' :: number => (unsigned? number).map ('-' :: ·)
  | number => unsigned? number

/-- A text with the whole part of its number grouped; a text that is no number in place stays as it is. -/
def grouped (text : String) : String :=
  match chars? text.toList with
  | some chars => String.ofList chars
  | none => text

end Grouping

/-- What the display shows. -/
structure Readout where
  /-- The formula, or zero before one is typed. -/
  expression : String
  /-- The message of a failure, or else the result. -/
  value : String
  /-- Whether `value` is a message. -/
  isError : Bool
  deriving DecidableEq, Repr

namespace Readout

/-- What the display shows of a machine; only an answer has its thousands grouped. -/
def ofMachine (m : Machine) (groupThousands : Bool) : Readout where
  expression := Machine.echo m.expression
  value :=
    match m.error with
    | some message => message
    | none => if groupThousands && m.hasResult then Grouping.grouped m.result else m.result
  isError := m.error.isSome

/-- The two lines of the display. -/
def lines (r : Readout) : List String :=
  ["  " ++ r.expression, (if r.isError then "! " else "= ") ++ r.value]

end Readout
end Reckoner
