import Reckoner.Expression.Func
import Reckoner.Expression.Lexeme
import Reckoner.Text.Blank

/-!
# Plain form

A formula as it stands on the display (`2 × (3 − 1)`) in plain form (`2*(3-1)`): without blanks, with
ASCII operators and without needless zeros in front of its numerals. Only a text with as many opening as
closing parentheses, whose characters are those of a formula and whose names are functions called at
once, has a plain form; nothing else is quietly dropped from a text.
-/

namespace Reckoner.PlainForm

/-- The ASCII character for a display operator; other characters stand for themselves. -/
def plainChar : Char → Char
  | '×' => '*'
  | '÷' => '/'
  | '−' => '-'
  | c => c

/-- A text without blanks and with ASCII operators. -/
def plain (text : List Char) : List Char :=
  (text.filter (!Text.isBlank ·)).map plainChar

/-- Whether a text has as many opening as closing parentheses. -/
def isBalanced (text : List Char) : Bool :=
  text.count '(' == text.count ')'

/-- Whether a character may stand outside a name. -/
def isFormulaChar (c : Char) : Bool :=
  c.isDigit || "+-*/.^()".toList.contains c

/-- Whether lexemes are those of a formula, as far as characters and names go: a name has to be a
function's and an opening parenthesis has to follow it. -/
def isAdmissible : List (List Char) → Bool
  | [] => true
  | lexeme :: rest =>
    (lexeme.all isFormulaChar ||
      (Func.ofName? (String.ofList lexeme)).isSome && rest.head? == some ['(']) && isAdmissible rest

/-- A lexeme without the zeros in front of another digit. -/
def withoutLeadingZeros : List Char → List Char
  | '0' :: next :: rest =>
    if next.isDigit then withoutLeadingZeros (next :: rest) else '0' :: next :: rest
  | lexeme => lexeme

/-- A text in which every numeral has lost its needless leading zeros. -/
def dropLeadingZeros (text : List Char) : List Char :=
  (Lexeme.split text).flatMap withoutLeadingZeros

/-- The plain form of a text, if it has one. -/
def ofText? (text : List Char) : Option (List Char) :=
  let plain := plain text
  if isBalanced plain && isAdmissible (Lexeme.split plain) then some (dropLeadingZeros plain) else none

end Reckoner.PlainForm
