/-!
# Text being typed

Questions about a formula that is still being typed, and the parts of it that editing keys act on. The
operators here are the display's (`+ − × ÷`), not their ASCII forms.
-/

namespace Reckoner.Typing

/-- The display's operators. -/
def operators : List Char :=
  ['+', '−', '×', '÷']

/-- Whether a character is a display operator. -/
def isOperator (c : Char) : Bool :=
  operators.contains c

/-- The last character of a text. -/
def lastChar? (text : String) : Option Char :=
  text.toList.getLast?

/-- Whether a text ends with a display operator. -/
def endsWithOperator (text : String) : Bool :=
  (lastChar? text).any isOperator

/-- Whether an operator may follow a text: not at the start, after an operator or after an opening
parenthesis. -/
def acceptsOperator (text : String) : Bool :=
  (lastChar? text).any fun c => !isOperator c && c != '('

/-- Whether a term ends before a character. -/
def isTermBoundary (c : Char) : Bool :=
  isOperator c || c == '(' || c == ')' || c == '^'

/-- The term being typed: the longest end of the text without a boundary. -/
def currentTerm (text : String) : String :=
  String.ofList (text.toList.reverse.takeWhile (!isTermBoundary ·)).reverse

/-- Whether the term being typed has no decimal point yet. -/
def acceptsDecimal (text : String) : Bool :=
  !(currentTerm text).toList.contains '.'

/-- Whether a term starts after a character. -/
def opensTerm (c : Char) : Bool :=
  isOperator c || c == '('

/-- The text in front of the term being typed: the longest start of the first line that ends with an
operator or an opening parenthesis, and nothing if there is none. -/
def beforeCurrentTerm (text : String) : String :=
  let firstLine := text.toList.takeWhile (· != '\n')
  String.ofList (firstLine.reverse.dropWhile (!opensTerm ·)).reverse

/-- A text without its last character. -/
def withoutLastChar (text : String) : String :=
  String.ofList text.toList.dropLast

end Reckoner.Typing
