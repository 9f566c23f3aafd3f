import Reckoner.Expression.Func
import Reckoner.Expression.Lexeme
import Reckoner.Number.Shortest
import Reckoner.Text.Blank

/-!
# Tokens

The tokens of a formula. A text is tokenised by giving each of its lexemes a meaning, blanks apart; one
lexeme without a meaning (a numeral with two points, an unknown name, a foreign character) leaves the
whole text without tokens.
-/

namespace Reckoner

/-- A token of a formula. -/
inductive Token
  | number (value : Float)
  | plus
  | minus
  | times
  | over
  | power
  | opening
  | closing
  | func (f : Func)

namespace Token

/-- The text of a token. A number is written in place with the fewest digits that name it. -/
def text : Token → List Char
  | .number value => (Binary64.ofFloat value).text
  | .plus => ['+']
  | .minus => ['-']
  | .times => ['*']
  | .over => ['/']
  | .power => ['^']
  | .opening => ['(']
  | .closing => [')']
  | .func f => f.name.toList

/-- The token that a lexeme stands for. -/
def ofLexeme? : List Char → Option Token
  | ['+'] => some .plus
  | ['-'] => some .minus
  | ['*'] => some .times
  | ['/'] => some .over
  | ['^'] => some .power
  | ['('] => some .opening
  | [')'] => some .closing
  | lexeme =>
    match Decimal.ofNumeral? lexeme with
    | some d => some (.number d.toFloat)
    | none => (Func.ofName? (String.ofList lexeme)).map .func

/-- The tokens of a text. -/
def ofText? (text : List Char) : Option (List Token) :=
  ((Lexeme.split text).filter (!·.all Text.isBlank)).mapM ofLexeme?

end Token
end Reckoner
