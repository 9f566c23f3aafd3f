import Reckoner.Evaluation
import Reckoner.Keystroke
import Reckoner.Typing

/-!
# The machine

The calculating machine and what its keys do. A keystroke turns one state into the next; a keystroke that
does not apply leaves the state as it is. An `equals` that finds an answer other than zero completes a
calculation, which whoever keeps a record may want to know.
-/

namespace Reckoner

/-- A state of the machine. -/
structure Machine where
  /-- The formula typed so far, as it stands on the display. -/
  expression : String
  /-- The formula again while it is typed, and the answer after `equals`. -/
  result : String
  /-- Whether `result` is the answer to `expression`. -/
  hasResult : Bool
  /-- The message of an `equals` that failed. -/
  error : Option String
  deriving DecidableEq, Repr

/-- A completed calculation. -/
structure Completion where
  expression : String
  result : String
  deriving DecidableEq, Repr

namespace Machine

/-- What stands on the display when nothing else does. -/
def zero : String := "0"

/-- The machine before the first key. -/
def initial : Machine :=
  ⟨"", zero, false, none⟩

/-- A formula as the value line shows it while it is typed. -/
def echo (expression : String) : String :=
  if expression = "" then zero else expression

/-- The machine with a formula on it that is still being typed. -/
def typing (expression : String) : Machine :=
  ⟨expression, echo expression, false, none⟩

/-- What the value line shows: the message of a failure, or else the result. -/
def shownValue (m : Machine) : String :=
  m.error.getD m.result

/-- Text at the end of the formula; after an answer it starts a new one. -/
def pressNumber (m : Machine) (text : String) : Machine :=
  if m.hasResult && !Typing.endsWithOperator m.expression then typing text
  else typing (m.expression ++ text)

/-- An operator after an answer goes on from the answer, and after another operator replaces it. -/
def pressOperator (m : Machine) (text : String) : Machine :=
  if m.hasResult then ⟨m.result ++ text, m.result, false, none⟩
  else if Typing.acceptsOperator m.expression then ⟨m.expression ++ text, m.result, false, none⟩
  else if Typing.endsWithOperator m.expression then
    ⟨Typing.withoutLastChar m.expression ++ text, m.result, false, none⟩
  else m

/-- A function name and its opening parenthesis. -/
def pressFunction (m : Machine) (text : String) : Machine :=
  let opener := if text = "(" ∨ text = ")" then "" else "("
  let base := if m.hasResult ∧ m.expression = "" ∧ m.result ≠ zero then m.result else m.expression
  ⟨base ++ text ++ opener, m.result, false, none⟩

/-- A decimal point, unless the term being typed has one. -/
def pressDecimal (m : Machine) : Machine :=
  if Typing.acceptsDecimal m.expression then typing (m.expression ++ ".") else m

/-- Works out the formula, if there is one; a failure leaves formula and result standing. -/
def pressEquals (m : Machine) : Machine :=
  if m.expression = "" then m
  else
    match evaluate m.expression with
    | .ok answer => ⟨m.expression, answer, true, none⟩
    | .error e => ⟨m.expression, m.result, false, some e.message⟩

/-- Takes back the last character; an answer goes as a whole. -/
def pressBackspace (m : Machine) : Machine :=
  if m.hasResult then initial else typing (Typing.withoutLastChar m.expression)

/-- Takes back the term being typed. -/
def pressClear (m : Machine) : Machine :=
  if m.expression = "" then initial else typing (Typing.beforeCurrentTerm m.expression)

/-- The machine after a keystroke. -/
def press (m : Machine) : Keystroke → Machine
  | .number (some text) => m.pressNumber text
  | .operator (some text) => m.pressOperator text
  | .function (some text) => m.pressFunction text
  | .number none | .operator none | .function none => m
  | .decimal => m.pressDecimal
  | .equals => m.pressEquals
  | .backspace => m.pressBackspace
  | .clear => m.pressClear
  | .clearAll => initial

/-- The calculation that a keystroke completes. -/
def completion? (m : Machine) : Keystroke → Option Completion
  | .equals =>
    if m.expression = "" then none
    else
      match evaluate m.expression with
      | .ok answer => if answer = zero then none else some ⟨m.expression, answer⟩
      | .error _ => none
  | _ => none

/-- The machine after some keystrokes. -/
def run (m : Machine) (keys : List Keystroke) : Machine :=
  keys.foldl press m

/-- The calculations that some keystrokes complete, in order. -/
def completions (m : Machine) : List Keystroke → List Completion
  | [] => []
  | k :: keys => (m.completion? k).toList ++ (m.press k).completions keys

end Machine
end Reckoner
