import Reckoner.Expression.Func
import Reckoner.Keystroke
import Reckoner.Text.Blank
import Reckoner.Typing

/-!
# Reading keystrokes

Keystrokes by the names of keyboard keys, by words typed at a terminal, and by whole lines. A word of a
line is first taken as the name of one key; failing that it is typed character by character, and only if
every character is a key: no word is partly typed.
-/

namespace Reckoner.Keystroke

/-- The keystroke of a keyboard key. ASCII operators stand for the display's. -/
def ofKey? (key : String) : Option Keystroke :=
  match key with
  | "Enter" | "=" => some .equals
  | "Backspace" | "Delete" => some .backspace
  | "Escape" => some .clearAll
  | "." => some .decimal
  | "(" | ")" => some (.number (some key))
  | "+" => some (.operator (some "+"))
  | "-" => some (.operator (some "−"))
  | "*" => some (.operator (some "×"))
  | "/" => some (.operator (some "÷"))
  | _ =>
    match key.toList with
    | [c] => if c.isDigit then some (.number (some key)) else none
    | _ => none

/-- The keystroke of a word that is no keyboard key: a caret, a clearing command, a display operator or a
function name. -/
def ofCommand? (word : String) : Option Keystroke :=
  match word with
  | "^" => some (.number (some "^"))
  | "c" | "C" => some .clear
  | "ac" | "AC" => some .clearAll
  | _ =>
    match word.toList with
    | [c] => if Typing.isOperator c then some (.operator (some word)) else none
    | _ => (Func.ofName? word).map fun f => .function (some f.name)

/-- The keystroke of a word. -/
def ofWord? (word : String) : Option Keystroke :=
  (ofKey? word).or (ofCommand? word)

/-- The keystrokes of a word typed character by character. -/
def ofChars? (word : String) : Option (List Keystroke) :=
  word.toList.mapM fun c => ofWord? c.toString

/-- The keystrokes that a word of a line stands for. -/
def typed? (word : String) : Option (List Keystroke) :=
  match ofWord? word with
  | some k => some [k]
  | none => ofChars? word

/-- The keystrokes of a line in order. -/
def ofLine (line : String) : List Keystroke :=
  (Text.words line).flatMap fun word => (typed? word).getD []

/-- The words of a line that stand for no keystrokes. -/
def unknownWords (line : String) : List String :=
  (Text.words line).filter fun word => (typed? word).isNone

end Reckoner.Keystroke
