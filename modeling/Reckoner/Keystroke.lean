/-!
# Keystrokes

What a key asks the machine to do. Keys that put text into the formula carry that text; without it they
do nothing.
-/

namespace Reckoner

/-- A keystroke. -/
inductive Keystroke
  /-- A digit, a parenthesis or a caret. -/
  | number (text : Option String)
  /-- A display operator. -/
  | operator (text : Option String)
  /-- A function name. -/
  | function (text : Option String)
  /-- The decimal point. -/
  | decimal
  /-- Works out the formula. -/
  | equals
  /-- Takes back the last character. -/
  | backspace
  /-- Takes back the term being typed. -/
  | clear
  /-- Starts afresh. -/
  | clearAll
  deriving DecidableEq, Repr

namespace Keystroke

/-- The name of a keystroke's kind. -/
def kind : Keystroke → String
  | .number _ => "number"
  | .operator _ => "operator"
  | .function _ => "function"
  | .decimal => "decimal"
  | .equals => "equals"
  | .backspace => "backspace"
  | .clear => "clear"
  | .clearAll => "clearAll"

/-- The text a keystroke carries. -/
def text? : Keystroke → Option String
  | .number text => text
  | .operator text => text
  | .function text => text
  | _ => none

/-- The keystroke of a kind with a text; a kind that takes none ignores it. -/
def ofKind? (kind : String) (text : Option String) : Option Keystroke :=
  match kind with
  | "number" => some (.number text)
  | "operator" => some (.operator text)
  | "function" => some (.function text)
  | "decimal" => some .decimal
  | "equals" => some .equals
  | "backspace" => some .backspace
  | "clear" => some .clear
  | "clearAll" => some .clearAll
  | _ => none

/-- A keystroke written for a log: its kind, with its text in parentheses. -/
def describe (k : Keystroke) : String :=
  match k.text? with
  | some text => k.kind ++ "(" ++ text ++ ")"
  | none => k.kind

/-- A keystroke is known by its kind and its text. -/
theorem ofKind?_kind (k : Keystroke) : ofKind? k.kind k.text? = some k := by
  cases k <;> rfl

end Keystroke
end Reckoner
