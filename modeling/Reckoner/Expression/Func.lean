/-!
# Functions

The scientific functions a formula can call, their names and what they compute. Angles are in radians.
-/

namespace Reckoner

/-- A scientific function; `log` is the logarithm to base ten and `ln` the natural one. -/
inductive Func
  | sin
  | cos
  | tan
  | log
  | ln
  | sqrt
  deriving DecidableEq, Repr

namespace Func

/-- All functions in the order of the keypad. -/
def all : List Func :=
  [.sin, .cos, .tan, .log, .ln, .sqrt]

/-- The name a function has in a formula. -/
def name : Func → String
  | .sin => "sin"
  | .cos => "cos"
  | .tan => "tan"
  | .log => "log"
  | .ln => "ln"
  | .sqrt => "sqrt"

/-- The function with a given name. -/
def ofName? (name : String) : Option Func :=
  all.find? (·.name == name)

/-- The value of a function. -/
def apply : Func → Float → Float
  | .sin, x => x.sin
  | .cos, x => x.cos
  | .tan, x => x.tan
  | .log, x => x.log10
  | .ln, x => x.log
  | .sqrt, x => x.sqrt

/-- A function is found under its own name. -/
theorem ofName?_name (f : Func) : ofName? f.name = some f := by
  cases f <;> decide

end Func
end Reckoner
