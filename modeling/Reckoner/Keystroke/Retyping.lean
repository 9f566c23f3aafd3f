import Reckoner.Keystroke
import Reckoner.Typing

/-!
# Retyping

The keystrokes that type a kept formula again on a cleared machine. Characters that no key types by
themselves, such as the letters of a function name, are passed over.
-/

namespace Reckoner.Keystroke

/-- The keystroke that types a character of a kept formula. -/
def ofKeptChar? (c : Char) : Option Keystroke :=
  if c.isDigit || c == '.' || c == '(' || c == ')' then some (.number (some c.toString))
  else if Typing.isOperator c then some (.operator (some c.toString))
  else none

/-- The keystrokes that clear the machine and type a formula again. -/
def retyping (expression : String) : List Keystroke :=
  .clearAll :: expression.toList.filterMap ofKeptChar?

theorem equals_not_mem_retyping (expression : String) : equals ∉ retyping expression := by
  simp only [retyping, List.mem_cons, List.mem_filterMap, not_or, not_exists, not_and]
  refine ⟨nofun, fun c _ => ?_⟩
  unfold ofKeptChar?
  split
  · simp
  · split <;> simp

end Reckoner.Keystroke
