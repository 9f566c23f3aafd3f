import Mathlib.Tactic.FinCases
import Reckoner.Keystroke.Reading

/-!
# The keyboard

Which words name a key, and which keystrokes they stand for: a digit, a parenthesis or a caret, a display operator, a
function's name, or a key that carries no text. So what a key types is one character or a function's name, and never a
point.
-/

namespace Reckoner.Keystroke

/-- Whether a character is typed as it is: a digit, a parenthesis or a caret. -/
def isPlainKey (c : Char) : Bool :=
  c.isDigit || c == '(' || c == ')' || c == '^'

/-- The keystrokes of the keyboard. -/
inductive OnKeyboard : Keystroke → Prop
  | plain {c : Char} (h : isPlainKey c = true) : OnKeyboard (.number (some c.toString))
  | operator {c : Char} (h : Typing.isOperator c = true) : OnKeyboard (.operator (some c.toString))
  | function (f : Func) : OnKeyboard (.function (some f.name))
  | decimal : OnKeyboard .decimal
  | equals : OnKeyboard .equals
  | backspace : OnKeyboard .backspace
  | clear : OnKeyboard .clear
  | clearAll : OnKeyboard .clearAll

/-- The names of keys that have more than one character. -/
def longNames : List String :=
  ["Enter", "Backspace", "Delete", "Escape", "ac", "AC"] ++ Func.all.map Func.name

/-- Whether a character by itself is the name of a key. -/
def isKeyChar (c : Char) : Bool :=
  c.isDigit || ['=', '.', '(', ')', '+', '-', '*', '/', '^', 'c', 'C', '−', '×', '÷'].contains c

/-- What it is for a word to name a key: it is one of the longer names, or a character that is a key. -/
inductive Names (word : String) (k : Keystroke) : Prop
  | long (hword : word ∈ longNames) (hk : OnKeyboard k)
  | char (c : Char) (hword : word = c.toString) (hc : isKeyChar c = true) (hk : OnKeyboard k)

variable {word : String} {k : Keystroke}

theorem eq_toString_of_toList {c : Char} (h : word.toList = [c]) : word = c.toString := by
  rw [← String.toList_inj, h]
  simp

theorem isKeyChar_of_isOperator {c : Char} (h : Typing.isOperator c = true) : isKeyChar c = true := by
  simp only [Typing.isOperator, Typing.operators, List.contains_iff_mem] at h
  fin_cases h <;> decide

theorem names_of_ofKey? (h : ofKey? word = some k) : Names word k := by
  unfold ofKey? at h
  split at h
  case h_13 =>
    split at h
    · rename_i c hchars
      have hword := eq_toString_of_toList hchars
      by_cases hdigit : c.isDigit = true
      · rw [if_pos hdigit] at h
        cases h
        rw [hword]
        exact .char c rfl (by simp [isKeyChar, hdigit]) (.plain (by simp [isPlainKey, hdigit]))
      · rw [if_neg hdigit] at h
        cases h
    · cases h
  all_goals cases h
  case h_1 => exact .long (by decide) .equals
  case h_3 | h_4 => exact .long (by decide) .backspace
  case h_5 => exact .long (by decide) .clearAll
  case h_2 => exact .char '=' rfl (by decide) .equals
  case h_6 => exact .char '.' rfl (by decide) .decimal
  case h_7 => exact .char '(' rfl (by decide) (.plain (c := '(') rfl)
  case h_8 => exact .char ')' rfl (by decide) (.plain (c := ')') rfl)
  case h_9 => exact .char '+' rfl (by decide) (.operator (c := '+') rfl)
  case h_10 => exact .char '-' rfl (by decide) (.operator (c := '−') rfl)
  case h_11 => exact .char '*' rfl (by decide) (.operator (c := '×') rfl)
  case h_12 => exact .char '/' rfl (by decide) (.operator (c := '÷') rfl)

theorem names_of_ofCommand? (h : ofCommand? word = some k) : Names word k := by
  unfold ofCommand? at h
  split at h
  case h_6 =>
    split at h
    · rename_i c hchars
      have hword := eq_toString_of_toList hchars
      by_cases hop : Typing.isOperator c = true
      · rw [if_pos hop] at h
        cases h
        rw [hword]
        exact .char c rfl (isKeyChar_of_isOperator hop) (.operator hop)
      · rw [if_neg hop] at h
        cases h
    · obtain ⟨f, hf, rfl⟩ := Option.map_eq_some_iff.mp h
      have hname : f.name = word := by simpa using List.find?_some hf
      refine .long ?_ (.function f)
      rw [← hname]
      cases f <;> decide
  all_goals cases h
  case h_1 => exact .char '^' rfl (by decide) (.plain (c := '^') rfl)
  case h_2 => exact .char 'c' rfl (by decide) .clear
  case h_3 => exact .char 'C' rfl (by decide) .clear
  all_goals exact .long (by decide) .clearAll

theorem names_of_ofWord? (h : ofWord? word = some k) : Names word k := by
  rw [ofWord?, Option.or_eq_some_iff] at h
  rcases h with hkey | ⟨-, hcommand⟩
  · exact names_of_ofKey? hkey
  · exact names_of_ofCommand? hcommand

theorem onKeyboard_of_ofWord? (h : ofWord? word = some k) : OnKeyboard k := by
  cases names_of_ofWord? h with
  | long _ hk => exact hk
  | char _ _ _ hk => exact hk

end Reckoner.Keystroke
