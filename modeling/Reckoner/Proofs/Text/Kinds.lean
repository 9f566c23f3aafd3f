import Mathlib
import Reckoner.Expression.Lexeme
import Reckoner.Text.Blank

/-!
# Kinds of characters

Digits, letters and blanks by their code points, and that no character is of two kinds.
-/

namespace Reckoner

namespace Text

theorem isBlank_iff {c : Char} : isBlank c = true ↔
    9 ≤ c.toNat ∧ c.toNat ≤ 13 ∨ c.toNat = 32 ∨ c.toNat = 133 ∨ c.toNat = 160 ∨ c.toNat = 5760 ∨
      8192 ≤ c.toNat ∧ c.toNat ≤ 8202 ∨ 8232 ≤ c.toNat ∧ c.toNat ≤ 8233 ∨ c.toNat = 8239 ∨
      c.toNat = 8287 ∨ c.toNat = 12288 := by
  simp only [isBlank, blankRanges, List.any_cons, List.any_nil, Bool.or_false, Bool.or_eq_true,
    Bool.and_eq_true, decide_eq_true_eq]
  omega

theorem isBlank_eq_false_of_isDigit {c : Char} (h : c.isDigit = true) : isBlank c = false := by
  have hdigit : 48 ≤ c.toNat ∧ c.toNat ≤ 57 := Char.isDigit_iff_toNat.mp h
  rw [Bool.eq_false_iff, ne_eq, isBlank_iff]
  omega

end Text

namespace Lexeme

theorem isNameChar_iff {c : Char} :
    isNameChar c = true ↔ 65 ≤ c.toNat ∧ c.toNat ≤ 90 ∨ 97 ≤ c.toNat ∧ c.toNat ≤ 122 := by
  simp only [isNameChar, Char.isAlpha, Char.isUpper, Char.isLower, Bool.or_eq_true, Bool.and_eq_true,
    decide_eq_true_eq, ge_iff_le, UInt32.le_iff_toNat_le]
  exact Iff.rfl

theorem isNameChar_eq_false_of_isDigit {c : Char} (h : c.isDigit = true) : isNameChar c = false := by
  have hdigit : 48 ≤ c.toNat ∧ c.toNat ≤ 57 := Char.isDigit_iff_toNat.mp h
  rw [Bool.eq_false_iff, ne_eq, isNameChar_iff]
  omega

end Lexeme
end Reckoner
