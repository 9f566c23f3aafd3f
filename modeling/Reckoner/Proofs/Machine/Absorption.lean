import Mathlib
import Reckoner.Proofs.Machine.FailedEquals
import Reckoner.Proofs.Machine.Placement
import Reckoner.Proofs.Machine.TypedFormula

/-!
# Keys pressed again

A decimal point, a clearing and an `equals` do nothing more when they are pressed a second time, and of several
operators in a row only the last one counts (`press_absorbs`). This holds of every state, also of those that no keys
lead to. A point takes away the place for another one. Clearing leaves what ends where a term begins. `equals` leaves
the formula that it worked out. And an operator is put behind a text that the machine has before it knows the
operator (`operand?`); with the operator behind it, the machine still has the same text.
-/

namespace Reckoner

namespace Typing

theorem withoutLastChar_append (text : String) (c : Char) : withoutLastChar (text ++ c.toString) = text := by
  simp [withoutLastChar]

theorem endsWithOperator_append (text : String) {c : Char} (hc : isOperator c = true) :
    endsWithOperator (text ++ c.toString) = true := by
  simp [endsWithOperator, lastChar?, hc]

theorem acceptsOperator_append (text : String) (c : Char) :
    acceptsOperator (text ++ c.toString) = (!isOperator c && c != '(') := by
  simp [acceptsOperator, lastChar?]

theorem acceptsDecimal_append_point (text : String) : acceptsDecimal (text ++ ".") = false := by
  have hpoint : isTermBoundary '.' = false := by decide
  simp [acceptsDecimal, currentTerm, hpoint]

/-- A text that ends where a term begins is left as it is. -/
theorem beforeCurrentTerm_beforeCurrentTerm (text : String) :
    beforeCurrentTerm (beforeCurrentTerm text) = beforeCurrentTerm text := by
  have hline : (beforeCurrentTerm text).toList.takeWhile (· != '\n') = (beforeCurrentTerm text).toList := by
    rw [List.takeWhile_eq_self_iff]
    intro c hc
    simp only [beforeCurrentTerm, String.toList_ofList, List.mem_reverse] at hc
    have hfirst := List.mem_reverse.mp ((List.dropWhile_suffix _).subset hc)
    exact List.mem_takeWhile_imp (p := (· != '\n')) hfirst
  rw [beforeCurrentTerm, hline]
  simp only [beforeCurrentTerm, String.toList_ofList, List.reverse_reverse]
  rw [List.dropWhile_idempotent]

end Typing

namespace Machine

open Typing

variable (m : Machine)

/-! ### What an operator is put behind -/

/-- The text that an operator would be put behind; where there is none, an operator is refused. -/
def operand? : Option String :=
  if m.hasResult then some m.result
  else if acceptsOperator m.expression then some m.expression
  else if endsWithOperator m.expression then some (withoutLastChar m.expression)
  else none

theorem pressOperator_eq (text : String) :
    m.pressOperator text = (m.operand?.map fun before => ⟨before ++ text, m.result, false, none⟩).getD m := by
  unfold pressOperator operand?
  split_ifs <;> rfl

/-- Behind the text stands an operator now, and another one would take its place. -/
theorem operand?_pressOperator {a : Char} (ha : isOperator a = true) :
    (m.pressOperator a.toString).operand? = m.operand? := by
  rw [pressOperator_eq]
  cases hoperand : m.operand? with
  | none => exact hoperand
  | some before =>
    have hrefused : acceptsOperator (before ++ a.toString) = false := by
      rw [acceptsOperator_append, ha]
      rfl
    have hends : endsWithOperator (before ++ a.toString) = true := endsWithOperator_append before ha
    show operand? ⟨before ++ a.toString, m.result, false, none⟩ = some before
    rw [operand?, hrefused, hends, withoutLastChar_append]
    rfl

theorem pressOperator_pressOperator {a : Char} (ha : isOperator a = true) (text : String) :
    (m.pressOperator a.toString).pressOperator text = m.pressOperator text := by
  rw [pressOperator_eq, operand?_pressOperator m ha]
  cases hoperand : m.operand? with
  | none => simp [pressOperator_eq, hoperand]
  | some before => simp [pressOperator_eq, hoperand]

/-- Of several operators in a row only the last one counts. -/
theorem run_operators_pressOperator {ops : List Char} (hops : ∀ a ∈ ops, isOperator a = true) (text : String) :
    (m.run (ops.map fun a => .operator (some a.toString))).pressOperator text = m.pressOperator text := by
  induction ops generalizing m with
  | nil => rfl
  | cons a ops ih =>
    obtain ⟨ha, hops⟩ := List.forall_mem_cons.mp hops
    calc (m.run ((a :: ops).map fun a => .operator (some a.toString))).pressOperator text
        = ((m.pressOperator a.toString).run (ops.map fun a => .operator (some a.toString))).pressOperator text := rfl
      _ = (m.pressOperator a.toString).pressOperator text := ih (m.pressOperator a.toString) hops
      _ = m.pressOperator text := m.pressOperator_pressOperator ha text

/-! ### Twice is once -/

theorem pressDecimal_pressDecimal : m.pressDecimal.pressDecimal = m.pressDecimal := by
  by_cases haccepts : acceptsDecimal m.expression = true
  · have honce : m.pressDecimal = typing (m.expression ++ ".") := if_pos haccepts
    have hrefused : acceptsDecimal (typing (m.expression ++ ".")).expression = false :=
      acceptsDecimal_append_point m.expression
    rw [honce, pressDecimal, hrefused]
    rfl
  · have honce : m.pressDecimal = m := if_neg haccepts
    rw [honce, honce]

theorem pressClear_eq : m.pressClear = typing (beforeCurrentTerm m.expression) := by
  unfold pressClear
  split_ifs with hempty
  · rw [hempty]
    decide
  · rfl

theorem pressClear_pressClear : m.pressClear.pressClear = m.pressClear := by
  rw [pressClear_eq, pressClear_eq]
  show typing (beforeCurrentTerm (beforeCurrentTerm m.expression)) = _
  rw [beforeCurrentTerm_beforeCurrentTerm]

theorem pressEquals_pressEquals : m.pressEquals.pressEquals = m.pressEquals := by
  by_cases hempty : m.expression = ""
  · have honce : m.pressEquals = m := if_pos hempty
    rw [honce, honce]
  · cases heval : evaluate m.expression with
    | ok answer => simp [pressEquals, hempty, heval]
    | error e => simp [pressEquals, hempty, heval]

end Machine

namespace DisplayOperator

theorem isOperator_glyph (op : DisplayOperator) : Typing.isOperator op.glyph = true := by
  cases op <;> decide

/-- The key of an operator. -/
def key (op : DisplayOperator) : Keystroke :=
  .operator (some op.glyph.toString)

end DisplayOperator

/-- **Editing keys absorb one another**, in every state: a point, a clearing and an `equals` do no more when they are
pressed twice, an operator behind another one acts as if it were alone, and so only the last of several counts. -/
theorem Machine.press_absorbs (m : Machine) :
    (m.press .decimal).press .decimal = m.press .decimal ∧
      (m.press .clear).press .clear = m.press .clear ∧
      (m.press .equals).press .equals = m.press .equals ∧
      (∀ a b : DisplayOperator, (m.press a.key).press b.key = m.press b.key) ∧
      ∀ (ops : List DisplayOperator) (b : DisplayOperator),
        m.run (ops.map DisplayOperator.key ++ [b.key]) = m.press b.key := by
  refine ⟨m.pressDecimal_pressDecimal, m.pressClear_pressClear, m.pressEquals_pressEquals, ?_, ?_⟩
  · intro a b
    exact m.pressOperator_pressOperator a.isOperator_glyph b.glyph.toString
  · intro ops b
    have hops : ∀ a ∈ ops.map DisplayOperator.glyph, Typing.isOperator a = true := by
      intro a ha
      obtain ⟨op, -, rfl⟩ := List.mem_map.mp ha
      exact op.isOperator_glyph
    have hkeys : ops.map DisplayOperator.key =
        (ops.map DisplayOperator.glyph).map fun a => .operator (some a.toString) := by
      rw [List.map_map]
      rfl
    rw [run_concat, hkeys]
    exact m.run_operators_pressOperator hops b.glyph.toString

end Reckoner
