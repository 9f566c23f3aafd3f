import Mathlib
import Reckoner.Proofs.Evaluation.AnswerText
import Reckoner.Proofs.Machine.Completions

/-!
# What stands behind what in a formula

A rule for the characters of a formula says which character may stand behind which text. A formula obeys it if each
of its characters may stand behind those in front of it (`EachAfter`). No keystroke breaks a rule that lets display
operators stand exactly where the machine accepts them, lets a point stand where the machine accepts one, and that
answers obey, as long as the texts on the keystrokes obey it wherever they are typed (`press_eachAfter`): a
keystroke appends what may stand there, cuts the formula short, or starts from an answer.
-/

namespace Reckoner

namespace Typing

/-- Every character of a text may stand behind the characters in front of it. -/
def EachAfter (rule : List Char → Char → Prop) (text : List Char) : Prop :=
  ∀ before c, before ++ [c] <+: text → rule before c

variable {rule : List Char → Char → Prop} {text more : List Char} {c : Char}

theorem EachAfter.of_isPrefix (h : EachAfter rule text) (hstart : more <+: text) : EachAfter rule more :=
  fun before c hc => h before c (hc.trans hstart)

@[simp] theorem eachAfter_nil : EachAfter rule [] := by
  intro before c h
  simp at h

theorem eachAfter_concat : EachAfter rule (text ++ [c]) ↔ EachAfter rule text ∧ rule text c := by
  constructor
  · intro h
    exact ⟨h.of_isPrefix (List.prefix_append text [c]), h text c List.prefix_rfl⟩
  · rintro ⟨htext, hc⟩ before c' h
    rcases List.prefix_concat_iff.mp h with hwhole | hstart
    · obtain ⟨rfl, hlast⟩ := List.append_inj' hwhole rfl
      rwa [List.singleton_inj.mp hlast]
    · exact htext before c' hstart

@[simp] theorem eachAfter_singleton : EachAfter rule [c] ↔ rule [] c := by
  have hconcat : EachAfter rule ([] ++ [c]) ↔ EachAfter rule [] ∧ rule [] c := eachAfter_concat
  simpa using hconcat

theorem eachAfter_append :
    EachAfter rule (text ++ more) ↔
      EachAfter rule text ∧ EachAfter (fun before c => rule (text ++ before) c) more := by
  induction more using List.reverseRecOn with
  | nil => simp
  | append_singleton more c ih => rw [← List.append_assoc, eachAfter_concat, eachAfter_concat, ih, and_assoc]

theorem eachAfter_of_forall (h : ∀ c ∈ text, ∀ before, rule before c) : EachAfter rule text :=
  fun before c hstart => h c (hstart.subset (by simp)) before

theorem EachAfter.exists_of_mem (h : EachAfter rule text) (hc : c ∈ text) :
    ∃ before, before ++ [c] <+: text ∧ rule before c := by
  obtain ⟨before, after, rfl⟩ := List.append_of_mem hc
  have hstart : before ++ [c] <+: before ++ c :: after := ⟨after, by simp⟩
  exact ⟨before, hstart, h before c hstart⟩

/-! ### Display operators -/

theorem isOperator_iff : isOperator c = true ↔ c = '+' ∨ c = '−' ∨ c = '×' ∨ c = '÷' := by
  simp [isOperator, operators]

theorem isOperator_eq_false_of_isNumeralChar (h : Decimal.isNumeralChar c = true) : isOperator c = false := by
  rw [Bool.eq_false_iff, ne_eq, isOperator_iff]
  rintro (rfl | rfl | rfl | rfl) <;> cases h

/-- An operator may follow any answer. -/
theorem acceptsOperator_answer (a : Answer) : acceptsOperator a.text = true := by
  obtain ⟨c, hc, hkind⟩ := a.exists_getLast?_chars
  rw [acceptsOperator, lastChar?, Answer.text, String.toList_ofList, hc, Option.any_some]
  rcases hkind with hnumeral | rfl
  · have hopening : c ≠ '(' := by
      rintro rfl
      cases hnumeral
    simp [isOperator_eq_false_of_isNumeralChar hnumeral, hopening]
  · decide

/-! ### Shortened texts -/

theorem withoutLastChar_isPrefix (text : String) : (withoutLastChar text).toList <+: text.toList := by
  rw [withoutLastChar, String.toList_ofList]
  exact List.dropLast_prefix _

theorem beforeCurrentTerm_isPrefix (text : String) : (beforeCurrentTerm text).toList <+: text.toList := by
  simp only [beforeCurrentTerm, String.toList_ofList]
  have hline : (text.toList.takeWhile (· != '\n')).reverse.dropWhile (!opensTerm ·) <:+
      (text.toList.takeWhile (· != '\n')).reverse := List.dropWhile_suffix _
  have hstart := List.reverse_prefix.mpr hline
  rw [List.reverse_reverse] at hstart
  exact hstart.trans (List.takeWhile_prefix _)

/-- A text that ends with an operator is what is in front of the operator, and the operator. -/
theorem exists_of_endsWithOperator {text : String} (h : endsWithOperator text = true) :
    ∃ c, isOperator c = true ∧ text.toList = (withoutLastChar text).toList ++ [c] := by
  rw [endsWithOperator, lastChar?, Option.any_eq_true] at h
  obtain ⟨c, hc, hop⟩ := h
  refine ⟨c, hop, ?_⟩
  rw [withoutLastChar, String.toList_ofList]
  exact (List.dropLast_append_getLast? c hc).symm

end Typing

/-! ### Keystrokes -/

namespace Machine

open Typing

/-- A rule that the machine itself does not break. -/
structure Kept (rule : List Char → Char → Prop) : Prop where
  operator : ∀ before c, isOperator c = true → (rule before c ↔ acceptsOperator (String.ofList before) = true)
  point : ∀ before, acceptsDecimal (String.ofList before) = true → rule before '.'
  answer : ∀ a : Answer, EachAfter rule a.chars

/-- The texts on a keystroke obey a rule wherever they are typed. -/
def Obeys (rule : List Char → Char → Prop) : Keystroke → Prop
  | .number (some text) => ∀ before, EachAfter (fun more c => rule (before ++ more) c) text.toList
  | .operator (some text) => ∃ c, isOperator c = true ∧ text = c.toString
  | .function (some text) =>
    text ≠ "(" ∧ text ≠ ")" ∧ ∀ before, EachAfter (fun more c => rule (before ++ more) c) (text ++ "(").toList
  | _ => True

variable {rule : List Char → Char → Prop} {m : Machine}

theorem pressNumber_eachAfter {text : String} (hk : Obeys rule (.number (some text)))
    (h : EachAfter rule m.expression.toList) : EachAfter rule (m.pressNumber text).expression.toList := by
  rw [pressNumber]
  split
  · exact hk []
  · rw [typing, String.toList_append, eachAfter_append]
    exact ⟨h, hk m.expression.toList⟩

theorem pressOperator_eachAfter (hrule : Kept rule) (hm : m.Consistent) {text : String}
    (hk : Obeys rule (.operator (some text))) (h : EachAfter rule m.expression.toList) :
    EachAfter rule (m.pressOperator text).expression.toList := by
  obtain ⟨op, hop, rfl⟩ := hk
  have hglyph : op.toString.toList = [op] := by simp
  have hconcat : ∀ before : String, EachAfter rule before.toList → acceptsOperator before = true →
      EachAfter rule (before ++ op.toString).toList := by
    intro before hbefore haccepts
    rw [String.toList_append, hglyph, eachAfter_concat, hrule.operator _ _ hop, String.ofList_toList]
    exact ⟨hbefore, haccepts⟩
  rw [pressOperator]
  split
  · rename_i hanswered
    obtain ⟨answer, hanswer⟩ := exists_answer_of_evaluate (hm.answered hanswered).2.2
    refine hconcat _ ?_ ?_
    · rw [hanswer, Answer.text, String.toList_ofList]
      exact hrule.answer answer
    · rw [hanswer]
      exact acceptsOperator_answer answer
  · split
    · rename_i haccepts
      exact hconcat _ h haccepts
    · split
      · -- the operator takes another's place, and where that one stood an operator may stand
        rename_i hends
        obtain ⟨c, hc, htext⟩ := exists_of_endsWithOperator hends
        rw [htext, eachAfter_concat, hrule.operator _ _ hc, String.ofList_toList] at h
        exact hconcat _ h.1 h.2
      · exact h

theorem pressFunction_eachAfter (hm : m.Consistent) {text : String} (hk : Obeys rule (.function (some text)))
    (h : EachAfter rule m.expression.toList) : EachAfter rule (m.pressFunction text).expression.toList := by
  obtain ⟨hopening, hclosing, hk⟩ := hk
  rw [hm.pressFunction_eq, if_neg (not_or.mpr ⟨hopening, hclosing⟩), String.append_assoc,
    String.toList_append, eachAfter_append]
  exact ⟨h, hk m.expression.toList⟩

theorem pressDecimal_eachAfter (hrule : Kept rule) (h : EachAfter rule m.expression.toList) :
    EachAfter rule m.pressDecimal.expression.toList := by
  rw [pressDecimal]
  split
  · rename_i haccepts
    have hpoint : (typing (m.expression ++ ".")).expression.toList = m.expression.toList ++ ['.'] :=
      String.toList_append
    rw [hpoint, eachAfter_concat]
    refine ⟨h, hrule.point _ ?_⟩
    rw [String.ofList_toList]
    exact haccepts
  · exact h

theorem pressEquals_expression (m : Machine) : m.pressEquals.expression = m.expression := by
  rw [pressEquals]
  split
  · rfl
  · cases evaluate m.expression <;> rfl

theorem pressBackspace_eachAfter (h : EachAfter rule m.expression.toList) :
    EachAfter rule m.pressBackspace.expression.toList := by
  rw [pressBackspace]
  split
  · exact eachAfter_nil
  · exact h.of_isPrefix (withoutLastChar_isPrefix m.expression)

theorem pressClear_eachAfter (h : EachAfter rule m.expression.toList) :
    EachAfter rule m.pressClear.expression.toList := by
  rw [pressClear]
  split
  · exact eachAfter_nil
  · exact h.of_isPrefix (beforeCurrentTerm_isPrefix m.expression)

/-- **No keystroke breaks a rule** that the machine and the keystroke's own text keep. -/
theorem press_eachAfter (hrule : Kept rule) (hm : m.Consistent) {k : Keystroke} (hk : Obeys rule k)
    (h : EachAfter rule m.expression.toList) : EachAfter rule (m.press k).expression.toList := by
  cases k with
  | number text =>
    cases text with
    | none => exact h
    | some text => exact pressNumber_eachAfter hk h
  | operator text =>
    cases text with
    | none => exact h
    | some text => exact pressOperator_eachAfter hrule hm hk h
  | function text =>
    cases text with
    | none => exact h
    | some text => exact pressFunction_eachAfter hm hk h
  | decimal => exact pressDecimal_eachAfter hrule h
  | equals =>
    rw [press, pressEquals_expression]
    exact h
  | backspace => exact pressBackspace_eachAfter h
  | clear => exact pressClear_eachAfter h
  | clearAll => exact eachAfter_nil

theorem run_eachAfter (hrule : Kept rule) {keys : List Keystroke} (hkeys : ∀ k ∈ keys, Obeys rule k) :
    EachAfter rule (initial.run keys).expression.toList := by
  have hinvariant : (initial.run keys).Consistent ∧ EachAfter rule (initial.run keys).expression.toList := by
    refine run_induction_of_mem (P := fun m => m.Consistent ∧ EachAfter rule m.expression.toList) ?_
      ⟨initial_consistent, eachAfter_nil⟩
    rintro m k hk ⟨hm, h⟩
    exact ⟨press_consistent m k hm, press_eachAfter hrule hm (hkeys k hk) h⟩
  exact hinvariant.2

end Machine
end Reckoner
