import Reckoner.Proofs.Expression.Concatenation
import Reckoner.Proofs.Machine.Placement

/-!
# After an answer

A formula that has an answer ends with an operand, because every derivation does (`endsOperand_tokens`) and a display
operator at the end of a text is its last token (`endsWithOperator_of_evaluate`). So a machine that shows an answer
never shows it below an unfinished formula, and two of its questions have one answer only: text behind an answer
always starts a new formula, and a function name always goes on with the old one (`press_after_answer`).
-/

namespace Reckoner

/-! ### What a formula ends with -/

/-- Whether an operand can end with a token. -/
def Token.endsOperand : Token → Bool
  | .number _ | .closing => true
  | _ => false

namespace Grammar

/-- Whether a phrase is the rest of a chain; only such a phrase can be empty. -/
def Phrase.isRest (p : Phrase) : Bool :=
  p == .sumRest || p == .productRest

/-- Whether there is an operand at the end of some tokens, given whether there is one before them. -/
def endsOperand (before : Bool) (tokens : List Token) : Bool :=
  tokens.foldl (fun _ t => t.endsOperand) before

namespace Derivation

theorem endsOperand_tokens {p : Phrase} (d : Derivation p) {before : Bool} (h : p.isRest = true → before = true) :
    endsOperand before d.tokens = true := by
  simp only [endsOperand]
  induction d generalizing before with
  | sum first rest ihFirst ihRest | product first rest ihFirst ihRest =>
    rw [tokens, List.foldl_append]
    exact ihRest fun _ => ihFirst nofun
  | sumEnd | productEnd => exact h rfl
  | sumStep op next rest ihNext ihRest | productStep op next rest ihNext ihRest =>
    rw [tokens, List.foldl_cons, List.foldl_append]
    exact ihRest fun _ => ihNext nofun
  | positive operand ih | negative operand ih => exact ih nofun
  | unsigned operand ih | bare operand ih => exact ih nofun
  | raised base exponent ihBase ihExponent =>
    rw [tokens, List.foldl_append, List.foldl_cons]
    exact ihExponent nofun
  | number x => rfl
  | group inner ih | call f inner ih => simp [Token.endsOperand]

theorem endsOperand_of_tokens_eq (d : Derivation .sum) {before : List Token} {t : Token}
    (h : d.tokens = before ++ [t]) : t.endsOperand = true := by
  have hends : endsOperand false d.tokens = true := d.endsOperand_tokens nofun
  rw [h] at hends
  simpa [endsOperand] using hends

end Derivation
end Grammar

theorem exists_derivation_of_evaluate {expression r : String} (h : evaluate expression = .ok r) :
    ∃ d : Grammar.Derivation .sum, Token.ofText? (PlainForm.plain expression.toList) = some d.tokens := by
  obtain ⟨form, tokens, hform, htokens, htokenized⟩ := evaluate_eq_ok_iff.mp h
  obtain ⟨-, v, hv, -⟩ := evaluateTokens_eq_ok_iff.mp htokenized
  obtain ⟨e, he, -⟩ := Option.map_eq_some_iff.mp (orInvalid_eq_ok_iff.mp hv)
  obtain ⟨d, rfl, -, -⟩ := Grammar.ofTokens?_eq_some_iff.mp he
  obtain ⟨-, -, rfl⟩ := PlainForm.ofText?_eq_some_iff.mp hform
  rw [PlainForm.ofText?_dropLeadingZeros] at htokens
  exact ⟨d, htokens⟩

namespace Typing

/-- A display operator is a token by itself, and no operand ends with it. -/
theorem ofText?_operator {c : Char} (h : isOperator c = true) :
    ∃ glyph t, PlainForm.plain [c] = [glyph] ∧ Lexeme.isSeparate glyph = true ∧
      Token.ofText? [glyph] = some [t] ∧ t.endsOperand = false := by
  rcases isOperator_iff.mp h with rfl | rfl | rfl | rfl <;> exact ⟨_, _, rfl, by decide, rfl, rfl⟩

/-- A formula that has an answer does not end with a display operator. -/
theorem endsWithOperator_of_evaluate {expression r : String} (h : evaluate expression = .ok r) :
    endsWithOperator expression = false := by
  rw [Bool.eq_false_iff]
  intro hends
  obtain ⟨c, hop, htext⟩ := exists_of_endsWithOperator hends
  obtain ⟨glyph, t, hplain, hseparate, htoken, ht⟩ := ofText?_operator hop
  obtain ⟨d, htokens⟩ := exists_derivation_of_evaluate h
  have hborder : ∀ a ∈ (PlainForm.plain (withoutLastChar expression).toList).getLast?, ∀ b ∈ [glyph].head?,
      Lexeme.joined a b = false := by
    rintro a - b hb
    obtain rfl : glyph = b := by simpa using hb
    exact Lexeme.joined_eq_false (Or.inr hseparate)
  rw [htext, PlainForm.plain_append, hplain, Token.ofText?_append_eq_bind hborder, htoken] at htokens
  obtain ⟨before, -, hlast⟩ := Option.bind_eq_some_iff.mp htokens
  rw [d.endsOperand_of_tokens_eq (Option.some.inj hlast).symm] at ht
  cases ht

end Typing

/-! ### The machine -/

namespace Machine

open Typing

theorem Consistent.endsWithOperator {m : Machine} (hm : m.Consistent) (h : m.hasResult = true) :
    endsWithOperator m.expression = false :=
  endsWithOperator_of_evaluate (hm.answered h).2.2

/-- **After an answer**, whatever keystrokes with whatever texts on them led to it, there is a formula and no operator
at its end. Any text starts a new formula, and any function name goes on with the old one, never with the answer. -/
theorem press_after_answer {keys : List Keystroke} (h : (initial.run keys).hasResult = true) :
    let m := initial.run keys
    (m.expression ≠ "" ∧ ∃ c, lastChar? m.expression = some c ∧ isOperator c = false) ∧
      (∀ text, m.press (.number (some text)) = typing text) ∧
      ∀ text, m.press (.function (some text)) =
        ⟨m.expression ++ text ++ (if text = "(" ∨ text = ")" then "" else "("), m.result, false, none⟩ := by
  intro m
  have hm : m.Consistent := run_induction press_consistent initial_consistent keys
  have hne : m.expression ≠ "" := (hm.answered h).2.1
  have hends : endsWithOperator m.expression = false := hm.endsWithOperator h
  refine ⟨⟨hne, ?_⟩, fun text => ?_, hm.pressFunction_eq⟩
  · cases hlast : lastChar? m.expression with
    | none =>
      rw [lastChar?, List.getLast?_eq_none_iff, String.toList_eq_nil_iff] at hlast
      exact absurd hlast hne
    | some c =>
      rw [endsWithOperator, hlast] at hends
      exact ⟨c, rfl, hends⟩
  · have hanswered : m.hasResult = true := h
    simp [press, pressNumber, hanswered, hends]

theorem press_after_forty_two :
    let m := initial.run [.number (some "6×7"), .equals]
    m.hasResult = true ∧ m.press (.number (some "5+")) = typing "5+" ∧
      (m.press (.function (some "sin"))).expression = "6×7sin(" := by
  intro m
  have hanswered : m.hasResult = true := by decide +kernel
  have hexpression : m.expression = "6×7" := by decide +kernel
  obtain ⟨-, hnumber, hfunction⟩ := press_after_answer hanswered
  refine ⟨hanswered, hnumber "5+", ?_⟩
  rw [hfunction "sin", hexpression]
  decide

end Machine
end Reckoner
