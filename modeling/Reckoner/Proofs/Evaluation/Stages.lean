import Reckoner.Evaluation

/-!
# The stages of evaluation

Evaluation as the chain of its stages: when it succeeds, every stage did (`evaluate_eq_ok_iff`), and what it
ends in is never an empty text (`evaluate_ne_empty`).
-/

namespace Reckoner

theorem orInvalid_eq_ok_iff {α : Type} {o : Option α} {a : α} : orInvalid o = .ok a ↔ o = some a := by
  cases o <;> simp [orInvalid]

theorem orInvalid_eq_error_iff {α : Type} {o : Option α} {err : EvalError} :
    orInvalid o = .error err ↔ err = .invalidExpression ∧ o = none := by
  cases o <;> simp [orInvalid, eq_comm]

theorem bind_eq_ok_iff {ε α β : Type} {x : Except ε α} {f : α → Except ε β} {b : β} :
    x >>= f = .ok b ↔ ∃ a, x = .ok a ∧ f a = .ok b := by
  cases x with
  | error e => exact ⟨fun h => (nomatch h), fun ⟨_, h, _⟩ => (nomatch h)⟩
  | ok a => exact ⟨fun h => ⟨a, rfl, h⟩, fun ⟨_, h, h'⟩ => by cases h; exact h'⟩

theorem evaluateTokens_eq_ok_iff {tokens : List Token} {r : String} :
    evaluateTokens tokens = .ok r ↔
      Expr.dividesByZeroLiteral tokens = false ∧
        ∃ v, valueOfTokens tokens = .ok v ∧ answerText v = .ok r := by
  rw [evaluateTokens]
  split
  · rename_i hzero
    simp [hzero]
  · rename_i hzero
    rw [bind_eq_ok_iff]
    exact (and_iff_right (Bool.eq_false_iff.mpr hzero)).symm

/-- A formula has an answer if it has a plain form, the plain form has tokens, and the tokens have one. -/
theorem evaluate_eq_ok_iff {expression r : String} :
    evaluate expression = .ok r ↔
      ∃ plain tokens, PlainForm.ofText? expression.toList = some plain ∧
        Token.ofText? plain = some tokens ∧ evaluateTokens tokens = .ok r := by
  simp only [evaluate, bind_eq_ok_iff, orInvalid_eq_ok_iff]
  constructor
  · rintro ⟨plain, hplain, tokens, htokens, h⟩
    exact ⟨plain, tokens, hplain, htokens, h⟩
  · rintro ⟨plain, tokens, hplain, htokens, h⟩
    exact ⟨plain, hplain, tokens, htokens, h⟩

theorem exists_answer_of_evaluate {expression r : String} (h : evaluate expression = .ok r) :
    ∃ a : Answer, r = a.text := by
  obtain ⟨_, _, _, _, h⟩ := evaluate_eq_ok_iff.mp h
  obtain ⟨_, v, _, h⟩ := evaluateTokens_eq_ok_iff.mp h
  obtain ⟨a, _, rfl⟩ := Option.map_eq_some_iff.mp (orInvalid_eq_ok_iff.mp h)
  exact ⟨a, rfl⟩

/-! ### An answer is never empty -/

theorem Decimal.inPlace_ne_nil (d : Decimal) : d.inPlace ≠ [] := by
  rw [Decimal.inPlace]
  split
  · exact List.append_ne_nil_of_left_ne_nil Nat.toDigits_ne_nil _
  · exact List.append_ne_nil_of_right_ne_nil _ (List.cons_ne_nil _ _)

theorem Decimal.scientific_ne_nil (d : Decimal) : d.scientific ≠ [] :=
  List.append_ne_nil_of_right_ne_nil _ (List.cons_ne_nil _ _)

theorem Answer.text_ne_empty (a : Answer) : a.text ≠ "" := by
  have hchars : a.chars ≠ [] := by
    cases a with
    | infinite negative => exact List.append_ne_nil_of_right_ne_nil _ (by decide)
    | scientific negative size => exact List.append_ne_nil_of_right_ne_nil _ size.scientific_ne_nil
    | inPlace negative size => exact List.append_ne_nil_of_right_ne_nil _ size.inPlace_ne_nil
  intro h
  exact hchars (String.ofList_injective h)

theorem evaluate_ne_empty {expression r : String} (h : evaluate expression = .ok r) : r ≠ "" := by
  obtain ⟨a, rfl⟩ := exists_answer_of_evaluate h
  exact a.text_ne_empty

end Reckoner
