import Reckoner.Proofs.Evaluation.AnswerText
import Reckoner.Proofs.Expression.Concatenation
import Reckoner.Proofs.Machine.TypedFormula
import Reckoner.Proofs.Number.Shortest

/-!
# Going on from an answer

An operator after an answer puts the answer's text in front of it. If the answer is written in digits, the text is
read again as the number it shows, and with a digit behind the operator the machine finds an answer once more
(`evaluate_chained`): no operation on two numbers fails if the second is neither zero nor infinite. An answer that
names infinity or has an exponent puts a letter into the next formula that no formula has, and the next `equals`
fails (`evaluate_foreign`).
-/

namespace Reckoner

open Binary64

namespace DisplayOperator

def token : DisplayOperator → Token
  | .plus => .plus
  | .minus => .minus
  | .times => .times
  | .over => .over

def apply : DisplayOperator → Float → Float → Float
  | .plus, x, y => x + y
  | .minus, x, y => x - y
  | .times, x, y => x * y
  | .over, x, y => x / y

theorem isNumber_apply {x y : Float} (hx : IsNumber x) (hy : IsNonzero y) :
    ∀ op : DisplayOperator, IsNumber (op.apply x y)
  | .plus => hx.add hy
  | .minus => hx.sub hy
  | .times => hx.mul hy
  | .over => hx.div hy

theorem ofText?_glyph (op : DisplayOperator) : Token.ofText? (PlainForm.plain [op.glyph]) = some [op.token] := by
  cases op <;> rfl

end DisplayOperator

/-! ### A number, an operator and another number -/

/-- The tokens of a number with an operator and another number behind it. -/
def chainedTokens (negative : Bool) (x : Float) (op : DisplayOperator) (y : Float) : List Token :=
  (if negative then [.minus] else []) ++ [.number x, op.token, .number y]

section

variable (negative : Bool) (x : Float) (op : DisplayOperator) {y : Float}

theorem exists_ofTokens?_chainedTokens : ∃ e, Expr.ofTokens? (chainedTokens negative x op y) = some e ∧
    e.value = op.apply (if negative then -x else x) y := by
  cases negative <;> cases op <;> exact ⟨_, rfl, rfl⟩

theorem dividesByZeroLiteral_chainedTokens (hy : IsNonzero y) :
    Expr.dividesByZeroLiteral (chainedTokens negative x op y) = false := by
  have hzero := hy.beq_zero
  cases negative <;> cases op <;> simp [chainedTokens, Expr.dividesByZeroLiteral, DisplayOperator.token, hzero]

theorem exists_evaluateTokens_chainedTokens (hx : IsNumber x) (hy : IsNonzero y) :
    ∃ r, evaluateTokens (chainedTokens negative x op y) = .ok r := by
  obtain ⟨e, he, hvalue⟩ := exists_ofTokens?_chainedTokens negative x op (y := y)
  have hsigned : IsNumber (if negative then -x else x) := by
    cases negative with
    | false => exact hx
    | true => exact hx.neg
  obtain ⟨r, hr⟩ := answerText_of_isNumber (op.isNumber_apply hsigned hy)
  refine ⟨r, evaluateTokens_eq_ok_iff.mpr ⟨dividesByZeroLiteral_chainedTokens negative x op hy, e.value, ?_, ?_⟩⟩
  · rw [valueOfTokens, he]
    rfl
  · rw [hvalue, hr]

end

/-! ### The text of an answer in a formula -/

theorem plain_sign (negative : Bool) : PlainForm.plain (Answer.sign negative) = Answer.sign negative := by
  cases negative <;> rfl

theorem ofText?_sign (negative : Bool) :
    Token.ofText? (Answer.sign negative) = some (if negative then [.minus] else []) := by
  cases negative <;> rfl

theorem ofNumeral?_digitChar (d : Fin 10) : Decimal.ofNumeral? [Nat.digitChar d] = some ⟨d, 0⟩ := by
  decide +revert

theorem isNonzero_digit {d : Fin 10} (hd : d ≠ 0) : IsNonzero (Decimal.toFloat ⟨d, 0⟩) := by
  have hrank : ∀ d : Fin 10, d ≠ 0 → 0 < (⟨d, 0⟩ : Decimal).rank ∧ (⟨d, 0⟩ : Decimal).rank < infinityRank := by
    decide +kernel
  exact isNonzero_toFloat (hrank d hd).1 (hrank d hd).2

/-- An answer in digits is read in a formula as the number it shows. -/
theorem ofText?_chained {numeral : List Char} {size : Decimal} (hsize : Decimal.ofNumeral? numeral = some size)
    (negative : Bool) (op : DisplayOperator) (d : Fin 10) :
    Token.ofText? (PlainForm.plain (Answer.sign negative ++ numeral ++ [op.glyph, Nat.digitChar d])) =
      some (chainedTokens negative size.toFloat op (Decimal.toFloat ⟨d, 0⟩)) := by
  have hdigit := ofNumeral?_digitChar d
  have hop : ∃ c, PlainForm.plain [op.glyph] = [c] ∧ Lexeme.isSeparate c = true := by
    cases op <;> exact ⟨_, rfl, by decide⟩
  obtain ⟨c, hplain, hc⟩ := hop
  have hglyph := op.ofText?_glyph
  rw [hplain] at hglyph
  -- the operator stands in a lexeme of its own, so it parts the numerals
  have hborder : ∀ a b, a = c ∨ b = c → Lexeme.joined a b = false := by
    rintro a b (rfl | rfl)
    · exact Lexeme.joined_eq_false (Or.inl hc)
    · exact Lexeme.joined_eq_false (Or.inr hc)
  have hoperation : Token.ofText? ([c] ++ [Nat.digitChar d]) =
      some ([op.token] ++ [.number (Decimal.toFloat ⟨d, 0⟩)]) := by
    refine Token.ofText?_append (fun a ha b _ => hborder a b (Or.inl ?_)) hglyph (Token.ofText?_numeral hdigit)
    simpa using ha.symm
  have hchained : Token.ofText? (numeral ++ ([c] ++ [Nat.digitChar d])) =
      some ([.number size.toFloat] ++ ([op.token] ++ [.number (Decimal.toFloat ⟨d, 0⟩)])) := by
    refine Token.ofText?_append (fun a _ b hb => hborder a b (Or.inr ?_)) (Token.ofText?_numeral hsize) hoperation
    simpa using hb.symm
  have hsign : ∀ a ∈ (Answer.sign negative).getLast?, Lexeme.isSeparate a = true := by
    intro a ha
    rw [Answer.mem_sign (List.mem_of_mem_getLast? ha)]
    decide
  rw [List.append_cons, PlainForm.plain_append, PlainForm.plain_append, PlainForm.plain_append, plain_sign, hplain,
    PlainForm.plain_numeral hsize, PlainForm.plain_numeral hdigit, List.append_assoc, List.append_assoc]
  exact Token.ofText?_append (fun a ha b _ => Lexeme.joined_eq_false (Or.inl (hsign a ha)))
    (ofText?_sign negative) hchained

/-- **An answer in digits can be gone on from**, by any operator and a digit that is not zero. -/
theorem evaluate_chained {answer : Answer} (h : Answer.inDigits answer.text = true) (op : DisplayOperator)
    {d : Fin 10} (hd : d ≠ 0) :
    ∃ r, evaluate (answer.text ++ op.glyph.toString ++ (Nat.digitChar d).toString) = .ok r := by
  obtain ⟨negative, numeral, size, hchars, hsize⟩ := Answer.exists_numeral_of_inDigits h
  have htext : (answer.text ++ op.glyph.toString ++ (Nat.digitChar d).toString).toList =
      Answer.sign negative ++ numeral ++ [op.glyph, Nat.digitChar d] := by
    simp [Answer.text, hchars]
  obtain ⟨e, he, -⟩ := exists_ofTokens?_chainedTokens negative size.toFloat op (y := Decimal.toFloat ⟨d, 0⟩)
  have htokens := ofText?_chained hsize negative op d
  rw [← htext] at htokens
  rw [evaluate_of_tokens htokens he]
  exact exists_evaluateTokens_chainedTokens negative size.toFloat op
    (isNumber_toFloat size.rank_le_infinityRank) (isNonzero_digit hd)

/-- A formula with a letter that no function has in its name has no answer. -/
theorem evaluate_foreign {expression : String} {c : Char} (hc : c ∈ expression.toList) (h : c = 'I' ∨ c = 'e') :
    evaluate expression = .error .invalidExpression := by
  have hletter : Text.isBlank c = false ∧ PlainForm.plainChar c = c ∧ PlainForm.isFormulaChar c = false ∧
      ∀ f : Func, c ∉ f.name.toList := by
    rcases h with rfl | rfl <;> refine ⟨by decide, rfl, by decide, fun f => ?_⟩ <;> cases f <;> decide
  obtain ⟨hblank, hplain, hforeign, hname⟩ := hletter
  have hnone : PlainForm.ofText? expression.toList = none := by
    rw [Option.eq_none_iff_forall_ne_some]
    intro form hform
    obtain ⟨f, hf, -⟩ := PlainForm.exists_name_of_mem hform (PlainForm.mem_plain hc hblank hplain) hforeign
    exact hname f hf
  rw [evaluate, hnone]
  rfl

/-! ### Going on -/

namespace Machine

/-- The keystrokes of an operator, a digit and `equals`. -/
def chaining (op : DisplayOperator) (d : Fin 10) : List Keystroke :=
  [.operator (some op.glyph.toString), .number (some (Nat.digitChar d).toString), .equals]

theorem run_chaining {m : Machine} (h : m.hasResult = true) (op : DisplayOperator) (d : Fin 10) :
    ∃ echoed, m.run (chaining op d) =
      pressEquals ⟨m.result ++ op.glyph.toString ++ (Nat.digitChar d).toString, echoed, false, none⟩ := by
  exact ⟨echo (m.result ++ op.glyph.toString ++ (Nat.digitChar d).toString), by
    simp [chaining, run, press, pressOperator, h, pressNumber, typing]⟩

theorem chaining_of_inDigits {m : Machine} (hm : m.Consistent) (h : m.hasResult = true)
    (hdigits : Answer.inDigits m.result = true) (op : DisplayOperator) {d : Fin 10} (hd : d ≠ 0) :
    (m.run (chaining op d)).hasResult = true ∧ (m.run (chaining op d)).error = none := by
  obtain ⟨answer, hanswer⟩ := exists_answer_of_evaluate (hm.answered h).2.2
  obtain ⟨echoed, hrun⟩ := run_chaining h op d
  rw [hanswer] at hdigits hrun
  obtain ⟨r, hr⟩ := evaluate_chained hdigits op hd
  rw [hrun, pressEquals, if_neg (by simp), hr]
  exact ⟨rfl, rfl⟩

theorem chaining_of_not_inDigits {m : Machine} (hm : m.Consistent) (h : m.hasResult = true)
    (hdigits : Answer.inDigits m.result = false) (op : DisplayOperator) (d : Fin 10) :
    (m.run (chaining op d)).hasResult = false ∧
      (m.run (chaining op d)).error = some EvalError.invalidExpression.message := by
  obtain ⟨answer, hanswer⟩ := exists_answer_of_evaluate (hm.answered h).2.2
  obtain ⟨echoed, hrun⟩ := run_chaining h op d
  rw [hanswer] at hdigits hrun
  have hletter : ∃ c ∈ (answer.text ++ op.glyph.toString ++ (Nat.digitChar d).toString).toList, c = 'I' ∨ c = 'e' := by
    rcases Answer.exists_letter_of_not_inDigits hdigits with hI | he
    · exact ⟨'I', by simp [Answer.text, hI], Or.inl rfl⟩
    · exact ⟨'e', by simp [Answer.text, he], Or.inr rfl⟩
  obtain ⟨c, hc, hforeign⟩ := hletter
  rw [hrun, pressEquals, if_neg (by simp), evaluate_foreign hc hforeign]
  exact ⟨rfl, rfl⟩

/-- **Going on from an answer**: after any keystrokes that lead to one, an operator, a digit other than zero and
`equals` find the next answer if the first is written in digits, and the formula is invalid if it is not. -/
theorem chained_answer {keys : List Keystroke} (h : (initial.run keys).hasResult = true) (op : DisplayOperator)
    {d : Fin 10} (hd : d ≠ 0) :
    let m := (initial.run keys).run (chaining op d)
    (Answer.inDigits (initial.run keys).result = true → m.hasResult = true ∧ m.error = none) ∧
      (Answer.inDigits (initial.run keys).result = false →
        m.hasResult = false ∧ m.error = some EvalError.invalidExpression.message) := by
  intro m
  have hconsistent : (initial.run keys).Consistent := run_induction press_consistent initial_consistent keys
  exact ⟨fun hdigits => chaining_of_inDigits hconsistent h hdigits op hd,
    fun hdigits => chaining_of_not_inDigits hconsistent h hdigits op d⟩

theorem chained_forty_two :
    let keys : List Keystroke := [.number (some "6"), .operator (some "×"), .number (some "7"), .equals]
    let m := (initial.run keys).run (chaining .plus 1)
    (initial.run keys).hasResult = true ∧ (1 : Fin 10) ≠ 0 ∧ Answer.inDigits (initial.run keys).result = true ∧
      m.hasResult = true ∧ m.error = none := by
  intro keys m
  have hanswered : (initial.run keys).hasResult = true := by decide +kernel
  have hone : (1 : Fin 10) ≠ 0 := by decide
  have hdigits : Answer.inDigits (initial.run keys).result = true := by decide +kernel
  exact ⟨hanswered, hone, hdigits, (chained_answer hanswered .plus hone).1 hdigits⟩

/-- There is no going on from infinity. -/
theorem not_forall_chained_answer :
    ¬∀ (words : List String) (keys : List Keystroke), words.mapM Keystroke.ofWord? = some keys →
        (initial.run keys).hasResult = true → ∀ (op : DisplayOperator) (d : Fin 10), d ≠ 0 →
          ((initial.run keys).run (chaining op d)).hasResult = true ∧
            ((initial.run keys).run (chaining op d)).error = none := by
  intro h
  let words := ["1", "/", "(", "1", "-", "1", ")", "="]
  let keys : List Keystroke :=
    [.number (some "1"), .operator (some "÷"), .number (some "("), .number (some "1"), .operator (some "−"),
      .number (some "1"), .number (some ")"), .equals]
  have hkeys : words.mapM Keystroke.ofWord? = some keys := by decide +kernel
  have hanswered : (initial.run keys).hasResult = true := by decide +kernel
  have hchained : ((initial.run keys).run (chaining .plus 1)).hasResult = false := by decide +kernel
  rw [(h words keys hkeys hanswered .plus 1 (by decide)).1] at hchained
  cases hchained

end Machine
end Reckoner
