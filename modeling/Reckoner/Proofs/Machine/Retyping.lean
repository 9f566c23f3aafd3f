import Reckoner.Keystroke.Reading
import Reckoner.Keystroke.Retyping
import Reckoner.Proofs.Expression.Concatenation
import Reckoner.Proofs.Machine.Placement

/-!
# Typing a calculation again

A four-function calculation that was completed can be typed again exactly if its formula does not begin with a minus
sign (`retyped_iff`). The formula is made of what keys type, and of an answer that it went on from: that answer has
no letters, or the calculation would not have been completed, so its sign is all that no key types. Retyping passes
over the sign.
-/

namespace Reckoner

open Typing

/-! ### Four-function formulas -/

/-- The keystrokes of a four-function calculator. -/
def fourFunctionKeys : List Keystroke :=
  (['0', '1', '2', '3', '4', '5', '6', '7', '8', '9', '(', ')'].map fun c => Keystroke.number (some c.toString)) ++
    (operators.map fun c => Keystroke.operator (some c.toString)) ++
    ([.decimal, .equals, .backspace, .clear, .clearAll] : List Keystroke)

example : ["0", "1", "2", "3", "4", "5", "6", "7", "8", "9", "(", ")", "+", "-", "*", "/", ".", "=", "Backspace", "c",
    "ac"].map Keystroke.ofWord? = fourFunctionKeys.map some := by
  decide

/-- Whether a character is typed as part of a number or as a parenthesis. -/
def isTyped (c : Char) : Bool :=
  c.isDigit || c == '.' || c == '(' || c == ')'

/-- What may stand behind what in a formula that is typed with four functions and retyped. -/
inductive Retypable (before : List Char) : Char → Prop
  | typed {c : Char} (h : isTyped c = true) : Retypable before c
  | operator {c : Char} (h : isOperator c = true) (haccepts : acceptsOperator (String.ofList before) = true) :
      Retypable before c

/-- The letters of an answer. -/
def answerLetters : List Char :=
  ['I', 'n', 'f', 'i', 't', 'y', 'e']

/-- What may stand behind what in a formula that is typed with four functions, going on from answers included. -/
inductive FourFunction (before : List Char) : Char → Prop
  | retypable {c : Char} (h : Retypable before c) : FourFunction before c
  | minus (h : before = [] ∨ before.getLast? = some 'e') : FourFunction before '-'
  | letter {c : Char} (h : c ∈ answerLetters) : FourFunction before c

theorem isOperator_eq_false_of_isTyped {c : Char} (h : isTyped c = true) : isOperator c = false := by
  rw [Bool.eq_false_iff, ne_eq, isOperator_iff]
  rintro (rfl | rfl | rfl | rfl) <;> cases h

theorem fourFunction_of_isNumeralChar {before : List Char} {c : Char} (h : Decimal.isNumeralChar c = true) :
    FourFunction before c := by
  refine .retypable (.typed ?_)
  rw [Decimal.isNumeralChar] at h
  rw [isTyped, h]
  rfl

theorem eachAfter_answer (a : Answer) : EachAfter FourFunction a.chars := by
  have hsign : ∀ negative, EachAfter FourFunction (Answer.sign negative) := by
    rintro (_ | _)
    · exact eachAfter_nil
    · exact eachAfter_singleton.mpr (.minus (Or.inl rfl))
  cases a with
  | infinite negative =>
    have hletters : ∀ c ∈ "Infinity".toList, c ∈ answerLetters := by simp [answerLetters]
    exact eachAfter_append.mpr ⟨hsign negative, eachAfter_of_forall fun c hc before => .letter (hletters c hc)⟩
  | inPlace negative size =>
    obtain ⟨d, hread, -⟩ := Decimal.ofNumeral?_inPlace size
    refine eachAfter_append.mpr ⟨hsign negative, eachAfter_of_forall fun c hc before => ?_⟩
    exact fourFunction_of_isNumeralChar ((Decimal.ofNumeral?_eq_some hread).2 c hc)
  | scientific negative size =>
    obtain ⟨mantissa, signChar, n, hscientific, hsignChar, hmantissa⟩ := size.exists_scientific_eq
    have hexponent : 'e' :: signChar :: Nat.toDigits 10 n = ['e'] ++ ([signChar] ++ Nat.toDigits 10 n) := rfl
    rw [Answer.chars, hscientific, hexponent]
    refine eachAfter_append.mpr ⟨hsign negative, eachAfter_append.mpr ⟨?_, eachAfter_append.mpr ⟨?_,
      eachAfter_append.mpr ⟨?_, ?_⟩⟩⟩⟩
    · exact eachAfter_of_forall fun c hc before => fourFunction_of_isNumeralChar (hmantissa c hc)
    · exact eachAfter_singleton.mpr (.letter (by decide))
    · rw [eachAfter_singleton]
      rcases hsignChar with rfl | rfl
      · exact .minus (Or.inr (by simp))
      · exact .retypable (.operator (by decide) (by simp [acceptsOperator, lastChar?, isOperator, operators]))
    · refine eachAfter_of_forall fun c hc before => fourFunction_of_isNumeralChar ?_
      exact Decimal.isNumeralChar_of_isDigit (Decimal.isDigit_of_mem_toDigits hc)

theorem kept_fourFunction : Machine.Kept FourFunction where
  operator before c hop := by
    constructor
    · intro h
      cases h with
      | retypable h =>
        cases h with
        | typed h => rw [isOperator_eq_false_of_isTyped h] at hop; cases hop
        | operator _ haccepts => exact haccepts
      | minus h => cases hop
      | letter h =>
        have hletter : ∀ c ∈ answerLetters, isOperator c = false := by simp [answerLetters, isOperator, operators]
        rw [hletter c h] at hop
        cases hop
    · exact fun haccepts => .retypable (.operator hop haccepts)
  point before _ := .retypable (.typed rfl)
  answer := eachAfter_answer

theorem obeys_of_mem_fourFunctionKeys {k : Keystroke} (hk : k ∈ fourFunctionKeys) :
    Machine.Obeys FourFunction k := by
  simp only [fourFunctionKeys, List.mem_append, List.mem_map] at hk
  rcases hk with (⟨c, hc, rfl⟩ | ⟨c, hc, rfl⟩) | hk
  · intro before
    have htyped : ∀ c ∈ ['0', '1', '2', '3', '4', '5', '6', '7', '8', '9', '(', ')'], isTyped c = true := by simp [isTyped]
    have hglyph : c.toString.toList = [c] := by simp
    rw [hglyph, eachAfter_singleton]
    exact .retypable (.typed (htyped c hc))
  · refine ⟨c, ?_, rfl⟩
    rw [isOperator]
    exact List.contains_iff_mem.mpr hc
  · simp only [List.mem_cons, List.not_mem_nil, or_false] at hk
    rcases hk with rfl | rfl | rfl | rfl | rfl <;> trivial

/-! ### Completed calculations -/

/-- Every function has a letter in its name that no answer has. -/
theorem exists_own_letter (f : Func) : ∃ c ∈ f.name.toList, c = 's' ∨ c = 'a' ∨ c = 'l' := by
  cases f <;> simp [Func.name]

theorem not_fourFunction_own {before : List Char} {c : Char} (hc : c = 's' ∨ c = 'a' ∨ c = 'l') :
    ¬FourFunction before c := by
  intro h
  cases h with
  | retypable h =>
    cases h with
    | typed h => rcases hc with rfl | rfl | rfl <;> cases h
    | operator h => rcases hc with rfl | rfl | rfl <;> cases h
  | minus h => simp at hc
  | letter h => rcases hc with rfl | rfl | rfl <;> simp [answerLetters] at h

/-- A formula with an answer has no letters: they would belong to a function's name, and every name has a letter
that no answer has. -/
theorem not_mem_answerLetters {expression r : String} (heval : evaluate expression = .ok r)
    (h : EachAfter FourFunction expression.toList) {c : Char} (hc : c ∈ expression.toList) : c ∉ answerLetters := by
  intro hletter
  have hkind : Text.isBlank c = false ∧ PlainForm.plainChar c = c ∧ PlainForm.isFormulaChar c = false := by
    fin_cases hletter <;> decide
  obtain ⟨hblank, hplain, hforeign⟩ := hkind
  obtain ⟨form, _, hform, -, -⟩ := evaluate_eq_ok_iff.mp heval
  obtain ⟨f, -, hname⟩ := PlainForm.exists_name_of_mem hform (PlainForm.mem_plain hc hblank hplain) hforeign
  obtain ⟨x, hx, hown⟩ := exists_own_letter f
  obtain ⟨y, hy, hxy⟩ := List.mem_map.mp (hname x hx)
  -- the letter was in the formula before its operators became ASCII ones
  have hyx : y = x := by
    rw [PlainForm.plainChar.eq_def] at hxy
    split at hxy
    · simp [← hxy] at hown
    · simp [← hxy] at hown
    · simp [← hxy] at hown
    · exact hxy
  rw [hyx] at hy
  obtain ⟨before, -, hbefore⟩ := h.exists_of_mem (List.mem_of_mem_filter hy)
  exact not_fourFunction_own hown hbefore

/-- Behind its first character a formula with an answer has what is typed again. -/
theorem retypable_of_evaluate {expression r : String} (heval : evaluate expression = .ok r)
    (h : EachAfter FourFunction expression.toList) :
    EachAfter (fun before c => Retypable before c ∨ c = '-' ∧ before = []) expression.toList := by
  intro before c hstart
  have hletter := not_mem_answerLetters heval h (hstart.subset (List.mem_append_right before (List.mem_singleton_self c)))
  cases h before c hstart with
  | retypable h => exact Or.inl h
  | minus hbefore =>
    -- not the sign of an exponent: an `e` would stand in front of it
    refine Or.inr ⟨rfl, hbefore.resolve_right fun hlast => ?_⟩
    have he := List.mem_append_left ['-'] (List.mem_of_getLast? hlast)
    exact not_mem_answerLetters heval h (hstart.subset he) (by decide)
  | letter h => exact absurd h hletter

/-! ### Typing again -/

namespace Machine

variable {m : Machine}

theorem ofKeptChar?_of_isTyped {c : Char} (h : isTyped c = true) :
    Keystroke.ofKeptChar? c = some (.number (some c.toString)) :=
  if_pos h

theorem ofKeptChar?_of_isOperator {c : Char} (h : isOperator c = true) :
    Keystroke.ofKeptChar? c = some (.operator (some c.toString)) := by
  have htyped : ¬isTyped c = true := by
    intro htyped
    rw [isOperator_eq_false_of_isTyped htyped] at h
    cases h
  exact (if_neg htyped).trans (if_pos h)

/-- What may stand behind the formula is typed there again. -/
theorem shows_press_of_retypable {text : List Char} {c : Char} (hm : Shows m (String.ofList text))
    (hc : Retypable text c) :
    ∃ k, Keystroke.ofKeptChar? c = some k ∧ Shows (m.press k) (String.ofList (text ++ [c])) := by
  obtain ⟨expression, result, hasResult, error⟩ := m
  obtain ⟨rfl, rfl⟩ := hm
  cases hc with
  | typed h =>
    refine ⟨_, ofKeptChar?_of_isTyped h, ?_⟩
    simp [press, pressNumber, typing, Shows]
  | operator h haccepts =>
    refine ⟨_, ofKeptChar?_of_isOperator h, ?_⟩
    simp [press, pressOperator, haccepts, Shows]

theorem shows_run_retyped {text : List Char} (h : EachAfter Retypable text) (hm : Shows m "") :
    Shows (m.run (text.filterMap Keystroke.ofKeptChar?)) (String.ofList text) := by
  induction text using List.reverseRecOn with
  | nil => exact hm
  | append_singleton text c ih =>
    obtain ⟨htext, hc⟩ := eachAfter_concat.mp h
    obtain ⟨k, hk, hshows⟩ := shows_press_of_retypable (ih htext) hc
    have hkeys : (text ++ [c]).filterMap Keystroke.ofKeptChar? = text.filterMap Keystroke.ofKeptChar? ++ [k] := by
      simp [hk]
    rw [hkeys, run_concat]
    exact hshows

theorem run_retyping (m : Machine) (expression : String) :
    m.run (Keystroke.retyping expression) = initial.run (expression.toList.filterMap Keystroke.ofKeptChar?) :=
  rfl

theorem minus_not_mem_press {c : Char} {k : Keystroke} (hc : Keystroke.ofKeptChar? c = some k)
    (hm : '-' ∉ m.expression.toList ∧ m.hasResult = false) :
    '-' ∉ (m.press k).expression.toList ∧ (m.press k).hasResult = false := by
  obtain ⟨hminus, hresult⟩ := hm
  rw [Keystroke.ofKeptChar?] at hc
  split_ifs at hc with htyped hop
  · cases hc
    have hne : '-' ≠ c := by
      rintro rfl
      cases htyped
    simp [press, pressNumber, typing, hresult, hminus, hne]
  · cases hc
    have hne : '-' ≠ c := by
      rintro rfl
      cases hop
    have hshort : '-' ∉ (withoutLastChar m.expression).toList :=
      fun h => hminus ((withoutLastChar_isPrefix m.expression).subset h)
    simp only [press, pressOperator, hresult]
    split_ifs <;> simp_all

/-- No minus sign is typed again. -/
theorem minus_not_mem_run_retyped (text : List Char) :
    '-' ∉ (initial.run (text.filterMap Keystroke.ofKeptChar?)).expression.toList := by
  have hpress : ∀ m : Machine, ∀ k ∈ text.filterMap Keystroke.ofKeptChar?,
      '-' ∉ m.expression.toList ∧ m.hasResult = false →
        '-' ∉ (m.press k).expression.toList ∧ (m.press k).hasResult = false := by
    intro m k hk
    obtain ⟨c, -, hc⟩ := List.mem_filterMap.mp hk
    exact minus_not_mem_press hc
  have hinitial : '-' ∉ initial.expression.toList ∧ initial.hasResult = false := ⟨by simp [initial], rfl⟩
  exact (run_induction_of_mem hpress hinitial).1

theorem press_equals_of_shows {expression answer : String} (hm : Shows m expression) (hne : expression ≠ "")
    (heval : evaluate expression = .ok answer) : m.press .equals = ⟨expression, answer, true, none⟩ := by
  obtain ⟨rfl, -⟩ := hm
  rw [press, pressEquals, if_neg hne, heval]

/-- **A completed four-function calculation is typed again as it was**, and found again, on any machine, exactly if
it does not begin with a minus sign. -/
theorem retyped_iff {keys : List Keystroke} (hkeys : ∀ k ∈ keys, k ∈ fourFunctionKeys) {c : Completion}
    (hc : c ∈ initial.completions keys) (m : Machine) :
    let retyped := m.run (Keystroke.retyping c.expression)
    (retyped.expression = c.expression ↔ c.expression.toList.head? ≠ some '-') ∧
      (c.expression.toList.head? ≠ some '-' → retyped.press .equals = ⟨c.expression, c.result, true, none⟩) := by
  intro retyped
  obtain ⟨before, k, hstart, hcompletion⟩ := exists_of_mem_completions hc
  obtain ⟨-, hexpression, hne, heval, -⟩ := completion?_eq_some_iff.mp hcompletion
  have hrule : EachAfter FourFunction c.expression.toList := by
    rw [← hexpression]
    refine run_eachAfter kept_fourFunction fun k hk => obeys_of_mem_fourFunctionKeys (hkeys k (hstart.subset ?_))
    exact List.mem_append_left _ hk
  have hshows : c.expression.toList.head? ≠ some '-' → Shows retyped c.expression := by
    intro hhead
    have hretypable : EachAfter Retypable c.expression.toList := by
      intro before x hx
      rcases retypable_of_evaluate heval hrule before x hx with h | ⟨rfl, rfl⟩
      · exact h
      · obtain ⟨after, hafter⟩ := hx
        exact absurd (by simp [← hafter]) hhead
    have hrun := shows_run_retyped hretypable (m := initial) ⟨rfl, rfl⟩
    rwa [String.ofList_toList] at hrun
  refine ⟨⟨fun heq hhead => ?_, fun hhead => (hshows hhead).1⟩, fun hhead => ?_⟩
  · -- the formula begins with a sign, and nothing that is typed again has one
    have hminus := minus_not_mem_run_retyped c.expression.toList
    rw [← run_retyping m, heq] at hminus
    exact hminus (List.mem_of_mem_head? hhead)
  · exact press_equals_of_shows (hshows hhead) hne heval

theorem retyped_three_times_four :
    let keys : List Keystroke := [.number (some "3"), .operator (some "×"), .number (some "4"), .equals]
    let retyped := (initial.run [.number (some "9")]).run (Keystroke.retyping "3×4")
    (∀ k ∈ keys, k ∈ fourFunctionKeys) ∧ (⟨"3×4", "12"⟩ : Completion) ∈ initial.completions keys ∧
      "3×4".toList.head? ≠ some '-' ∧ retyped.expression = "3×4" ∧
      retyped.press .equals = ⟨"3×4", "12", true, none⟩ := by
  intro keys retyped
  have hkeys : ∀ k ∈ keys, k ∈ fourFunctionKeys := by decide
  have hmem : (⟨"3×4", "12"⟩ : Completion) ∈ initial.completions keys := by decide +kernel
  have hhead : "3×4".toList.head? ≠ some '-' := by decide +kernel
  have hretyped := retyped_iff hkeys hmem (initial.run [.number (some "9")])
  exact ⟨hkeys, hmem, hhead, hretyped.1.mpr hhead, hretyped.2 hhead⟩

/-- The sign of a negative answer that a calculation went on from is lost. -/
theorem not_forall_retyped :
    ¬∀ keys : List Keystroke, (∀ k ∈ keys, k ∈ fourFunctionKeys) → ∀ c ∈ initial.completions keys, ∀ m : Machine,
        (m.run (Keystroke.retyping c.expression)).expression = c.expression := by
  intro h
  let keys : List Keystroke :=
    [.number (some "3"), .operator (some "−"), .number (some "5"), .equals, .operator (some "+"),
      .number (some "1"), .equals]
  have hkeys : ∀ k ∈ keys, k ∈ fourFunctionKeys := by decide
  have hmem : (⟨"-2+1", "-1"⟩ : Completion) ∈ initial.completions keys := by decide +kernel
  have hretyped : (initial.run (Keystroke.retyping "-2+1")).expression = "2+1" := by decide +kernel
  have hkept := h keys hkeys _ hmem initial
  rw [hretyped] at hkept
  exact absurd hkept (by decide)

end Machine
end Reckoner
