import Reckoner.Proofs.Machine.Completions

/-!
# A failed `equals` leaves nothing but its message

An `equals` that fails changes the message and nothing else: there was no answer to take back, since a formula
below which an answer stands does not fail. From then on the machine and the machine it would have been are alike
but for the message (`Alike`). They turn down the same keystrokes, which leaves each as it is, and any other
keystroke makes them equal (`press_eq_of_not_refuses`): no key asks for the message, and all but the refused
ones set it anew. So a run goes on as if the failed `equals` had not been.
-/

namespace Reckoner.Machine

variable {m m' : Machine} {k : Keystroke}

/-- Two machines that differ in their messages at most. -/
structure Alike (m m' : Machine) : Prop where
  expression : m.expression = m'.expression
  result : m.result = m'.result
  hasResult : m.hasResult = m'.hasResult

theorem Alike.of_eq (h : m = m') : Alike m m' := by
  subst h
  exact ⟨rfl, rfl, rfl⟩

/-- Whether a keystroke is turned down: it lacks its text, nothing may stand where it would put something, or there
is no formula to work out. -/
def refuses (m : Machine) : Keystroke → Bool
  | .number none | .operator none | .function none => true
  | .operator (some _) =>
    !m.hasResult && !Typing.acceptsOperator m.expression && !Typing.endsWithOperator m.expression
  | .decimal => !Typing.acceptsDecimal m.expression
  | .equals => m.expression = ""
  | _ => false

theorem press_of_refuses (h : m.refuses k = true) : m.press k = m := by
  cases k with
  | number text | function text =>
    cases text with
    | none => rfl
    | some text => cases h
  | operator text =>
    cases text with
    | none => rfl
    | some text =>
      simp only [refuses, Bool.and_eq_true, Bool.not_eq_true'] at h
      simp [press, pressOperator, h]
  | decimal =>
    simp only [refuses, Bool.not_eq_true'] at h
    simp [press, pressDecimal, h]
  | equals =>
    simp only [refuses, decide_eq_true_eq] at h
    simp [press, pressEquals, h]
  | backspace | clear | clearAll => cases h

namespace Alike

theorem refuses_eq (h : Alike m m') (k : Keystroke) : m.refuses k = m'.refuses k := by
  unfold refuses
  rw [h.expression, h.hasResult]

theorem completion?_eq (h : Alike m m') (k : Keystroke) : m.completion? k = m'.completion? k := by
  unfold completion?
  rw [h.expression]

/-- A keystroke that is not turned down does not ask for the message and sets it anew. -/
theorem press_eq_of_not_refuses (h : Alike m m') (hk : m.refuses k = false) : m.press k = m'.press k := by
  obtain ⟨expression, result, hasResult, error⟩ := m
  obtain ⟨expression', result', hasResult', error'⟩ := m'
  obtain ⟨rfl, rfl, rfl⟩ := h
  cases k with
  | number text | function text =>
    cases text with
    | none => cases hk
    | some text => rfl
  | operator text =>
    cases text with
    | none => cases hk
    | some text =>
      simp only [press, pressOperator]
      split
      · rfl
      · split
        · rfl
        · split
          · rfl
          · -- neither behind the formula nor in its last operator's place
            simp_all [refuses]
  | decimal =>
    simp only [refuses, Bool.not_eq_false'] at hk
    simp [press, pressDecimal, hk]
  | equals =>
    simp only [refuses, decide_eq_false_iff_not] at hk
    simp [press, pressEquals, hk]
  | backspace | clear | clearAll => rfl

theorem press (h : Alike m m') (k : Keystroke) : Alike (m.press k) (m'.press k) := by
  by_cases hk : m.refuses k = true
  · rw [press_of_refuses hk, press_of_refuses (h.refuses_eq k ▸ hk)]
    exact h
  · exact .of_eq (h.press_eq_of_not_refuses (Bool.eq_false_iff.mpr hk))

theorem run (h : Alike m m') (keys : List Keystroke) : Alike (m.run keys) (m'.run keys) := by
  induction keys generalizing m m' with
  | nil => exact h
  | cons k keys ih => exact ih (h.press k)

theorem completions_eq (h : Alike m m') (keys : List Keystroke) : m.completions keys = m'.completions keys := by
  induction keys generalizing m m' with
  | nil => rfl
  | cons k keys ih => rw [completions, completions, h.completion?_eq k, ih (h.press k)]

/-- From the first keystroke on that is not turned down the machines are equal. -/
theorem run_eq_of_not_refuses (h : Alike m m') {before keys : List Keystroke} (hstart : before ++ [k] <+: keys)
    (hk : (m.run before).refuses k = false) : m.run keys = m'.run keys := by
  obtain ⟨after, rfl⟩ := hstart
  have hpress := (h.run before).press_eq_of_not_refuses hk
  rw [run_append m, run_append m', run_concat, run_concat, hpress]

end Alike

/-- A keystroke is turned down exactly if it leaves the machine as it is, whatever message stands there. -/
theorem refuses_iff :
    m.refuses k = true ↔ ∀ message, { m with error := message }.press k = { m with error := message } := by
  constructor
  · intro h message
    apply press_of_refuses
    rw [← h]
    exact Alike.refuses_eq ⟨rfl, rfl, rfl⟩ k
  · intro h
    by_contra hk
    -- what is not turned down sets the message, and cannot leave two different ones standing
    have halike : Alike { m with error := none } m := ⟨rfl, rfl, rfl⟩
    have hanew : { m with error := none }.press k = { m with error := some "" }.press k := by
      refine Alike.press_eq_of_not_refuses ⟨rfl, rfl, rfl⟩ ?_
      rw [halike.refuses_eq k]
      exact Bool.eq_false_iff.mpr hk
    rw [h none, h (some "")] at hanew
    cases congrArg Machine.error hanew

/-- An `equals` that fails changes the message alone and completes nothing. -/
theorem alike_press_equals (hm : m.Consistent) {message : String} (h : (m.press .equals).error = some message) :
    Alike (m.press .equals) m ∧ m.completion? .equals = none := by
  unfold press pressEquals at h ⊢
  unfold completion?
  by_cases hempty : m.expression = ""
  · rw [if_pos hempty, if_pos hempty]
    exact ⟨.of_eq rfl, rfl⟩
  · rw [if_neg hempty] at h ⊢
    rw [if_neg hempty]
    cases heval : evaluate m.expression with
    | ok answer =>
      rw [heval] at h
      cases h
    | error e =>
      have hnone : m.hasResult = false := by
        rw [Bool.eq_false_iff]
        intro hanswered
        have hok := (hm.answered hanswered).2.2
        rw [heval] at hok
        cases hok
      exact ⟨⟨rfl, rfl, hnone.symm⟩, rfl⟩

/-- **A failed `equals` leaves nothing but its message**: it changes neither formula nor result and reports nothing,
whatever is typed next goes on and is reported as if it had not been pressed, and its message is gone with the
first keystroke that is not turned down. -/
theorem failed_equals_transparent {keys : List Keystroke} {message : String}
    (h : ((initial.run keys).press .equals).error = some message) (more : List Keystroke) :
    let m := initial.run keys
    let failed := m.press .equals
    (failed.expression = m.expression ∧ failed.result = m.result ∧ m.completion? .equals = none) ∧
      ((failed.run more).expression = (m.run more).expression ∧ (failed.run more).result = (m.run more).result ∧
        (failed.run more).hasResult = (m.run more).hasResult ∧ failed.completions more = m.completions more) ∧
      ∀ before k, before ++ [k] <+: more → (m.run before).refuses k = false →
        (failed.run more).error = (m.run more).error := by
  intro m failed
  obtain ⟨halike, hnone⟩ := alike_press_equals (run_induction press_consistent initial_consistent keys) h
  have hrun := halike.run more
  refine ⟨⟨halike.expression, halike.result, hnone⟩,
    ⟨hrun.expression, hrun.result, hrun.hasResult, halike.completions_eq more⟩, ?_⟩
  intro before k hstart hk
  rw [← (halike.run before).refuses_eq k] at hk
  rw [halike.run_eq_of_not_refuses hstart hk]

/-- An operator behind the parenthesis is turned down and the message stays; the digit takes it away. -/
theorem failed_equals_in_sum :
    let m := initial.run [.number (some "2"), .operator (some "+"), .number (some "(")]
    let failed := m.press .equals
    let more : List Keystroke := [.operator (some "×"), .number (some "3"), .number (some ")"), .equals]
    failed.error = some "Invalid Expression" ∧ (failed.run (more.take 1)).error ≠ (m.run (more.take 1)).error ∧
      (failed.run more).result = "5" ∧ failed.completions more = [⟨"2+(3)", "5"⟩] ∧
      (failed.run more).error = (m.run more).error := by
  intro m failed more
  have hfails : failed.error = some "Invalid Expression" := by decide +kernel
  have hkept : (failed.run (more.take 1)).error ≠ (m.run (more.take 1)).error := by decide +kernel
  have hresult : (m.run more).result = "5" := by decide +kernel
  have hreports : m.completions more = [⟨"2+(3)", "5"⟩] := by decide +kernel
  have hdigit : (m.run (more.take 1)).refuses (.number (some "3")) = false := rfl
  obtain ⟨-, ⟨-, hsame, -, hsameReports⟩, herror⟩ := failed_equals_transparent hfails more
  exact ⟨hfails, hkept, hsame.trans hresult, hsameReports.trans hreports,
    herror (more.take 1) _ ⟨more.drop 2, rfl⟩ hdigit⟩

end Reckoner.Machine
