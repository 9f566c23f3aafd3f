import Reckoner.Machine
import Reckoner.Proofs.Evaluation.Stages

/-!
# A machine tells the truth about its formula

The answer and the message that a machine shows belong to the formula that stands above them. `Consistent`
says so of a state; every keystroke keeps it, whatever text the keystroke carries, because a keystroke that
touches the formula also takes answer and message back.
-/

namespace Reckoner.Machine

/-- What a machine shows below its formula is what the formula evaluates to. -/
structure Consistent (m : Machine) : Prop where
  result_ne_empty : m.result ≠ ""
  answered : m.hasResult = true →
    m.error = none ∧ m.expression ≠ "" ∧ evaluate m.expression = .ok m.result
  failed : ∀ message, m.error = some message →
    m.hasResult = false ∧ m.expression ≠ "" ∧ ∃ e, evaluate m.expression = .error e ∧ e.message = message

/-- A property that each of some keystrokes keeps is kept by all of them together. -/
theorem run_induction_of_mem {P : Machine → Prop} {keys : List Keystroke}
    (hpress : ∀ m, ∀ k ∈ keys, P m → P (m.press k)) {m : Machine} (hm : P m) : P (m.run keys) := by
  induction keys generalizing m with
  | nil => exact hm
  | cons k keys ih =>
    exact ih (fun m k' hk' => hpress m k' (List.mem_cons_of_mem k hk')) (hpress m k List.mem_cons_self hm)

/-- A property that every keystroke keeps is kept by any number of them. -/
theorem run_induction {P : Machine → Prop} (hpress : ∀ m k, P m → P (m.press k)) {m : Machine} (hm : P m)
    (keys : List Keystroke) : P (m.run keys) :=
  run_induction_of_mem (fun m k _ => hpress m k) hm

/-- Without an answer and without a message there is nothing to be wrong about. -/
theorem consistent_of_neither {expression result : String} (h : result ≠ "") :
    Consistent ⟨expression, result, false, none⟩ :=
  ⟨h, fun h => (nomatch h), fun _ h => (nomatch h)⟩

theorem echo_ne_empty (expression : String) : echo expression ≠ "" := by
  rw [echo]
  split
  · decide
  · assumption

theorem typing_consistent (expression : String) : (typing expression).Consistent :=
  consistent_of_neither (echo_ne_empty expression)

theorem initial_consistent : initial.Consistent :=
  consistent_of_neither (by decide)

variable {m : Machine}

/-- A function name always goes on with the formula: where there is an answer there is one. -/
theorem Consistent.pressFunction_eq (h : m.Consistent) (text : String) :
    m.pressFunction text =
      ⟨m.expression ++ text ++ (if text = "(" ∨ text = ")" then "" else "("), m.result, false, none⟩ := by
  have hbase : ¬(m.hasResult = true ∧ m.expression = "" ∧ m.result ≠ zero) :=
    fun hseed => (h.answered hseed.1).2.1 hseed.2.1
  rw [pressFunction, if_neg hbase]

/-! ### Every keystroke keeps a machine consistent -/

theorem pressNumber_consistent (text : String) : (m.pressNumber text).Consistent := by
  rw [pressNumber]
  split <;> exact typing_consistent _

theorem pressOperator_consistent (h : m.Consistent) (text : String) : (m.pressOperator text).Consistent := by
  rw [pressOperator]
  split
  · exact consistent_of_neither h.result_ne_empty
  · split
    · exact consistent_of_neither h.result_ne_empty
    · split
      · exact consistent_of_neither h.result_ne_empty
      · exact h

theorem pressFunction_consistent (h : m.Consistent) (text : String) : (m.pressFunction text).Consistent :=
  consistent_of_neither h.result_ne_empty

theorem pressDecimal_consistent (h : m.Consistent) : m.pressDecimal.Consistent := by
  rw [pressDecimal]
  split
  · exact typing_consistent _
  · exact h

theorem pressEquals_consistent (h : m.Consistent) : m.pressEquals.Consistent := by
  rw [pressEquals]
  split
  · exact h
  · rename_i hne
    split
    · rename_i answer heval
      exact ⟨evaluate_ne_empty heval, fun _ => ⟨rfl, hne, heval⟩, fun _ h => (nomatch h)⟩
    · rename_i e heval
      refine ⟨h.result_ne_empty, fun h => (nomatch h), fun message hmessage => ?_⟩
      cases hmessage
      exact ⟨rfl, hne, e, heval, rfl⟩

theorem pressBackspace_consistent : m.pressBackspace.Consistent := by
  rw [pressBackspace]
  split
  · exact initial_consistent
  · exact typing_consistent _

theorem pressClear_consistent : m.pressClear.Consistent := by
  rw [pressClear]
  split
  · exact initial_consistent
  · exact typing_consistent _

theorem press_consistent (m : Machine) (k : Keystroke) (h : m.Consistent) : (m.press k).Consistent := by
  cases k with
  | number text =>
    cases text with
    | none => exact h
    | some text => exact pressNumber_consistent text
  | operator text =>
    cases text with
    | none => exact h
    | some text => exact pressOperator_consistent h text
  | function text =>
    cases text with
    | none => exact h
    | some text => exact pressFunction_consistent h text
  | decimal => exact pressDecimal_consistent h
  | equals => exact pressEquals_consistent h
  | backspace => exact pressBackspace_consistent
  | clear => exact pressClear_consistent
  | clearAll => exact initial_consistent

/-- **A machine is consistent after any keystrokes**, with any texts on them. -/
theorem run_consistent (keys : List Keystroke) : (initial.run keys).Consistent :=
  run_induction press_consistent initial_consistent keys

end Reckoner.Machine
