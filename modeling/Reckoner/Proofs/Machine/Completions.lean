import Mathlib.Data.List.Infix
import Reckoner.Proofs.Machine.Consistency
import Reckoner.Tape

/-!
# Completed calculations

What a machine reports while keys are pressed. A keystroke reports a calculation only if it is an `equals` that
finds an answer other than zero (`completion?_eq_some_iff`), so what is reported can be read off the machine
that the keystroke leads to (`completion?_equals`), and what a whole run reports off the machines it passes
through (`completions_eq_reports`, `completions_initial`). An `equals` without a formula does nothing and reports
nothing; it cannot be taken for one that found an answer, because no machine that keys lead to has an answer without
a formula.
-/

namespace Reckoner.Machine

variable {m : Machine}

/-! ### Runs -/

theorem run_append (m : Machine) (keys more : List Keystroke) : m.run (keys ++ more) = (m.run keys).run more :=
  List.foldl_append

theorem run_concat (m : Machine) (keys : List Keystroke) (k : Keystroke) :
    m.run (keys ++ [k]) = (m.run keys).press k :=
  run_append m keys [k]

theorem completions_append (m : Machine) (keys more : List Keystroke) :
    m.completions (keys ++ more) = m.completions keys ++ (m.run keys).completions more := by
  induction keys generalizing m with
  | nil => rfl
  | cons k keys ih => rw [List.cons_append, completions, completions, ih, List.append_assoc]; rfl

theorem completions_concat (m : Machine) (keys : List Keystroke) (k : Keystroke) :
    m.completions (keys ++ [k]) = m.completions keys ++ ((m.run keys).completion? k).toList := by
  rw [completions_append]
  simp [completions]

/-- What a run reports is reported by one of its keystrokes. -/
theorem exists_of_mem_completions {keys : List Keystroke} {c : Completion} (h : c ∈ m.completions keys) :
    ∃ before k, before ++ [k] <+: keys ∧ (m.run before).completion? k = some c := by
  induction keys using List.reverseRecOn with
  | nil => cases h
  | append_singleton keys k ih =>
    rw [completions_concat, List.mem_append, Option.mem_toList] at h
    rcases h with h | h
    · obtain ⟨before, k', hstart, hc⟩ := ih h
      exact ⟨before, k', hstart.trans (List.prefix_append keys [k]), hc⟩
    · exact ⟨keys, k, List.prefix_rfl, h⟩

/-- A machine with a formula on it that is being typed. -/
def Shows (m : Machine) (text : String) : Prop :=
  m.expression = text ∧ m.hasResult = false

/-! ### One keystroke -/

theorem completion?_eq_some_iff {k : Keystroke} {c : Completion} :
    m.completion? k = some c ↔
      k = .equals ∧ m.expression = c.expression ∧ c.expression ≠ "" ∧
        evaluate c.expression = .ok c.result ∧ c.result ≠ zero := by
  obtain ⟨expression, result⟩ := c
  constructor
  · intro h
    cases k with
    | equals =>
      rw [completion?] at h
      split_ifs at h with hempty
      split at h
      · rename_i answer heval
        split_ifs at h with hzero
        cases h
        exact ⟨rfl, rfl, hempty, heval, hzero⟩
      · cases h
    | _ => cases h
  · rintro ⟨rfl, rfl, hne, heval, hzero⟩
    simp [completion?, hne, heval, hzero]

/-- What a machine shows, as a calculation to report; there is none without an answer or if the answer is zero. -/
def shownCompletion? (m : Machine) : Option Completion :=
  if m.hasResult = true ∧ m.result ≠ zero then some ⟨m.expression, m.result⟩ else none

theorem completion?_equals (h : m.Consistent) : m.completion? .equals = (m.press .equals).shownCompletion? := by
  rw [completion?, press, pressEquals]
  by_cases hempty : m.expression = ""
  · have hnone : m.hasResult ≠ true := fun hresult => (h.answered hresult).2.1 hempty
    simp [hempty, shownCompletion?, hnone]
  · simp only [if_neg hempty]
    cases evaluate m.expression with
    | ok answer => by_cases hzero : answer = zero <;> simp [shownCompletion?, hzero]
    | error e => simp [shownCompletion?]

/-- What a keystroke should report: what the machine shows after it, if it is an `equals`. -/
def report? (m : Machine) (k : Keystroke) : Option Completion :=
  if k = .equals then (m.press k).shownCompletion? else none

theorem completion?_eq_report? (h : m.Consistent) (k : Keystroke) : m.completion? k = m.report? k := by
  unfold report?
  split_ifs with hk
  · rw [hk]
    exact completion?_equals h
  · rw [Option.eq_none_iff_forall_ne_some]
    intro c hc
    exact hk (completion?_eq_some_iff.mp hc).1

/-! ### Whole runs -/

/-- What some keystrokes should report, in order. -/
def reports (m : Machine) : List Keystroke → List Completion
  | [] => []
  | k :: keys => (m.report? k).toList ++ (m.press k).reports keys

theorem completions_eq_reports (h : m.Consistent) (keys : List Keystroke) : m.completions keys = m.reports keys := by
  induction keys generalizing m with
  | nil => rfl
  | cons k keys ih => rw [completions, reports, completion?_eq_report? h, ih (press_consistent m k h)]

theorem reports_append (m : Machine) (keys more : List Keystroke) :
    m.reports (keys ++ more) = m.reports keys ++ (m.run keys).reports more := by
  induction keys generalizing m with
  | nil => rfl
  | cons k keys ih => rw [List.cons_append, reports, reports, ih, List.append_assoc]; rfl

theorem reports_of_not_mem {keys : List Keystroke} (h : Keystroke.equals ∉ keys) : m.reports keys = [] := by
  induction keys generalizing m with
  | nil => rfl
  | cons k keys ih =>
    rw [List.mem_cons, not_or, eq_comm] at h
    simp [reports, report?, h.1, ih h.2]

/-- Whatever is reported has a formula and an answer. -/
theorem ne_empty_of_mem_completions {keys : List Keystroke} {c : Completion} (h : c ∈ m.completions keys) :
    c.expression ≠ "" ∧ c.result ≠ "" := by
  obtain ⟨before, k, -, hreport⟩ := exists_of_mem_completions h
  obtain ⟨-, -, hexpression, heval, -⟩ := completion?_eq_some_iff.mp hreport
  exact ⟨hexpression, evaluate_ne_empty heval⟩

/-- What the last of some keystrokes on a fresh machine should report: what the machine shows after it, if it is
an `equals`. -/
def lastReport? (keys : List Keystroke) : Option Completion :=
  if keys.getLast? = some .equals then (initial.run keys).shownCompletion? else none

theorem completion?_run_initial (keys : List Keystroke) (k : Keystroke) :
    (initial.run keys).completion? k = lastReport? (keys ++ [k]) := by
  rw [completion?_eq_report? (run_induction press_consistent initial_consistent keys), report?, lastReport?,
    List.getLast?_concat, run_concat]
  simp only [Option.some.injEq]

/-- **What is reported**: for every start of the keystrokes that ends with an `equals`, in order, what the machine
shows after it, and nothing else. All of it is true, and fit to be kept on a tape. -/
theorem completions_initial (keys : List Keystroke) :
    initial.completions keys = keys.inits.filterMap lastReport? ∧
      ∀ c ∈ initial.completions keys,
        evaluate c.expression = .ok c.result ∧ c.expression ≠ "" ∧ c.result ≠ "" ∧
          ∀ (τ : Type) (stamp : τ), (Entry.mk c.expression c.result stamp).isComplete = true := by
  constructor
  · induction keys using List.reverseRecOn with
    | nil => rfl
    | append_singleton keys k ih =>
      rw [completions_concat, ih, completion?_run_initial, List.inits_append, List.filterMap_append]
      cases hlast : lastReport? (keys ++ [k]) <;> simp [hlast]
  · intro c hc
    obtain ⟨before, k, -, hreport⟩ := exists_of_mem_completions hc
    obtain ⟨-, -, hexpression, heval, -⟩ := completion?_eq_some_iff.mp hreport
    have hresult : c.result ≠ "" := evaluate_ne_empty heval
    refine ⟨heval, hexpression, hresult, fun τ stamp => ?_⟩
    simp [Entry.isComplete, hexpression, hresult]

theorem completions_three_times_four :
    let keys : List Keystroke :=
      [.number (some "3"), .operator (some "×"), .number (some "4"), .equals, .equals, .clearAll, .equals]
    (⟨"3×4", "12"⟩ : Completion) ∈ initial.completions keys ∧
      initial.completions keys = [⟨"3×4", "12"⟩, ⟨"3×4", "12"⟩] ∧
      (Entry.mk "3×4" "12" ()).isComplete = true := by
  intro keys
  have hreports : initial.completions keys = [⟨"3×4", "12"⟩, ⟨"3×4", "12"⟩] := by decide +kernel
  have hmem : (⟨"3×4", "12"⟩ : Completion) ∈ initial.completions keys := by simp [hreports]
  exact ⟨hmem, hreports, ((completions_initial keys).2 _ hmem).2.2.2 Unit ()⟩

end Reckoner.Machine
