import Mathlib
import Reckoner.Proofs.Machine.Absorption
import Reckoner.Proofs.Machine.Retyping

/-!
# What retyping types

A kept formula is typed again on any machine as what is left of it once its operators are settled
(`run_retyping_settled`): the characters that no key types are passed over, and of a run of operators the last one
stays, or none if there is no operand in front of the run. The runs are those of the characters that are typed:
operators come together when what was between them is passed over.

The machine is followed from run to run. In front of a run of operators it shows the character that the formula has
there, so it refuses the whole run or takes the last of it (`run_operators_pressOperator`); any other character is
appended. A formula in which every operator has an operand in front of it comes back as it was.
-/

namespace Reckoner

namespace Typing

/-! ### What is left of a formula -/

/-- Whether a character of a kept formula is typed again. -/
def isRetyped (c : Char) : Bool :=
  isTyped c || isOperator c

/-- The maximal runs of operators, and each other character by itself. -/
def operatorRuns (text : List Char) : List (List Char) :=
  text.splitBy fun a b => isOperator a && isOperator b

/-- What is left of a run behind some character: of operators the last one, and none of them at the start or behind
an opening parenthesis. -/
def settledRun (before : Option Char) (run : List Char) : List Char :=
  if run.all isOperator then
    if before.all (· == '(') then [] else run.getLast?.toList
  else run

/-- What is left of runs that stand behind some character. -/
def settledRuns (before : Option Char) : List (List Char) → List Char
  | [] => []
  | run :: runs => settledRun before run ++ settledRuns run.getLast? runs

/-- A text with its runs of operators settled. -/
def settled (text : List Char) : List Char :=
  settledRuns none (operatorRuns text)

example : settled "+1−×(÷2+)×÷".toList = "1×(2+)÷".toList := by
  decide

/-- Some operators, or one character that is none. -/
inductive IsRun : List Char → Prop
  | operators {ops : List Char} {last : Char} (hops : ∀ a ∈ ops, isOperator a = true)
      (hlast : isOperator last = true) : IsRun (ops ++ [last])
  | single {c : Char} (hc : isOperator c = false) : IsRun [c]

/-- A border between two runs: not both are operators. -/
def Parted (run next : List Char) : Prop :=
  ∃ hrun hnext, (isOperator (run.getLast hrun) && isOperator (next.head hnext)) = false

theorem isOperator_of_isChain {a b : Char} {rest : List Char}
    (h : (a :: b :: rest).IsChain fun a b => (isOperator a && isOperator b) = true) :
    ∀ c ∈ a :: b :: rest, isOperator c = true := by
  induction rest generalizing a b with
  | nil => simpa using h
  | cons c rest ih =>
    rw [List.isChain_cons_cons, Bool.and_eq_true] at h
    exact List.forall_mem_cons.mpr ⟨h.1.1, ih h.2⟩

theorem isRun_of_mem {text run : List Char} (h : run ∈ operatorRuns text) : IsRun run := by
  have hchain : run.IsChain fun a b => (isOperator a && isOperator b) = true := List.isChain_of_mem_splitBy h
  cases run with
  | nil => exact absurd rfl (List.ne_nil_of_mem_splitBy h)
  | cons a rest =>
    cases rest with
    | nil =>
      cases ha : isOperator a with
      | true => exact @IsRun.operators [] a (fun _ h => nomatch h) ha
      | false => exact .single ha
    | cons b rest =>
      have hall := isOperator_of_isChain hchain
      rw [← List.dropLast_append_getLast (List.cons_ne_nil a (b :: rest))] at hall ⊢
      refine .operators (fun c hc => hall c (List.mem_append_left _ hc)) (hall _ ?_)
      exact List.mem_append_right _ (List.mem_singleton_self _)

theorem parted_operatorRuns (text : List Char) : (operatorRuns text).IsChain Parted :=
  List.isChain_getLast_head_splitBy (fun a b => isOperator a && isOperator b) text

theorem settledRun_operators {ops : List Char} {last : Char} (before : Option Char)
    (hops : ∀ a ∈ ops, isOperator a = true) (hlast : isOperator last = true) :
    settledRun before (ops ++ [last]) = if before.all (· == '(') then [] else [last] := by
  have hall : (ops ++ [last]).all isOperator = true := by
    rw [List.all_append, List.all_eq_true.mpr hops]
    simpa using hlast
  rw [settledRun, if_pos hall, List.getLast?_concat]
  rfl

theorem settledRun_single {c : Char} (before : Option Char) (hc : isOperator c = false) :
    settledRun before [c] = [c] := by
  simp [settledRun, hc]

end Typing

namespace Machine

open Typing

/-! ### Typing run by run -/

/-- A machine with a formula on it that is being typed, and no message. -/
structure Types (m : Machine) (text : List Char) : Prop where
  expression : m.expression = String.ofList text
  hasResult : m.hasResult = false
  error : m.error = none

/-- The key that types a character again. -/
def retypedKey (c : Char) : Keystroke :=
  if isOperator c then .operator (some c.toString) else .number (some c.toString)

variable {m : Machine} {text : List Char}

theorem map_retypedKey_operators {ops : List Char} (hops : ∀ a ∈ ops, isOperator a = true) :
    ops.map retypedKey = ops.map fun a => .operator (some a.toString) :=
  List.map_congr_left fun a ha => if_pos (hops a ha)

theorem Types.press_single (h : Types m text) {c : Char} (hc : isOperator c = false) :
    Types (m.press (retypedKey c)) (text ++ [c]) := by
  have hkey : retypedKey c = .number (some c.toString) := by simp [retypedKey, hc]
  obtain ⟨hexpression, hresult, -⟩ := h
  have hpress : m.press (retypedKey c) = typing (m.expression ++ c.toString) := by
    simp [hkey, press, pressNumber, hresult]
  rw [hpress]
  refine ⟨?_, rfl, rfl⟩
  simp [typing, hexpression]

/-- What an operator would be put behind on a machine whose formula ends with an operand, or does not. -/
theorem Types.operand?_eq (h : Types m text) (hlast : ∀ c ∈ text.getLast?, isOperator c = false) :
    m.operand? = if text.getLast?.all (· == '(') then none else some m.expression := by
  have hends : endsWithOperator m.expression = false := by
    rw [h.expression, endsWithOperator, lastChar?, String.toList_ofList, Option.any_eq_false]
    intro c hc
    simp [hlast c hc]
  have haccepts : acceptsOperator m.expression = !text.getLast?.all (· == '(') := by
    rw [h.expression, acceptsOperator, lastChar?, String.toList_ofList]
    cases hc : text.getLast? with
    | none => rfl
    | some c =>
      rw [Option.any_some, Option.all_some, hlast c hc]
      rfl
  rw [operand?, h.hasResult, haccepts, hends]
  cases text.getLast?.all (· == '(') <;> rfl

theorem Types.run_operators (h : Types m text) {ops : List Char} {last : Char}
    (hops : ∀ a ∈ ops, isOperator a = true) (hlast : isOperator last = true)
    (hbefore : ∀ c ∈ text.getLast?, isOperator c = false) :
    Types (m.run ((ops ++ [last]).map retypedKey)) (text ++ settledRun text.getLast? (ops ++ [last])) := by
  have hkeys : (ops ++ [last]).map retypedKey =
      (ops.map fun a => .operator (some a.toString)) ++ [.operator (some last.toString)] := by
    rw [List.map_append, map_retypedKey_operators hops, List.map_singleton, retypedKey, if_pos hlast]
  have hrun : m.run ((ops ++ [last]).map retypedKey) = m.pressOperator last.toString := by
    rw [hkeys, run_concat]
    exact m.run_operators_pressOperator hops last.toString
  rw [hrun, pressOperator_eq, h.operand?_eq hbefore, settledRun_operators _ hops hlast]
  split_ifs with hrefused
  · rw [List.append_nil]
    exact h
  · refine ⟨?_, rfl, rfl⟩
    simp [h.expression]

/-- Every run is typed as what is left of it. -/
theorem Types.run_runs (h : Types m text) {runs : List (List Char)} {before : Option Char}
    (hruns : ∀ run ∈ runs, IsRun run) (hparted : runs.IsChain Parted)
    (hbefore : ∀ run ∈ runs.head?, run.all isOperator = true →
      text.getLast? = before ∧ ∀ c ∈ before, isOperator c = false) :
    Types (m.run (runs.flatten.map retypedKey)) (text ++ settledRuns before runs) := by
  induction runs generalizing m text before with
  | nil =>
    rw [settledRuns, List.append_nil]
    exact h
  | cons run runs ih =>
    obtain ⟨hrun, hrest⟩ := List.forall_mem_cons.mp hruns
    obtain ⟨hnext, hborders⟩ := List.isChain_cons.mp hparted
    rw [settledRuns, List.flatten_cons, List.map_append, run_append, ← List.append_assoc]
    cases hrun with
    | single hc =>
      rename_i c
      rw [settledRun_single before hc]
      refine ih (h.press_single hc) hrest hborders fun next hmem _ => ?_
      simpa using hc
    | operators hops hlast =>
      rename_i ops last
      have hall : (ops ++ [last]).all isOperator = true := by
        rw [List.all_append, List.all_eq_true.mpr hops]
        simpa using hlast
      obtain ⟨hfront, hoperand⟩ := hbefore _ rfl hall
      subst hfront
      refine ih (h.run_operators hops hlast hoperand) hrest hborders fun next hmem hoperators => ?_
      -- behind a run of operators comes another character
      exfalso
      obtain ⟨hne, hne', hborder⟩ := hnext next hmem
      have hhead : isOperator (next.head hne') = true := List.all_eq_true.mp hoperators _ (List.head_mem hne')
      rw [List.getLast_append_of_right_ne_nil _ _ (List.cons_ne_nil last []), hhead] at hborder
      simp [hlast] at hborder

/-! ### Retyping -/

theorem retyping_eq (expression : String) :
    Keystroke.retyping expression = .clearAll :: (expression.toList.filter isRetyped).map retypedKey := by
  rw [Keystroke.retyping]
  congr 1
  induction expression.toList with
  | nil => rfl
  | cons c rest ih =>
    by_cases htyped : isTyped c = true
    · have hop := isOperator_eq_false_of_isTyped htyped
      have hkept : isRetyped c = true := by simp [isRetyped, htyped]
      rw [List.filterMap_cons_some (ofKeptChar?_of_isTyped htyped), List.filter_cons_of_pos hkept, List.map_cons, ih]
      simp [retypedKey, hop]
    · by_cases hop : isOperator c = true
      · have hkept : isRetyped c = true := by simp [isRetyped, hop]
        rw [List.filterMap_cons_some (ofKeptChar?_of_isOperator hop), List.filter_cons_of_pos hkept, List.map_cons,
          ih, retypedKey, if_pos hop]
      · have hkey : Keystroke.ofKeptChar? c = none := (if_neg htyped).trans (if_neg hop)
        have hkept : ¬isRetyped c = true := by simp [isRetyped, htyped, hop]
        rw [List.filterMap_cons_none hkey, List.filter_cons_of_neg hkept, ih]

theorem types_run_retyping (m : Machine) (expression : String) :
    Types (m.run (Keystroke.retyping expression)) (settled (expression.toList.filter isRetyped)) := by
  have hinitial : Types initial [] := ⟨rfl, rfl, rfl⟩
  have hflatten : (operatorRuns (expression.toList.filter isRetyped)).flatten = expression.toList.filter isRetyped :=
    List.flatten_splitBy _ _
  have hrun : m.run (Keystroke.retyping expression) =
      initial.run ((operatorRuns (expression.toList.filter isRetyped)).flatten.map retypedKey) := by
    rw [hflatten, retyping_eq]
    rfl
  rw [hrun]
  exact hinitial.run_runs (fun run => isRun_of_mem) (parted_operatorRuns _) fun _ _ _ =>
    ⟨rfl, fun _ h => nomatch h⟩

theorem completions_retyping (m : Machine) (expression : String) :
    m.completions (Keystroke.retyping expression) = [] := by
  rw [List.eq_nil_iff_forall_not_mem]
  intro c hc
  obtain ⟨before, k, hstart, hcompletion⟩ := exists_of_mem_completions hc
  obtain ⟨rfl, -⟩ := completion?_eq_some_iff.mp hcompletion
  have hmem : Keystroke.equals ∈ before ++ [Keystroke.equals] := by simp
  exact Keystroke.equals_not_mem_retyping expression (hstart.subset hmem)

/-- Whether a character may stand behind another one: an operator behind an operand alone. -/
def MayFollow (a b : Char) : Prop :=
  isOperator b = true → isOperator a = false ∧ a ≠ '('

instance (a b : Char) : Decidable (MayFollow a b) :=
  inferInstanceAs (Decidable (isOperator b = true → isOperator a = false ∧ a ≠ '('))

theorem retypable_of_isChain {text : List Char} (hkept : ∀ c ∈ text, isRetyped c = true)
    (hhead : ∀ c ∈ text.head?, isOperator c = false) (hchain : text.IsChain MayFollow) :
    EachAfter Retypable text := by
  intro before c hstart
  have hc : isRetyped c = true := hkept c (hstart.subset (by simp))
  rw [isRetyped, Bool.or_eq_true] at hc
  rcases hc with htyped | hop
  · exact .typed htyped
  · refine .operator hop ?_
    obtain ⟨after, rfl⟩ := hstart
    rcases List.eq_nil_or_concat before with rfl | ⟨front, a, rfl⟩
    · rw [hhead c (by simp)] at hop
      cases hop
    · have hborder : MayFollow a c := by
        rw [List.concat_eq_append, List.append_assoc, List.append_assoc, List.singleton_append, List.singleton_append,
          List.isChain_append_cons_cons] at hchain
        exact hchain.2.1
      obtain ⟨ha, hopening⟩ := hborder hop
      simp [acceptsOperator, lastChar?, ha, hopening]

/-- **What retyping types**: on any machine, what is left of the formula once its operators are settled, with no
answer, no message and nothing reported; a formula in which every operator has an operand in front of it, and of
which every character is typed again, comes back as it was. -/
theorem run_retyping_settled (m : Machine) (expression : String) :
    let retyped := m.run (Keystroke.retyping expression)
    retyped.expression = String.ofList (settled (expression.toList.filter isRetyped)) ∧
      retyped.hasResult = false ∧ retyped.error = none ∧ m.completions (Keystroke.retyping expression) = [] ∧
      ((∀ c ∈ expression.toList, isRetyped c = true) → (∀ c ∈ expression.toList.head?, isOperator c = false) →
        expression.toList.IsChain MayFollow → retyped.expression = expression) := by
  intro retyped
  obtain ⟨hexpression, hresult, herror⟩ := types_run_retyping m expression
  refine ⟨hexpression, hresult, herror, completions_retyping m expression, fun hkept hhead hchain => ?_⟩
  have hshows := shows_run_retyped (retypable_of_isChain hkept hhead hchain) (m := initial) ⟨rfl, rfl⟩
  rw [String.ofList_toList] at hshows
  exact hshows.1

theorem run_retyping_product :
    let m : Machine := ⟨"1÷0", "9", false, some "Cannot divide by zero"⟩
    (∀ c ∈ "12.5×(3−1)".toList, isRetyped c = true) ∧ (∀ c ∈ "12.5×(3−1)".toList.head?, isOperator c = false) ∧
      "12.5×(3−1)".toList.IsChain MayFollow ∧ (m.run (Keystroke.retyping "12.5×(3−1)")).expression = "12.5×(3−1)" := by
  intro m
  have hkept : ∀ c ∈ "12.5×(3−1)".toList, isRetyped c = true := by
    simp [isRetyped, isTyped, isOperator, operators]
  have hhead : ∀ c ∈ "12.5×(3−1)".toList.head?, isOperator c = false := by
    simp [isOperator, operators]
  have hchain : "12.5×(3−1)".toList.IsChain MayFollow := by decide +kernel
  exact ⟨hkept, hhead, hchain, (run_retyping_settled m "12.5×(3−1)").2.2.2.2 hkept hhead hchain⟩

end Machine
end Reckoner
