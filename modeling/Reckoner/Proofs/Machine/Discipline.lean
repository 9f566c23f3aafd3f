import Mathlib
import Reckoner.Proofs.Expression.Runs
import Reckoner.Proofs.Keystroke.Keyboard
import Reckoner.Proofs.Machine.Retyping

/-!
# Operators and points in a typed formula

What the keyboard types is `Orderly`: an operator stands behind an operand, and a point in a term without one. The
machine asks for both before it appends an operator or a point, an answer that is put in front of an operator is
orderly itself, and everything else either appends characters that are neither or cuts the formula short. So the
rule is kept by every key (`run_orderly`). What it says of a whole formula is read off it: no operator at the start,
behind another one or behind an opening parenthesis (`operators_follow_operands`), and no stretch within a term with
a second point, so that a point by itself is all that can keep the formula from having tokens (`points_in_terms`).
-/

namespace Reckoner

namespace Typing

/-- What may stand behind what: an operator behind an operand, a point in a term that has none. -/
structure Orderly (before : List Char) (c : Char) : Prop where
  operator : isOperator c = true → acceptsOperator (String.ofList before) = true
  point : c = '.' → acceptsDecimal (String.ofList before) = true

variable {text before : List Char} {c : Char}

theorem orderly_of_neither (hop : isOperator c = false) (hpoint : c ≠ '.') : Orderly before c := by
  constructor
  · intro h
    rw [hop] at h
    cases h
  · exact fun h => absurd h hpoint

/-! ### Operators -/

theorem isOperator_head (h : EachAfter Orderly text) : ∀ c ∈ text.head?, isOperator c = false := by
  intro c hc
  obtain ⟨rest, rfl⟩ := List.head?_eq_some_iff.mp hc
  by_contra hop
  have haccepts := (h [] c ⟨rest, rfl⟩).operator (by simpa using hop)
  simp [acceptsOperator, lastChar?] at haccepts

theorem neighbour_of_operator (h : EachAfter Orderly text) {a b : Char} (hab : [a, b] <:+: text)
    (hb : isOperator b = true) : isOperator a = false ∧ a ≠ '(' := by
  obtain ⟨before, after, htext⟩ := hab
  have hstart : before ++ [a] ++ [b] <+: text := ⟨after, by simpa using htext⟩
  simpa [acceptsOperator, lastChar?] using (h _ _ hstart).operator hb

/-- Where the last operator stood another one may stand. -/
theorem acceptsOperator_withoutLastChar {text : String} (h : EachAfter Orderly text.toList)
    (hends : endsWithOperator text = true) : acceptsOperator (withoutLastChar text) = true := by
  obtain ⟨c, hop, htext⟩ := exists_of_endsWithOperator hends
  rw [htext, eachAfter_concat] at h
  simpa using h.2.operator hop

/-! ### Points -/

theorem acceptsDecimal_of_not_mem (h : '.' ∉ text) : acceptsDecimal (String.ofList text) = true := by
  have hterm : '.' ∉ (text.reverse.takeWhile (!isTermBoundary ·)).reverse := by
    rw [List.mem_reverse]
    intro hmem
    exact h (List.mem_reverse.mp ((List.takeWhile_sublist _).subset hmem))
  simpa [acceptsDecimal, currentTerm] using hterm

/-- Characters at the end of a text with no boundary among them belong to the term being typed. -/
theorem not_mem_of_acceptsDecimal {stretch : List Char}
    (h : acceptsDecimal (String.ofList (before ++ stretch)) = true)
    (hterm : ∀ c ∈ stretch, isTermBoundary c = false) : '.' ∉ stretch := by
  intro hpoint
  have hstretch : ∀ c ∈ stretch.reverse, (!isTermBoundary c) = true := by
    intro c hc
    simp [hterm c (List.mem_reverse.mp hc)]
  simp only [acceptsDecimal, currentTerm, String.toList_ofList, List.reverse_append,
    List.takeWhile_append_of_pos hstretch] at h
  simp [hpoint] at h

/-- A stretch without a boundary has one point at most. -/
theorem count_point_stretch (h : EachAfter Orderly text) {stretch : List Char} (hstretch : stretch <:+: text)
    (hterm : ∀ c ∈ stretch, isTermBoundary c = false) : stretch.count '.' ≤ 1 := by
  induction stretch using List.reverseRecOn with
  | nil => simp
  | append_singleton start c ih =>
    have hstart : ∀ c ∈ start, isTermBoundary c = false := fun c hc => hterm c (List.mem_append_left _ hc)
    by_cases hc : c = '.'
    · -- where the last point stood, the term had none
      obtain ⟨before, after, htext⟩ := hstretch
      have hprefix : (before ++ start) ++ [c] <+: text := ⟨after, by simpa using htext⟩
      have hnone := not_mem_of_acceptsDecimal ((h _ _ hprefix).point hc) hstart
      simp [List.count_eq_zero.mpr hnone, hc]
    · have hcount := ih ((List.prefix_append start [c]).isInfix.trans hstretch) hstart
      simpa [List.count_append, hc] using hcount

/-! ### Runs of the plain form -/

theorem isTermBoundary_iff :
    isTermBoundary c = true ↔ c ∈ ['+', '−', '×', '÷', '(', ')', '^'] := by
  simp [isTermBoundary, isOperator, operators, or_assoc]

theorem plainChar_eq_point_iff : PlainForm.plainChar c = '.' ↔ c = '.' := by
  unfold PlainForm.plainChar
  split <;> simp

/-- A run of digits and points in the plain form comes from a stretch of the text within a term. -/
theorem exists_stretch {run : List Char} (h : run <:+: PlainForm.plain text)
    (hrun : ∀ c ∈ run, Decimal.isNumeralChar c = true) :
    ∃ stretch, stretch <:+: text ∧ (∀ c ∈ stretch, isTermBoundary c = false) ∧
      run.count '.' = stretch.count '.' := by
  obtain ⟨before, after, hplain⟩ := h
  rw [PlainForm.plain, eq_comm, List.map_eq_append_iff] at hplain
  obtain ⟨_, _, hfilter, hmap, -⟩ := hplain
  obtain ⟨_, kept, rfl, -, rfl⟩ := List.map_eq_append_iff.mp hmap
  obtain ⟨_, _, rfl, hfilter, -⟩ := List.filter_eq_append_iff.mp hfilter
  obtain ⟨start, stretch, rfl, -, rfl⟩ := List.filter_eq_append_iff.mp hfilter
  refine ⟨stretch, (List.suffix_append start stretch).isInfix.trans (List.prefix_append _ _).isInfix, ?_, ?_⟩
  · intro c hc
    rw [Bool.eq_false_iff]
    intro hboundary
    have hkind : Text.isBlank c = false ∧ Decimal.isNumeralChar (PlainForm.plainChar c) = false := by
      rw [isTermBoundary_iff] at hboundary
      fin_cases hboundary <;> decide
    have hkept : PlainForm.plainChar c ∈ (stretch.filter (!Text.isBlank ·)).map PlainForm.plainChar :=
      List.mem_map_of_mem (List.mem_filter.mpr ⟨hc, by simp [hkind.1]⟩)
    rw [hrun _ hkept] at hkind
    cases hkind.2
  · have hpoint : (· == '.') ∘ PlainForm.plainChar = (· == '.') := by
      funext c
      rw [Function.comp_apply, Bool.eq_iff_iff, beq_iff_eq, beq_iff_eq, plainChar_eq_point_iff]
    rw [List.count, List.countP_map, hpoint]
    exact List.count_filter (by decide)

end Typing

namespace Machine

open Typing

theorem kept_orderly : Kept Orderly where
  operator before c hop := by
    refine ⟨fun h => h.operator hop, fun h => ⟨fun _ => h, ?_⟩⟩
    rintro rfl
    cases hop
  point before h := ⟨fun hop => (nomatch hop), fun _ => h⟩
  answer a before c hstart := by
    constructor
    · intro hop
      exact (kept_fourFunction.operator before c hop).mp (eachAfter_answer a before c hstart)
    · rintro rfl
      have hcount := (hstart.sublist.count_le '.').trans a.count_point_chars
      rw [List.count_append, List.count_singleton_self] at hcount
      exact acceptsDecimal_of_not_mem (List.count_eq_zero.mp (by omega))

theorem orderly_of_isPlainKey {before : List Char} {c : Char} (h : Keystroke.isPlainKey c = true) :
    Orderly before c := by
  apply orderly_of_neither
  · rw [Bool.eq_false_iff, ne_eq, isOperator_iff]
    rintro (rfl | rfl | rfl | rfl) <;> cases h
  · rintro rfl
    cases h

theorem obeys_orderly {k : Keystroke} (h : k.OnKeyboard) : Obeys Orderly k := by
  cases h with
  | @plain c hc =>
    intro before
    have hglyph : c.toString.toList = [c] := by simp
    rw [hglyph, eachAfter_singleton]
    exact orderly_of_isPlainKey hc
  | @operator c hop => exact ⟨c, hop, rfl⟩
  | function f =>
    have hname : f.name ≠ "(" ∧ f.name ≠ ")" ∧
        ∀ c ∈ (f.name ++ "(").toList, isOperator c = false ∧ c ≠ '.' := by
      cases f <;> simp [Func.name, isOperator, operators]
    exact ⟨hname.1, hname.2.1, fun before => eachAfter_of_forall fun c hc _ =>
      orderly_of_neither (hname.2.2 c hc).1 (hname.2.2 c hc).2⟩
  | _ => trivial

variable {keys : List Keystroke}

/-- What is typed on the keyboard is orderly. -/
theorem run_orderly (hkeys : ∀ k ∈ keys, ∃ word, Keystroke.ofWord? word = some k) :
    EachAfter Orderly (initial.run keys).expression.toList := by
  refine run_eachAfter kept_orderly fun k hk => ?_
  obtain ⟨word, hword⟩ := hkeys k hk
  exact obeys_orderly (Keystroke.onKeyboard_of_ofWord? hword)

/-- A last operator gives way to another. -/
theorem press_operator_of_endsWithOperator {m : Machine} (hresult : m.hasResult = false)
    (hends : endsWithOperator m.expression = true) (text : String) :
    (m.press (.operator (some text))).expression = withoutLastChar m.expression ++ text := by
  have hrefused : acceptsOperator m.expression = false := by
    obtain ⟨c, hop, htext⟩ := exists_of_endsWithOperator hends
    simp [acceptsOperator, lastChar?, htext, hop]
  simp [press, pressOperator, hresult, hrefused, hends]

/-- **An operator follows an operand**: whatever is typed on the keyboard, no operator stands at the start of the
formula, behind another operator or behind an opening parenthesis, and where a last operator gives way to another
there is an operand in front of it. -/
theorem operators_follow_operands (hkeys : ∀ k ∈ keys, ∃ word, Keystroke.ofWord? word = some k) :
    let m := initial.run keys
    (∀ c ∈ m.expression.toList.head?, isOperator c = false) ∧
      (∀ a b, [a, b] <:+: m.expression.toList → isOperator b = true → isOperator a = false ∧ a ≠ '(') ∧
      (m.hasResult = false → endsWithOperator m.expression = true → ∀ text,
        (m.press (.operator (some text))).expression = withoutLastChar m.expression ++ text ∧
          acceptsOperator (withoutLastChar m.expression) = true) := by
  intro m
  have horderly := run_orderly hkeys
  refine ⟨isOperator_head horderly, fun a b hab hb => neighbour_of_operator horderly hab hb, ?_⟩
  intro hresult hends text
  exact ⟨press_operator_of_endsWithOperator hresult hends text, acceptsOperator_withoutLastChar horderly hends⟩

/-- The plus sign of an exponent counts as an operator too, once the answer is part of the formula. -/
theorem operators_in_exponent :
    let large : List Keystroke := .number (some "1") :: List.replicate 21 (.number (some "0"))
    let keys : List Keystroke := large ++ .equals :: .operator (some "+") :: List.replicate 3 .backspace
    let m := initial.run keys
    (∀ k ∈ keys, ∃ word, Keystroke.ofWord? word = some k) ∧ m.expression = "1e+" ∧
      (m.press (.operator (some "×"))).expression = "1e" ++ "×" ∧ acceptsOperator "1e" = true := by
  intro large keys m
  have hwords : ∀ k ∈ keys, ∃ word ∈ ["1", "0", "=", "+", "Backspace"], Keystroke.ofWord? word = some k := by
    decide +kernel
  have hkeys : ∀ k ∈ keys, ∃ word, Keystroke.ofWord? word = some k :=
    fun k hk => (hwords k hk).imp fun _ h => h.2
  have hexpression : m.expression = "1e+" := by decide +kernel
  have hresult : m.hasResult = false := by decide +kernel
  have hends : endsWithOperator m.expression = true := by
    rw [hexpression]
    decide +kernel
  have hcut : withoutLastChar m.expression = "1e" := by
    rw [hexpression]
    decide +kernel
  obtain ⟨hreplaced, haccepts⟩ := (operators_follow_operands hkeys).2.2 hresult hends "×"
  rw [show withoutLastChar (initial.run keys).expression = "1e" from hcut] at hreplaced haccepts
  exact ⟨hkeys, hexpression, hreplaced, haccepts⟩

/-- **A term has one point at most**: whatever is typed on the keyboard, no stretch of the formula without a boundary
has two points, and if the formula has a plain form, it has tokens unless a point stands by itself there. -/
theorem points_in_terms (hkeys : ∀ k ∈ keys, ∃ word, Keystroke.ofWord? word = some k) :
    let text := (initial.run keys).expression.toList
    (∀ stretch, stretch <:+: text → (∀ c ∈ stretch, isTermBoundary c = false) → stretch.count '.' ≤ 1) ∧
      ∀ form, PlainForm.ofText? text = some form →
        (Token.ofText? form = none ↔ Lexeme.HasLonePoint form) := by
  intro text
  have horderly := run_orderly hkeys
  refine ⟨fun stretch => count_point_stretch horderly, fun form hform => ?_⟩
  apply PlainForm.ofText?_eq_none_iff_hasLonePoint hform
  intro run hrun hnumeral
  obtain ⟨-, -, before, after, hplain, -, -⟩ := Lexeme.mem_split_iff.mp hrun
  obtain ⟨stretch, hstretch, hterm, hcount⟩ := exists_stretch ⟨before, after, hplain.symm⟩ hnumeral
  rw [hcount]
  exact count_point_stretch horderly hstretch hterm

theorem points_behind_answer :
    let keys : List Keystroke :=
      [.number (some "1"), .decimal, .number (some "5"), .equals, .operator (some "+"), .decimal]
    let text := (initial.run keys).expression.toList
    (∀ k ∈ keys, ∃ word, Keystroke.ofWord? word = some k) ∧ text = "1.5+.".toList ∧
      ("1.5".toList <:+: text ∧ (∀ c ∈ "1.5".toList, isTermBoundary c = false) ∧ "1.5".toList.count '.' ≤ 1) ∧
      PlainForm.ofText? text = some "1.5+.".toList ∧ Token.ofText? "1.5+.".toList = none ∧
      Lexeme.HasLonePoint "1.5+.".toList := by
  intro keys text
  have hwords : ∀ k ∈ keys, ∃ word ∈ ["1", ".", "5", "=", "+"], Keystroke.ofWord? word = some k := by
    decide +kernel
  have hkeys : ∀ k ∈ keys, ∃ word, Keystroke.ofWord? word = some k :=
    fun k hk => (hwords k hk).imp fun _ h => h.2
  have htext : text = "1.5+.".toList := by decide +kernel
  have hstretch : "1.5".toList <:+: text := by
    rw [htext]
    decide +kernel
  have hterm : ∀ c ∈ "1.5".toList, isTermBoundary c = false := by
    simp [isTermBoundary, isOperator, operators]
  have hform : PlainForm.ofText? text = some "1.5+.".toList := by
    rw [htext]
    decide +kernel
  have hnone : Token.ofText? "1.5+.".toList = none := by
    rw [← Option.not_isSome_iff_eq_none]
    decide +kernel
  obtain ⟨hone, htokens⟩ := points_in_terms hkeys
  exact ⟨hkeys, htext, ⟨hstretch, hterm, hone _ hstretch hterm⟩, hform, hnone, (htokens _ hform).mp hnone⟩

end Machine
end Reckoner
