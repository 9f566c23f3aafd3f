import Mathlib.Data.List.Induction
import Reckoner.Keystroke.Reading
import Reckoner.Proofs.Machine.Completions

/-!
# Typed formulas

A formula typed word by word on a fresh machine is the formula that its words spell, as long as no word is
typed where the machine would refuse it or put it in another's place (`Typable`): an operator needs an operand
in front of it, and a term has one point at most. Both conditions are about the words alone. That the machine's
own questions about its text have the same answers is `acceptsOperator_formula` and `acceptsDecimal_formula`,
so every word of a typable formula is appended (`press_key`), and `equals` then shows what evaluating the text
at once would show.
-/

namespace Reckoner

/-- An operator of the display, which can be typed in ASCII too. -/
inductive DisplayOperator
  | plus
  | minus
  | times
  | over
  deriving DecidableEq, Repr

namespace DisplayOperator

def glyph : DisplayOperator → Char
  | .plus => '+'
  | .minus => '−'
  | .times => '×'
  | .over => '÷'

def ascii : DisplayOperator → Char
  | .plus => '+'
  | .minus => '-'
  | .times => '*'
  | .over => '/'

end DisplayOperator

/-- A word that puts something into the formula. -/
inductive FormulaWord
  | digit (d : Fin 10)
  | point
  | operator (op : DisplayOperator) (inAscii : Bool)
  | caret
  | opening
  | closing
  | func (f : Func)
  deriving DecidableEq, Repr

namespace FormulaWord

/-- The word as it is typed. -/
def word : FormulaWord → String
  | .digit d => (Nat.digitChar d).toString
  | .point => "."
  | .operator op inAscii => (if inAscii then op.ascii else op.glyph).toString
  | .caret => "^"
  | .opening => "("
  | .closing => ")"
  | .func f => f.name

/-- What the word puts into the formula. -/
def text : FormulaWord → String
  | .digit d => (Nat.digitChar d).toString
  | .point => "."
  | .operator op _ => op.glyph.toString
  | .caret => "^"
  | .opening => "("
  | .closing => ")"
  | .func f => f.name ++ "("

def key : FormulaWord → Keystroke
  | .point => .decimal
  | .operator op _ => .operator (some op.glyph.toString)
  | .func f => .function (some f.name)
  | w => .number (some w.word)

/-- Whether an operator may follow the word. -/
def endsOperand : FormulaWord → Bool
  | .operator _ _ | .opening | .func _ => false
  | _ => true

/-- Whether the word ends the term in front of it. -/
def endsTerm : FormulaWord → Bool
  | .digit _ | .point => false
  | _ => true

/-- The words of the term being typed. -/
def currentTerm (words : List FormulaWord) : List FormulaWord :=
  (words.reverse.takeWhile (!·.endsTerm)).reverse

/-- Whether a word may follow other words. -/
def mayFollow (before : List FormulaWord) : FormulaWord → Bool
  | .operator _ _ => before.getLast?.any endsOperand
  | .point => !(currentTerm before).contains .point
  | _ => true

/-- Every word may follow the words in front of it. -/
def Typable (words : List FormulaWord) : Prop :=
  ∀ i, ∀ h : i < words.length, mayFollow (words.take i) words[i] = true

instance (words : List FormulaWord) : Decidable (Typable words) :=
  inferInstanceAs (Decidable (∀ i, ∀ h : i < words.length, mayFollow (words.take i) words[i] = true))

/-- The formula that words spell. -/
def formula (words : List FormulaWord) : String :=
  String.join (words.map text)

theorem formula_concat (words : List FormulaWord) (w : FormulaWord) :
    formula (words ++ [w]) = formula words ++ w.text := by
  simp [formula, String.join]

theorem Typable.of_concat {words : List FormulaWord} {w : FormulaWord} (h : Typable (words ++ [w])) :
    Typable words ∧ mayFollow words w = true := by
  constructor
  · intro i hi
    have hstep := h i (by simp; omega)
    rwa [List.take_append_of_le_length (by omega), List.getElem_append_left hi] at hstep
  · simpa using h words.length (by simp)

theorem ofWord?_word (w : FormulaWord) : Keystroke.ofWord? w.word = some w.key := by
  cases w with
  | digit d => decide +revert
  | operator op inAscii => cases op <;> cases inAscii <;> decide
  | func f => cases f <;> decide
  | _ => decide

/-! ### What the machine asks about its text -/

/-- The last character that the word puts into the formula; it tells the machine what may follow. -/
def lastChar : FormulaWord → Char
  | .digit d => Nat.digitChar d
  | .point => '.'
  | .operator op _ => op.glyph
  | .caret => '^'
  | .opening | .func _ => '('
  | .closing => ')'

theorem exists_text_eq (w : FormulaWord) : ∃ init, w.text.toList = init ++ [w.lastChar] := by
  cases w with
  | func f => exact ⟨f.name.toList, String.toList_append⟩
  | _ => exact ⟨[], by simp [text, lastChar]⟩

theorem endsOperand_eq (w : FormulaWord) :
    w.endsOperand = (!Typing.isOperator w.lastChar && w.lastChar != '(') := by
  cases w with
  | digit d => decide +revert
  | operator op _ => cases op <;> rfl
  | _ => rfl

theorem endsTerm_eq (w : FormulaWord) : w.endsTerm = Typing.isTermBoundary w.lastChar := by
  cases w with
  | digit d => decide +revert
  | operator op _ => cases op <;> rfl
  | _ => rfl

theorem text_of_not_endsTerm {w : FormulaWord} (h : w.endsTerm = false) :
    w.text.toList = [w.lastChar] ∧ ('.' = w.lastChar ↔ .point = w) := by
  cases w with
  | digit d => exact ⟨by simp [text, lastChar], by decide +revert⟩
  | point => exact ⟨by simp [text, lastChar], by decide⟩
  | _ => cases h

theorem acceptsOperator_formula (words : List FormulaWord) :
    Typing.acceptsOperator (formula words) = words.getLast?.any endsOperand := by
  rcases List.eq_nil_or_concat words with rfl | ⟨words, w, rfl⟩
  · decide
  · obtain ⟨init, htext⟩ := w.exists_text_eq
    rw [List.concat_eq_append, formula_concat, Typing.acceptsOperator, Typing.lastChar?, String.toList_append, htext,
      ← List.append_assoc, List.getLast?_concat, List.getLast?_concat]
    exact w.endsOperand_eq.symm

theorem mem_currentTerm_formula (words : List FormulaWord) :
    '.' ∈ (Typing.currentTerm (formula words)).toList ↔ .point ∈ currentTerm words := by
  simp only [Typing.currentTerm, currentTerm, String.toList_ofList, List.mem_reverse]
  induction words using List.reverseRecOn with
  | nil => decide
  | append_singleton words w ih =>
    rw [formula_concat, String.toList_append, List.reverse_append, List.reverse_append, List.reverse_singleton,
      List.singleton_append, List.takeWhile_cons]
    cases hends : w.endsTerm with
    | true =>
      obtain ⟨init, htext⟩ := w.exists_text_eq
      rw [endsTerm_eq] at hends
      simp [htext, hends]
    | false =>
      obtain ⟨htext, hpoint⟩ := text_of_not_endsTerm hends
      rw [endsTerm_eq] at hends
      simp [htext, hends, ih, hpoint]

theorem acceptsDecimal_formula (words : List FormulaWord) :
    Typing.acceptsDecimal (formula words) = !(currentTerm words).contains .point := by
  rw [Typing.acceptsDecimal]
  congr 1
  rw [Bool.eq_iff_iff, List.contains_iff_mem, List.contains_iff_mem]
  exact mem_currentTerm_formula words

/-! ### Typing -/

open Machine (Shows)

/-- A word that may follow is appended. -/
theorem press_key {m : Machine} {words : List FormulaWord} {w : FormulaWord} (hm : Shows m (formula words))
    (hw : mayFollow words w = true) : Shows (m.press w.key) (formula (words ++ [w])) := by
  obtain ⟨expression, result, hasResult, error⟩ := m
  obtain ⟨rfl, rfl⟩ := hm
  rw [formula_concat]
  cases w with
  | operator op _ =>
    have haccepts : Typing.acceptsOperator (formula words) = true := (acceptsOperator_formula words).trans hw
    simp [key, Machine.press, Machine.pressOperator, haccepts, Shows, text]
  | point =>
    have haccepts : Typing.acceptsDecimal (formula words) = true := (acceptsDecimal_formula words).trans hw
    simp [key, Machine.press, Machine.pressDecimal, haccepts, Shows, text, Machine.typing]
  | func f =>
    have hname : ¬(f.name = "(" ∨ f.name = ")") := by cases f <;> decide
    simp [key, Machine.press, Machine.pressFunction, hname, Shows, text, String.append_assoc]
  | _ => simp [key, Machine.press, Machine.pressNumber, Shows, text, word, Machine.typing]

theorem run_keys {words : List FormulaWord} (h : Typable words) :
    Shows (Machine.initial.run (words.map key)) (formula words) := by
  induction words using List.reverseRecOn with
  | nil => exact ⟨rfl, rfl⟩
  | append_singleton words w ih =>
    obtain ⟨hwords, hw⟩ := h.of_concat
    rw [List.map_append, Machine.run_append]
    exact press_key (ih hwords) hw

/-- What `equals` shows below a formula is what evaluating its text shows. -/
theorem shownValue_press_equals {m : Machine} (h : m.expression ≠ "") :
    (m.press .equals).shownValue = evaluateToText m.expression := by
  rw [Machine.press, Machine.pressEquals, if_neg h, evaluateToText]
  cases evaluate m.expression <;> rfl

theorem formula_ne_empty {words : List FormulaWord} (h : words ≠ []) : formula words ≠ "" := by
  obtain ⟨init, w, rfl⟩ := List.eq_nil_or_concat words |>.resolve_left h
  obtain ⟨start, htext⟩ := w.exists_text_eq
  intro hempty
  have hlist := congrArg String.toList hempty
  simp [formula_concat, htext] at hlist

/-- **A formula typed word by word is the formula its words spell**, and `equals` shows what evaluating it at once
shows. -/
theorem typed_formula {words : List FormulaWord} (hne : words ≠ []) (h : Typable words) :
    ∃ keys, words.mapM (fun w => Keystroke.ofWord? w.word) = some keys ∧
      (Machine.initial.run keys).expression = formula words ∧
      ((Machine.initial.run keys).press .equals).shownValue = evaluateToText (formula words) := by
  have hkeys : words.mapM (fun w => Keystroke.ofWord? w.word) = some (words.map key) := by
    simp only [ofWord?_word]
    exact List.mapM_pure
  obtain ⟨hexpression, -⟩ := run_keys h
  refine ⟨words.map key, hkeys, hexpression, ?_⟩
  rw [← hexpression]
  refine shownValue_press_equals ?_
  rw [hexpression]
  exact formula_ne_empty hne

theorem typed_two_times_root :
    let words : List FormulaWord :=
      [.digit 2, .point, .digit 5, .operator .times true, .func .sqrt, .digit 1, .digit 6, .closing]
    words ≠ [] ∧ Typable words ∧ formula words = "2.5×sqrt(16)" ∧
      ∃ keys, words.mapM (fun w => Keystroke.ofWord? w.word) = some keys ∧
        (Machine.initial.run keys).expression = "2.5×sqrt(16)" ∧
        ((Machine.initial.run keys).press .equals).shownValue = "10" := by
  intro words
  have hne : words ≠ [] := by decide
  have htypable : Typable words := by decide
  have hformula : formula words = "2.5×sqrt(16)" := by decide
  have hvalue : evaluateToText "2.5×sqrt(16)" = "10" := by decide +kernel
  obtain ⟨keys, hkeys, hexpression, hshown⟩ := typed_formula hne htypable
  rw [hformula] at hexpression hshown
  exact ⟨hne, htypable, hformula, keys, hkeys, hexpression, hshown.trans hvalue⟩

end FormulaWord
end Reckoner
