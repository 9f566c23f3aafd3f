import Mathlib
import Reckoner.Proofs.Machine.Absorption
import Reckoner.Proofs.Machine.Discipline

/-!
# The term being typed

Two questions are asked about the end of a formula, and they part it at different places. Whether a point may be typed
is decided by the longest end of the text without operator, parenthesis or caret. What a clearing takes back begins
behind the last operator or opening parenthesis of the first line. On one line, the former is an end of the latter, and
the two are one unless a closing parenthesis or a caret stands in what would be cleared (`terms_parted`).
-/

namespace Reckoner

namespace Typing

/-- The longest text with a property; without any such text, the empty one. -/
structure IsLongest (P : List Char → Prop) (longest : List Char) : Prop where
  holds_or_empty : P longest ∨ longest = [] ∧ ∀ other, ¬P other
  length_le : ∀ other, P other → other.length ≤ longest.length

/-- The first line of a text: all of it, or what stands in front of its first line feed. -/
def IsFirstLine (line text : List Char) : Prop :=
  '\n' ∉ line ∧ (text = line ∨ ∃ more, text = line ++ '\n' :: more)

/-- A text is an end of another one without operators, parentheses and carets. -/
def IsTermOf (text term : List Char) : Prop :=
  term <:+ text ∧ ∀ c ∈ term, c ∉ ['+', '−', '×', '÷', '(', ')', '^']

/-- A text is a start of a line and ends with an operator or an opening parenthesis. -/
def IsFrontOf (line front : List Char) : Prop :=
  front <+: line ∧ ∃ c ∈ front.getLast?, c ∈ ['+', '−', '×', '÷', '(']

/-! ### Longest ends and starts -/

section

variable {α : Type} {p : α → Bool} {l more : List α}

theorem isPrefix_takeWhile (h : more <+: l) (hmore : ∀ a ∈ more, p a = true) : more <+: l.takeWhile p := by
  obtain ⟨rest, rfl⟩ := h
  rw [List.takeWhile_append_of_pos hmore]
  exact List.prefix_append more _

theorem isSuffix_rtakeWhile (h : more <:+ l) (hmore : ∀ a ∈ more, p a = true) : more <:+ l.rtakeWhile p := by
  have hreverse : more.reverse <+: l.reverse.takeWhile p :=
    isPrefix_takeWhile (List.reverse_prefix.mpr h) fun a ha => hmore a (List.mem_reverse.mp ha)
  rwa [← List.reverse_suffix, List.reverse_reverse] at hreverse

/-- What ends with an element to be kept is kept. -/
theorem isPrefix_rdropWhile (h : more <+: l) {a : α} (ha : a ∈ more.getLast?) (hkeep : p a = false) :
    more <+: l.rdropWhile p := by
  obtain ⟨rest, rfl⟩ := h
  induction rest using List.reverseRecOn with
  | nil =>
    obtain ⟨init, rfl⟩ := List.getLast?_eq_some_iff.mp ha
    rw [List.append_nil, List.rdropWhile_concat_neg p init a (by simp [hkeep])]
  | append_singleton rest b ih =>
    rw [← List.append_assoc, List.rdropWhile_concat]
    split
    · exact ih
    · rw [List.append_assoc]
      exact List.prefix_append more _

end

variable (text : String)

theorem toList_currentTerm : (currentTerm text).toList = text.toList.rtakeWhile (!isTermBoundary ·) := by
  rw [currentTerm, String.toList_ofList]
  rfl

theorem toList_beforeCurrentTerm :
    (beforeCurrentTerm text).toList = (text.toList.takeWhile (· != '\n')).rdropWhile (!opensTerm ·) := by
  simp only [beforeCurrentTerm, String.toList_ofList]
  rfl

theorem opensTerm_iff {c : Char} : opensTerm c = true ↔ c ∈ ['+', '−', '×', '÷', '('] := by
  simp [opensTerm, isOperator, operators, or_assoc]

theorem isLongest_currentTerm : IsLongest (IsTermOf text.toList) (currentTerm text).toList := by
  rw [toList_currentTerm]
  constructor
  · refine Or.inl ⟨List.rtakeWhile_suffix _ _, fun c hc hboundary => ?_⟩
    have hterm := List.mem_rtakeWhile_imp hc
    rw [isTermBoundary_iff.mpr hboundary] at hterm
    cases hterm
  · rintro other ⟨hother, hchars⟩
    refine (isSuffix_rtakeWhile hother fun c hc => ?_).length_le
    rw [Bool.not_eq_true', Bool.eq_false_iff, ne_eq, isTermBoundary_iff]
    exact hchars c hc

theorem takeWhile_of_isFirstLine {line text : List Char} (h : IsFirstLine line text) :
    text.takeWhile (· != '\n') = line := by
  obtain ⟨hline, htext⟩ := h
  have hkeep : ∀ c ∈ line, (c != '\n') = true := by
    intro c hc
    rw [bne_iff_ne]
    rintro rfl
    exact hline hc
  rcases htext with rfl | ⟨more, rfl⟩
  · exact List.takeWhile_eq_self_iff.mpr hkeep
  · rw [List.takeWhile_append_of_pos hkeep, List.takeWhile_cons_of_neg (by decide), List.append_nil]

theorem isLongest_beforeCurrentTerm {line : List Char} (h : IsFirstLine line text.toList) :
    IsLongest (IsFrontOf line) (beforeCurrentTerm text).toList := by
  rw [toList_beforeCurrentTerm, takeWhile_of_isFirstLine h]
  have hlongest : ∀ other, IsFrontOf line other → other <+: line.rdropWhile (!opensTerm ·) := by
    rintro other ⟨hother, c, hc, hopens⟩
    refine isPrefix_rdropWhile hother hc ?_
    rw [opensTerm_iff.mpr hopens]
    rfl
  constructor
  · by_cases hempty : line.rdropWhile (!opensTerm ·) = []
    · refine Or.inr ⟨hempty, fun other hother => ?_⟩
      have hnil := hlongest other hother
      rw [hempty, List.prefix_nil] at hnil
      obtain ⟨-, c, hc, -⟩ := hother
      rw [hnil] at hc
      cases hc
    · refine Or.inl ⟨List.rdropWhile_prefix _ _, _, List.getLast_mem_getLast? hempty, ?_⟩
      have hlast := List.rdropWhile_last_not _ _ hempty
      rw [← opensTerm_iff]
      simpa using hlast
  · exact fun other hother => (hlongest other hother).length_le

/-! ### The two together -/

theorem isTermBoundary_eq (c : Char) : isTermBoundary c = (opensTerm c || c == ')' || c == '^') :=
  rfl

theorem exists_cleared {text : String} (h : '\n' ∉ text.toList) :
    ∃ cleared, text.toList = (beforeCurrentTerm text).toList ++ cleared ∧
      (currentTerm text).toList <:+ cleared ∧
      ((currentTerm text).toList = cleared ↔ ')' ∉ cleared ∧ '^' ∉ cleared) := by
  have hline : text.toList.takeWhile (· != '\n') = text.toList := takeWhile_of_isFirstLine ⟨h, Or.inl rfl⟩
  have hterm : ∀ c ∈ text.toList.rtakeWhile (!isTermBoundary ·), isTermBoundary c = false := by
    intro c hc
    simpa using List.mem_rtakeWhile_imp hc
  have hcleared : ∀ c ∈ text.toList.rtakeWhile (!opensTerm ·), opensTerm c = false := by
    intro c hc
    simpa using List.mem_rtakeWhile_imp hc
  have hsuffix : text.toList.rtakeWhile (!isTermBoundary ·) <:+ text.toList.rtakeWhile (!opensTerm ·) := by
    refine isSuffix_rtakeWhile (List.rtakeWhile_suffix _ _) fun c hc => ?_
    have hboundary := hterm c hc
    rw [isTermBoundary_eq, Bool.or_eq_false_iff, Bool.or_eq_false_iff] at hboundary
    simp [hboundary.1.1]
  rw [toList_beforeCurrentTerm, toList_currentTerm, hline]
  refine ⟨text.toList.rtakeWhile (!opensTerm ·), List.rdropWhile_append_rtakeWhile.symm, hsuffix, ?_, ?_⟩
  · intro heq
    rw [← heq]
    exact ⟨fun hc => absurd (hterm ')' hc) (by decide), fun hc => absurd (hterm '^' hc) (by decide)⟩
  · rintro ⟨hclosing, hpower⟩
    refine hsuffix.eq_of_length_le (isSuffix_rtakeWhile (List.rtakeWhile_suffix _ _) fun c hc => ?_).length_le
    have hne : c ≠ ')' ∧ c ≠ '^' := ⟨fun h => hclosing (h ▸ hc), fun h => hpower (h ▸ hc)⟩
    simp [isTermBoundary_eq, hcleared c hc, hne]

end Typing

/-- **Where a term begins.** The term being typed is the longest end of the text without operators, parentheses and
carets; what a clearing leaves is the longest start of the first line that ends with an operator or an opening
parenthesis, with nothing but its own echo below it. On one line the term is an end of what is cleared, and all of it
unless a closing parenthesis or a caret is. -/
theorem Typing.terms_parted :
    (∀ text, IsLongest (IsTermOf text.toList) (currentTerm text).toList) ∧
      (∀ text line, IsFirstLine line text.toList → IsLongest (IsFrontOf line) (beforeCurrentTerm text).toList) ∧
      (∀ text, '\n' ∉ text.toList → ∃ cleared, text.toList = (beforeCurrentTerm text).toList ++ cleared ∧
        (currentTerm text).toList <:+ cleared ∧
        ((currentTerm text).toList = cleared ↔ ')' ∉ cleared ∧ '^' ∉ cleared)) ∧
      ∀ m : Machine, m.expression ≠ "" → m.press .clear =
        ⟨beforeCurrentTerm m.expression,
          if beforeCurrentTerm m.expression = "" then "0" else beforeCurrentTerm m.expression, false, none⟩ :=
  ⟨isLongest_currentTerm, fun text _ => isLongest_beforeCurrentTerm text, fun _ => exists_cleared,
    fun m _ => m.pressClear_eq⟩

theorem Typing.terms_parted_power :
    let text := "2×(3−4)^5"
    IsFirstLine text.toList text.toList ∧ IsLongest (IsFrontOf text.toList) (beforeCurrentTerm text).toList ∧
      '\n' ∉ text.toList ∧ (∃ cleared, text.toList = (beforeCurrentTerm text).toList ++ cleared ∧
        (currentTerm text).toList <:+ cleared ∧
        ((currentTerm text).toList = cleared ↔ ')' ∉ cleared ∧ '^' ∉ cleared)) ∧
      text ≠ "" ∧ Machine.press ⟨text, "4", false, some "Invalid Expression"⟩ .clear = ⟨"2×(3−", "2×(3−", false, none⟩ := by
  intro text
  have hline : '\n' ∉ text.toList := by decide
  have hfirst : IsFirstLine text.toList text.toList := ⟨hline, Or.inl rfl⟩
  have hne : text ≠ "" := by decide
  refine ⟨hfirst, terms_parted.2.1 text _ hfirst, hline, terms_parted.2.2.1 text hline, hne, ?_⟩
  rw [terms_parted.2.2.2 _ hne]
  decide

end Reckoner
