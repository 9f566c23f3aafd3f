import Reckoner.Proofs.Evaluation.Stages
import Reckoner.Proofs.Expression.Spelling
import Reckoner.Proofs.Number.Arithmetic
import Reckoner.Proofs.Number.Numeral

/-!
# The texts of answers

An answer in digits is a numeral, behind a sign if it has one (`exists_numeral_of_inDigits`). Any other names
infinity or has an exponent, so it has a letter that no formula has (`exists_letter_of_not_inDigits`). Every number
has an answer, infinite ones included (`answerText_of_isNumber`).
-/

namespace Reckoner

/-- The parts of a decimal written in scientific form. -/
theorem Decimal.exists_scientific_eq (d : Decimal) :
    ∃ mantissa signChar n, d.scientific = mantissa ++ 'e' :: signChar :: Nat.toDigits 10 n ∧
      (signChar = '-' ∨ signChar = '+') ∧ ∀ c ∈ mantissa, isNumeralChar c = true := by
  refine ⟨_, _, _, rfl, ?_, fun c hc => ?_⟩
  · split
    · exact Or.inl rfl
    · exact Or.inr rfl
  · rcases List.mem_append.mp hc with hc | hc
    · exact isNumeralChar_of_isDigit (isDigit_of_mem_toDigits (List.mem_of_mem_take hc))
    · split at hc
      · cases hc
      · rcases List.mem_cons.mp hc with rfl | hc
        · rfl
        · exact isNumeralChar_of_isDigit (isDigit_of_mem_toDigits (List.mem_of_mem_drop hc))

theorem Decimal.count_point_digits {digits : List Char} (h : ∀ c ∈ digits, c.isDigit = true) : digits.count '.' = 0 :=
  List.count_eq_zero.mpr fun hpoint => absurd (h '.' hpoint) (by decide)

theorem Decimal.count_point_scientific (d : Decimal) : d.scientific.count '.' ≤ 1 := by
  have hwritten := fun c => isDigit_of_mem_toDigits (n := d.digits) (c := c)
  have hfirst := count_point_digits fun c hc => hwritten c (List.mem_of_mem_take (i := 1) hc)
  have hrest := count_point_digits fun c hc => hwritten c (List.mem_of_mem_drop (i := 1) hc)
  have hexponent : ∀ e, (exponentText e).count '.' = 0 := by
    intro e
    have hdigits := @count_point_digits (Nat.toDigits 10 e.natAbs) fun c => isDigit_of_mem_toDigits
    unfold exponentText
    split <;> simp [hdigits]
  simp only [scientific, List.count_append, List.count_cons, hfirst, hexponent]
  split
  · simp
  · rw [List.count_cons_self, hrest]
    simp

namespace Answer

/-- Whether an answer is written with digits, a point and a minus sign alone. -/
def inDigits (answer : String) : Bool :=
  answer.toList.all fun c => Decimal.isNumeralChar c || c == '-'

theorem toList_text (a : Answer) : a.text.toList = a.chars := by
  rw [text, String.toList_ofList]

theorem inDigits_text (a : Answer) :
    inDigits a.text = a.chars.all fun c => Decimal.isNumeralChar c || c == '-' := by
  rw [inDigits, toList_text]

theorem mem_sign {negative : Bool} {c : Char} (h : c ∈ sign negative) : c = '-' := by
  cases negative with
  | false => cases h
  | true => exact List.mem_singleton.mp h

/-- The letter of an answer that is not written in digits; no formula has it. -/
theorem exists_letter_of_not_inDigits {a : Answer} (h : inDigits a.text = false) : 'I' ∈ a.chars ∨ 'e' ∈ a.chars := by
  cases a with
  | infinite negative => exact Or.inl (by simp [chars])
  | scientific negative size => exact Or.inr (by simp [chars, Decimal.scientific])
  | inPlace negative size =>
    obtain ⟨d, hread, -⟩ := Decimal.ofNumeral?_inPlace size
    rw [inDigits_text, List.all_eq_false] at h
    obtain ⟨c, hc, hforeign⟩ := h
    rcases List.mem_append.mp hc with hc | hc
    · simp [mem_sign hc] at hforeign
    · simp [(Decimal.ofNumeral?_eq_some hread).2 c hc] at hforeign

/-- An answer in digits is a numeral behind a sign. -/
theorem exists_numeral_of_inDigits {a : Answer} (h : inDigits a.text = true) :
    ∃ negative numeral d, a.chars = sign negative ++ numeral ∧ Decimal.ofNumeral? numeral = some d := by
  rw [inDigits_text, List.all_eq_true] at h
  cases a with
  | infinite negative => exact absurd (h 'I' (by simp [chars])) (by decide)
  | scientific negative size => exact absurd (h 'e' (by simp [chars, Decimal.scientific])) (by decide)
  | inPlace negative size =>
    obtain ⟨d, hread, -⟩ := Decimal.ofNumeral?_inPlace size
    exact ⟨negative, size.inPlace, d, rfl, hread⟩

/-- An answer ends with a digit or a point, or with the last letter of infinity. -/
theorem exists_getLast?_chars (a : Answer) :
    ∃ c, a.chars.getLast? = some c ∧ (Decimal.isNumeralChar c = true ∨ c = 'y') := by
  cases a with
  | infinite negative => exact ⟨'y', by simp [chars], Or.inr rfl⟩
  | scientific negative size =>
    obtain ⟨mantissa, signChar, n, hscientific, -⟩ := size.exists_scientific_eq
    have hne : Nat.toDigits 10 n ≠ [] := Nat.toDigits_ne_nil
    refine ⟨(Nat.toDigits 10 n).getLast hne, ?_, Or.inl ?_⟩
    · have hlast := List.getLast?_eq_some_getLast hne
      simp [chars, hscientific, List.getLast?_append, List.getLast?_cons, hlast]
    · exact Decimal.isNumeralChar_of_isDigit (Decimal.isDigit_of_mem_toDigits (List.getLast_mem hne))
  | inPlace negative size =>
    obtain ⟨d, hread, -⟩ := Decimal.ofNumeral?_inPlace size
    obtain ⟨hne, hnumeral⟩ := Decimal.ofNumeral?_eq_some hread
    refine ⟨size.inPlace.getLast hne, ?_, Or.inl (hnumeral _ (List.getLast_mem hne))⟩
    rw [chars, List.getLast?_append_of_ne_nil _ hne, List.getLast?_eq_some_getLast hne]

/-- An answer has one point at most. -/
theorem count_point_chars (a : Answer) : a.chars.count '.' ≤ 1 := by
  have hsign : ∀ negative, (sign negative).count '.' = 0 := by
    rintro (_ | _) <;> rfl
  cases a with
  | infinite negative => cases negative <;> decide
  | scientific negative size =>
    rw [chars, List.count_append, hsign, Nat.zero_add]
    exact size.count_point_scientific
  | inPlace negative size =>
    obtain ⟨d, hread, -⟩ := Decimal.ofNumeral?_inPlace size
    rw [chars, List.count_append, hsign, Nat.zero_add]
    exact (Decimal.isSome_ofNumeral?_iff.mp (Option.isSome_of_eq_some hread)).2.1

theorem ofFloat?_of_finite {x : Float} {negative : Bool} {r : Nat} (hx : Binary64.ofFloat x = .finite negative r) :
    ofFloat? x = some (ofRank negative r) := by
  rw [ofFloat?, hx]

theorem ofFloat?_of_infinite {x : Float} {negative : Bool} (hx : Binary64.ofFloat x = .infinite negative) :
    ofFloat? x = some (.infinite negative) := by
  rw [ofFloat?, hx]

theorem exists_ofFloat?_of_isNumber {x : Float} (h : Binary64.IsNumber x) : ∃ a, ofFloat? x = some a := by
  have hne := h.ofFloat_ne_notANumber
  cases hx : Binary64.ofFloat x with
  | notANumber => exact absurd hx hne
  | infinite negative => exact ⟨_, ofFloat?_of_infinite hx⟩
  | finite negative rank => exact ⟨_, ofFloat?_of_finite hx⟩

end Answer

theorem answerText_of_answer {x : Float} {a : Answer} (h : Answer.ofFloat? x = some a) :
    answerText x = .ok a.text := by
  rw [answerText, h]
  rfl

theorem answerText_of_isNumber {x : Float} (h : Binary64.IsNumber x) : ∃ r, answerText x = .ok r := by
  obtain ⟨a, ha⟩ := Answer.exists_ofFloat?_of_isNumber h
  exact ⟨a.text, answerText_of_answer ha⟩

end Reckoner
