import Mathlib
import Reckoner.Proofs.Expression.Lexing

/-!
# Plain forms

What a text in plain form looks like (`IsPlain`): it has no blanks and no display operators, is balanced and
admissible, and none of its lexemes begins with a needless zero. The plain form of a text is such a text
(`isPlain_of_ofText?`), and such a text is its own plain form (`IsPlain.ofText?_eq`).
-/

namespace Reckoner.PlainForm

open Lexeme

/-- A zero with another digit behind it begins the text. -/
def HasNeedlessZero (text : List Char) : Prop :=
  ∃ next rest, text = '0' :: next :: rest ∧ next.isDigit = true

/-! ### Zeros -/

theorem not_hasNeedlessZero_withoutLeadingZeros (lexeme : List Char) :
    ¬HasNeedlessZero (withoutLeadingZeros lexeme) := by
  fun_induction withoutLeadingZeros lexeme with
  | case1 next rest hnext ih => exact ih
  | case2 next rest hnext =>
    rintro ⟨_, _, h, hdigit⟩
    cases h
    exact hnext hdigit
  | case3 lexeme hother =>
    rintro ⟨next, rest, rfl, -⟩
    exact hother next rest rfl

theorem withoutLeadingZeros_eq_self {lexeme : List Char} (h : ¬HasNeedlessZero lexeme) :
    withoutLeadingZeros lexeme = lexeme := by
  fun_cases withoutLeadingZeros lexeme with
  | case1 next rest hnext => exact absurd ⟨next, rest, rfl, hnext⟩ h
  | case2 next rest hnext => rfl
  | case3 lexeme hother => rfl

theorem not_hasNeedlessZero_of_mem_split {text lexeme : List Char} (h : lexeme ∈ split (dropLeadingZeros text)) :
    ¬HasNeedlessZero lexeme := by
  rw [split_dropLeadingZeros] at h
  obtain ⟨original, -, rfl⟩ := List.mem_map.mp h
  exact not_hasNeedlessZero_withoutLeadingZeros original

theorem dropLeadingZeros_eq_self {text : List Char} (h : ∀ lexeme ∈ split text, ¬HasNeedlessZero lexeme) :
    dropLeadingZeros text = text := by
  have hlexemes : (split text).map withoutLeadingZeros = split text :=
    (List.map_congr_left fun lexeme hlexeme => withoutLeadingZeros_eq_self (h lexeme hlexeme)).trans (List.map_id _)
  rw [dropLeadingZeros, List.flatMap_def, hlexemes, flatten_split]

theorem dropLeadingZeros_dropLeadingZeros (text : List Char) :
    dropLeadingZeros (dropLeadingZeros text) = dropLeadingZeros text :=
  dropLeadingZeros_eq_self fun _ => not_hasNeedlessZero_of_mem_split

/-- A run of digits that does not follow a point is the beginning of a numeral, and so without needless zeros. -/
theorem not_hasNeedlessZero_of_isMaximalRun {text before run after : List Char}
    (h : dropLeadingZeros text = before ++ run ++ after) (hrun : IsMaximalRun Char.isDigit before run after)
    (hpoint : before.getLast? ≠ some '.') : ¬HasNeedlessZero run := by
  rintro ⟨next, rest, rfl, hnext⟩
  let more := after.takeWhile Decimal.isNumeralChar
  have hnumeral : IsMaximalRun Decimal.isNumeralChar before ('0' :: next :: rest ++ more)
      (after.dropWhile Decimal.isNumeralChar) := by
    refine ⟨by simp, fun c hc => ?_, fun a ha => ?_, fun b hb => ?_⟩
    · rcases List.mem_append.mp hc with hc | hc
      · exact Decimal.isNumeralChar_of_isDigit (hrun.all c hc)
      · exact List.mem_takeWhile_imp hc
    · rw [Bool.eq_false_iff, ne_eq, Decimal.isNumeralChar_iff, hrun.left a ha]
      rintro (hdigit | rfl)
      · cases hdigit
      · exact hpoint ha
    · have hstop := List.head?_dropWhile_not Decimal.isNumeralChar after
      rw [hb] at hstop
      exact hstop
  have htext : dropLeadingZeros text =
      before ++ ('0' :: next :: rest ++ more) ++ after.dropWhile Decimal.isNumeralChar := by
    rw [h]
    simp [more]
  have hmem : '0' :: next :: rest ++ more ∈ split (dropLeadingZeros text) := by
    rw [htext, hnumeral.split_eq isKind_isNumeralChar]
    simp
  exact not_hasNeedlessZero_of_mem_split hmem ⟨next, rest ++ more, rfl, hnext⟩

/-! ### What dropping zeros keeps -/

theorem dropLeadingZeros_sublist (text : List Char) : (dropLeadingZeros text).Sublist text := by
  calc (dropLeadingZeros text).Sublist (split text).flatten := by
        rw [dropLeadingZeros]
        induction split text with
        | nil => exact List.Sublist.refl _
        | cons lexeme lexemes ih => exact (withoutLeadingZeros_suffix lexeme).sublist.append ih
    _ = text := flatten_split text

theorem count_dropLeadingZeros {c : Char} (hc : c ≠ '0') (text : List Char) :
    (dropLeadingZeros text).count c = text.count c := by
  have hlexeme : ∀ lexeme, (withoutLeadingZeros lexeme).count c = lexeme.count c := by
    refine withoutLeadingZeros_induction (P := fun stripped lexeme => stripped.count c = lexeme.count c)
      (fun _ => rfl) fun stripped next rest _ ih => ?_
    rw [ih, List.count_cons_of_ne (Ne.symm hc)]
  rw [dropLeadingZeros, List.count_flatMap]
  conv_rhs => rw [← flatten_split text, List.count_flatten]
  congr 1
  exact List.map_congr_left fun lexeme _ => hlexeme lexeme

theorem isAdmissible_map_withoutLeadingZeros {lexemes : List (List Char)} (h : isAdmissible lexemes = true) :
    isAdmissible (lexemes.map withoutLeadingZeros) = true := by
  induction lexemes with
  | nil => rfl
  | cons lexeme rest ih =>
    simp only [isAdmissible, Bool.and_eq_true, Bool.or_eq_true, beq_iff_eq] at h
    simp only [List.map_cons, isAdmissible, Bool.and_eq_true, Bool.or_eq_true, beq_iff_eq]
    obtain ⟨hlexeme, hrest⟩ := h
    refine ⟨?_, ih hrest⟩
    rcases hlexeme with hall | ⟨hname, hopening⟩
    · refine Or.inl (List.all_eq_true.mpr fun c hc => List.all_eq_true.mp hall c ?_)
      exact (withoutLeadingZeros_suffix lexeme).subset hc
    · have hself : withoutLeadingZeros lexeme = lexeme := by
        apply withoutLeadingZeros_eq_self
        rintro ⟨next, more, rfl, -⟩
        obtain ⟨f, hf⟩ := Func.exists_eq_name hname
        have hzero := isNameChar_of_mem_name f '0' (by simp [← hf])
        cases hzero
      rw [hself, List.head?_map, hopening]
      exact Or.inr ⟨hname, rfl⟩

/-! ### Texts in plain form -/

/-- A text as it should be once it is in plain form. -/
structure IsPlain (text : List Char) : Prop where
  chars : ∀ c ∈ text, Text.isBlank c = false ∧ plainChar c = c
  balanced : isBalanced text = true
  admissible : isAdmissible (split text) = true
  bare : ∀ lexeme ∈ split text, ¬HasNeedlessZero lexeme

theorem plainChar_plainChar (c : Char) : plainChar (plainChar c) = plainChar c := by
  rw [plainChar.eq_def c]
  split
  · rfl
  · rfl
  · rfl
  · rename_i htimes hover hminus
    rw [plainChar.eq_4 c htimes hover hminus]

theorem isPlain_of_ofText? {text form : List Char} (h : ofText? text = some form) : IsPlain form := by
  obtain ⟨hbalanced, hadmissible, rfl⟩ := ofText?_eq_some_iff.mp h
  refine ⟨fun c hc => ?_, ?_, ?_, fun _ => not_hasNeedlessZero_of_mem_split⟩
  · have hmem := (dropLeadingZeros_sublist _).subset hc
    refine ⟨isBlank_of_mem_plain hmem, ?_⟩
    obtain ⟨d, -, rfl⟩ := List.mem_map.mp hmem
    exact plainChar_plainChar d
  · rw [isBalanced, count_dropLeadingZeros (by decide), count_dropLeadingZeros (by decide)]
    exact hbalanced
  · rw [split_dropLeadingZeros]
    exact isAdmissible_map_withoutLeadingZeros hadmissible

theorem IsPlain.ofText?_eq {text : List Char} (h : IsPlain text) : ofText? text = some text := by
  have hplain : plain text = text := plain_eq_self h.chars
  have hzeros : dropLeadingZeros text = text := dropLeadingZeros_eq_self h.bare
  exact ofText?_eq_some_iff.mpr ⟨by rw [hplain]; exact h.balanced, by rw [hplain]; exact h.admissible,
    by rw [hplain, hzeros]⟩

/-- **Needless zeros go once and for all**: a text without them has the same tokens, no run of digits that does not
follow a point begins with one, and there are none left to drop. So a plain form is its own plain form. -/
theorem dropLeadingZeros_settles (text : List Char) :
    Token.ofText? (dropLeadingZeros text) = Token.ofText? text ∧
      (∀ before run after, dropLeadingZeros text = before ++ run ++ after →
        IsMaximalRun Char.isDigit before run after → before.getLast? ≠ some '.' →
          ¬∃ next rest, run = '0' :: next :: rest) ∧
      dropLeadingZeros (dropLeadingZeros text) = dropLeadingZeros text ∧
      ∀ form, ofText? text = some form → ofText? form = some form := by
  refine ⟨ofText?_dropLeadingZeros text, ?_, dropLeadingZeros_dropLeadingZeros text, ?_⟩
  · rintro before run after htext hrun hpoint ⟨next, rest, rfl⟩
    have hnext : next.isDigit = true := hrun.all next (by simp)
    exact not_hasNeedlessZero_of_isMaximalRun htext hrun hpoint ⟨next, rest, rfl, hnext⟩
  · intro form hform
    exact (isPlain_of_ofText? hform).ofText?_eq

/-- The zero in front of a point stays. -/
theorem leading_zeros_settled :
    ofText? "007×00.05".toList = some "7*0.05".toList ∧ ofText? "7*0.05".toList = some "7*0.05".toList ∧
      dropLeadingZeros "007*00.05".toList = "7*".toList ++ "0".toList ++ ".05".toList ∧
      IsMaximalRun Char.isDigit "7*".toList "0".toList ".05".toList ∧ "7*".toList.getLast? ≠ some '.' ∧
      ¬∃ next rest, "0".toList = '0' :: next :: rest := by
  have hform : ofText? "007×00.05".toList = some "7*0.05".toList := by decide +kernel
  have hdropped : dropLeadingZeros "007*00.05".toList = "7*".toList ++ "0".toList ++ ".05".toList := by
    decide +kernel
  have hrun : IsMaximalRun Char.isDigit "7*".toList "0".toList ".05".toList :=
    ⟨by simp, by simp, by simp, by simp⟩
  have hpoint : "7*".toList.getLast? ≠ some '.' := by decide +kernel
  exact ⟨hform, (dropLeadingZeros_settles _).2.2.2 _ hform, hdropped, hrun, hpoint,
    (dropLeadingZeros_settles _).2.1 _ _ _ hdropped hrun hpoint⟩

end Reckoner.PlainForm
