import Mathlib.Data.List.SplitBy
import Reckoner.Expression.PlainForm
import Reckoner.Proofs.Expression.Spelling
import Reckoner.Proofs.Text.Kinds

/-!
# Leading zeros do not matter

Dropping the leading zeros of a text keeps its division into lexemes (`split_dropLeadingZeros`), because what
is left of a lexeme begins with a character of the same kind and ends with the same character; and each
lexeme stands for the token it stood for before. So the text has the same tokens (`ofText?_dropLeadingZeros`).
-/

namespace Reckoner

namespace Lexeme

theorem ne_nil_of_mem_split {text lexeme : List Char} (h : lexeme ∈ split text) : lexeme ≠ [] :=
  List.ne_nil_of_mem_splitBy h

theorem flatten_split (text : List Char) : (split text).flatten = text :=
  List.flatten_splitBy joined text

theorem joined_congr_right {a b c : Char} (h : b = c ∨ b.isDigit = true ∧ c.isDigit = true) :
    joined a b = joined a c := by
  rcases h with rfl | ⟨hb, hc⟩
  · rfl
  · have hname := isNameChar_eq_false_of_isDigit hb
    have hname' := isNameChar_eq_false_of_isDigit hc
    simp [joined, Decimal.isNumeralChar, hb, hc, hname, hname']

end Lexeme

namespace PlainForm

/-! ### One lexeme -/

/-- A relation between what is left of a lexeme and the lexeme holds if it holds of a lexeme with itself and is
kept by a zero in front of another digit. -/
theorem withoutLeadingZeros_induction {P : List Char → List Char → Prop} (hself : ∀ lexeme, P lexeme lexeme)
    (hzero : ∀ stripped next rest, next.isDigit = true → P stripped (next :: rest) →
      P stripped ('0' :: next :: rest))
    (lexeme : List Char) : P (withoutLeadingZeros lexeme) lexeme := by
  fun_induction withoutLeadingZeros lexeme with
  | case1 next rest hnext ih => exact hzero _ next rest hnext ih
  | case2 next rest hnext => exact hself _
  | case3 lexeme h => exact hself _

theorem withoutLeadingZeros_suffix (lexeme : List Char) : withoutLeadingZeros lexeme <:+ lexeme := by
  refine withoutLeadingZeros_induction (fun _ => List.suffix_rfl) ?_ lexeme
  intro stripped next rest _ ih
  exact ih.trans (List.suffix_cons '0' _)

/-- What is left begins as before, or both begin with a digit. -/
theorem head_withoutLeadingZeros (lexeme : List Char) : ∀ a ∈ (withoutLeadingZeros lexeme).head?,
    ∀ b ∈ lexeme.head?, a = b ∨ a.isDigit = true ∧ b.isDigit = true := by
  refine withoutLeadingZeros_induction (P := fun stripped lexeme => ∀ a ∈ stripped.head?, ∀ b ∈ lexeme.head?,
    a = b ∨ a.isDigit = true ∧ b.isDigit = true) ?_ ?_ lexeme
  · intro lexeme a ha b hb
    exact Or.inl (Option.mem_unique ha hb)
  · intro stripped next rest hnext ih a ha b hb
    cases hb
    rcases ih a ha next rfl with rfl | ⟨hdigit, _⟩
    · exact Or.inr ⟨hnext, rfl⟩
    · exact Or.inr ⟨hdigit, rfl⟩

theorem withoutLeadingZeros_eq_nil_iff {lexeme : List Char} : withoutLeadingZeros lexeme = [] ↔ lexeme = [] := by
  refine withoutLeadingZeros_induction (P := fun stripped lexeme => stripped = [] ↔ lexeme = []) (fun _ => Iff.rfl) ?_
    lexeme
  intro stripped next rest _ ih
  simpa using ih

theorem ofLexeme?_withoutLeadingZeros (lexeme : List Char) :
    Token.ofLexeme? (withoutLeadingZeros lexeme) = Token.ofLexeme? lexeme := by
  refine withoutLeadingZeros_induction (P := fun stripped lexeme => Token.ofLexeme? stripped = Token.ofLexeme? lexeme)
    (fun _ => rfl) ?_ lexeme
  intro stripped next rest hnext ih
  rw [ih, Token.ofLexeme?_digit_cons hnext, Token.ofLexeme?_digit_cons (c := '0') rfl,
    Decimal.ofNumeral?_zero_cons hnext]

theorem isBlank_withoutLeadingZeros (lexeme : List Char) :
    (withoutLeadingZeros lexeme).all Text.isBlank = lexeme.all Text.isBlank := by
  refine withoutLeadingZeros_induction (P := fun stripped lexeme => stripped.all Text.isBlank = lexeme.all Text.isBlank)
    (fun _ => rfl) ?_ lexeme
  intro stripped next rest hnext ih
  rw [ih, List.all_cons, List.all_cons, List.all_cons, Text.isBlank_eq_false_of_isDigit hnext]
  rfl

/-! ### A text of lexemes -/

/-- The lexemes of a text without its leading zeros are those of the text, each without its own. -/
theorem split_dropLeadingZeros (text : List Char) :
    Lexeme.split (dropLeadingZeros text) = (Lexeme.split text).map withoutLeadingZeros := by
  rw [dropLeadingZeros, List.flatMap_def]
  refine List.splitBy_flatten ?_ ?_ ?_
  · intro hnil
    obtain ⟨lexeme, hmem, hlexeme⟩ := List.mem_map.mp hnil
    exact Lexeme.ne_nil_of_mem_split hmem (withoutLeadingZeros_eq_nil_iff.mp hlexeme)
  · intro stripped hmem
    obtain ⟨lexeme, hlexeme, rfl⟩ := List.mem_map.mp hmem
    exact (List.isChain_of_mem_splitBy hlexeme).suffix (withoutLeadingZeros_suffix lexeme)
  · rw [List.isChain_map]
    refine (List.isChain_getLast_head_splitBy Lexeme.joined text).imp fun a b hab => ?_
    obtain ⟨ha, hb, hjoined⟩ := hab
    have ha' := mt withoutLeadingZeros_eq_nil_iff.mp ha
    have hb' := mt withoutLeadingZeros_eq_nil_iff.mp hb
    refine ⟨ha', hb', ?_⟩
    rw [(withoutLeadingZeros_suffix a).getLast ha', ← hjoined]
    exact Lexeme.joined_congr_right (head_withoutLeadingZeros b _ (List.head_mem_head? hb') _
      (List.head_mem_head? hb))

/-- **Leading zeros do not matter**: a text without them has the same tokens. -/
theorem ofText?_dropLeadingZeros (text : List Char) :
    Token.ofText? (dropLeadingZeros text) = Token.ofText? text := by
  rw [Token.ofText?, Token.ofText?, split_dropLeadingZeros, List.filter_map]
  have hblank : ((fun l => !l.all Text.isBlank) ∘ withoutLeadingZeros) = fun l : List Char => !l.all Text.isBlank := by
    funext l
    simp only [Function.comp_apply, isBlank_withoutLeadingZeros]
  rw [hblank, List.mapM_map]
  exact congrArg (fun f => List.mapM f _) (funext ofLexeme?_withoutLeadingZeros)

end PlainForm
end Reckoner
