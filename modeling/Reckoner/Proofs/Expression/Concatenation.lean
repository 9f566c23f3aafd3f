import Mathlib
import Reckoner.Proofs.Evaluation.Guard

/-!
# Texts put together

A text put together from two has the tokens of both, unless the border runs through a lexeme
(`ofText?_append`). And what a text is put together from decides whether it can have a plain form: a letter has to
be part of a function's name, all of which is in the text (`exists_name_of_mem`).
-/

namespace Reckoner

theorem PlainForm.plain_append (text more : List Char) :
    plain (text ++ more) = plain text ++ plain more := by
  rw [plain, List.filter_append, List.map_append]
  rfl

theorem PlainForm.plain_eq_self {text : List Char} (h : ∀ c ∈ text, Text.isBlank c = false ∧ plainChar c = c) :
    plain text = text := by
  have hblank : text.filter (!Text.isBlank ·) = text := by
    rw [List.filter_eq_self]
    intro c hc
    rw [(h c hc).1]
    rfl
  rw [plain, hblank]
  exact (List.map_congr_left fun c hc => (h c hc).2).trans (List.map_id _)

theorem Lexeme.split_append {text more : List Char}
    (h : ∀ a ∈ text.getLast?, ∀ b ∈ more.head?, joined a b = false) :
    split (text ++ more) = split text ++ split more :=
  List.splitBy_append h

/-- A character that stands in no longer lexeme. -/
def Lexeme.isSeparate (c : Char) : Bool :=
  !Decimal.isNumeralChar c && !isNameChar c

theorem Lexeme.joined_eq_false {a b : Char} (h : isSeparate a = true ∨ isSeparate b = true) : joined a b = false := by
  simp only [isSeparate, Bool.and_eq_true, Bool.not_eq_true'] at h
  rcases h with ⟨hnumeral, hname⟩ | ⟨hnumeral, hname⟩ <;> simp [joined, hnumeral, hname]

theorem Token.ofText?_append_eq_bind {text more : List Char}
    (h : ∀ a ∈ text.getLast?, ∀ b ∈ more.head?, Lexeme.joined a b = false) :
    ofText? (text ++ more) = (ofText? text).bind fun tokens => (ofText? more).map (tokens ++ ·) := by
  simp only [ofText?, Lexeme.split_append h, List.filter_append, List.mapM_append, Option.map_eq_bind]
  rfl

theorem Token.ofText?_append {text more : List Char} {tokens tokens' : List Token}
    (h : ∀ a ∈ text.getLast?, ∀ b ∈ more.head?, Lexeme.joined a b = false)
    (htokens : ofText? text = some tokens) (htokens' : ofText? more = some tokens') :
    ofText? (text ++ more) = some (tokens ++ tokens') := by
  rw [ofText?_append_eq_bind h, htokens, htokens']
  rfl

/-! ### A numeral by itself -/

section

variable {numeral : List Char} {d : Decimal}

theorem PlainForm.plain_numeral (h : Decimal.ofNumeral? numeral = some d) : PlainForm.plain numeral = numeral := by
  apply PlainForm.plain_eq_self
  intro c hc
  rcases Decimal.isNumeralChar_iff.mp ((Decimal.ofNumeral?_eq_some h).2 c hc) with hdigit | rfl
  · refine ⟨Text.isBlank_eq_false_of_isDigit hdigit, ?_⟩
    rw [PlainForm.plainChar.eq_def]
    split
    · cases hdigit
    · cases hdigit
    · cases hdigit
    · rfl
  · decide

theorem Lexeme.split_numeral (h : Decimal.ofNumeral? numeral = some d) : Lexeme.split numeral = [numeral] := by
  obtain ⟨hne, hchars⟩ := Decimal.ofNumeral?_eq_some h
  refine List.splitBy_of_isChain hne (List.Pairwise.isChain (List.pairwise_of_forall_mem_list ?_))
  intro a ha b hb
  rw [Lexeme.joined, hchars a ha, hchars b hb]
  rfl

theorem Token.ofText?_numeral (h : Decimal.ofNumeral? numeral = some d) :
    Token.ofText? numeral = some [.number d.toFloat] := by
  have hplain := PlainForm.plain_numeral h
  rw [← hplain, PlainForm.ofText?_plain, hplain, Lexeme.split_numeral h]
  exact PlainForm.mapM_cons_eq_some_iff.mpr ⟨_, [], Token.ofLexeme?_eq_some_iff.mpr (.number h), rfl, rfl⟩

end

/-! ### Letters -/

namespace PlainForm

theorem exists_name_of_isAdmissible {lexemes : List (List Char)} (h : isAdmissible lexemes = true)
    {lexeme : List Char} (hmem : lexeme ∈ lexemes) :
    lexeme.all isFormulaChar = true ∨ ∃ f : Func, lexeme = f.name.toList := by
  induction lexemes with
  | nil => cases hmem
  | cons first rest ih =>
    simp only [isAdmissible, Bool.and_eq_true, Bool.or_eq_true] at h
    obtain ⟨hfirst, hrest⟩ := h
    rcases List.mem_cons.mp hmem with rfl | hmem
    · rcases hfirst with hall | ⟨hname, -⟩
      · exact Or.inl hall
      · exact Or.inr (Func.exists_eq_name hname)
    · exact ih hrest hmem

theorem mem_plain {text : List Char} {c : Char} (hc : c ∈ text) (hblank : Text.isBlank c = false)
    (hplain : plainChar c = c) : c ∈ plain text := by
  rw [plain, List.mem_map]
  exact ⟨c, List.mem_filter.mpr ⟨hc, by simp [hblank]⟩, hplain⟩

/-- A character that is not a formula's belongs to a function's name, and all of the name is in the text. -/
theorem exists_name_of_mem {text form : List Char} (h : ofText? text = some form) {c : Char}
    (hc : c ∈ plain text) (hforeign : isFormulaChar c = false) :
    ∃ f : Func, c ∈ f.name.toList ∧ ∀ x ∈ f.name.toList, x ∈ plain text := by
  obtain ⟨-, hadmissible, -⟩ := ofText?_eq_some_iff.mp h
  have hflatten := Lexeme.flatten_split (plain text)
  rw [← hflatten, List.mem_flatten] at hc
  obtain ⟨lexeme, hlexeme, hc⟩ := hc
  rcases exists_name_of_isAdmissible hadmissible hlexeme with hall | ⟨f, rfl⟩
  · rw [List.all_eq_true.mp hall c hc] at hforeign
    cases hforeign
  · refine ⟨f, hc, fun x hx => ?_⟩
    rw [← hflatten]
    exact List.mem_flatten_of_mem hlexeme hx

end PlainForm
end Reckoner
