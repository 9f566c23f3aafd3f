import Mathlib
import Reckoner.Proofs.Expression.Concatenation

/-!
# Runs of digits and points

A lexeme is a run of joined characters that can be made no longer at either end (`mem_split_iff`). Once a text has a
plain form, every lexeme is a symbol, a function's name, or a run of digits and points, and only a run can lack a
token (`ofText?_form_eq_none_iff`): it has no digit, or more than one point. So a text without a second point in any
run has tokens unless one of its points stands by itself (`ofText?_eq_none_iff_hasLonePoint`).
-/

namespace Reckoner

namespace Lexeme

theorem borders_of_split_eq {text lexeme : List Char} {before after : List (List Char)}
    (h : split text = before ++ lexeme :: after) :
    (∀ a ∈ before.flatten.getLast?, ∀ b ∈ lexeme.head?, joined a b = false) ∧
      ∀ a ∈ lexeme.getLast?, ∀ b ∈ after.flatten.head?, joined a b = false := by
  have hborders := List.isChain_getLast_head_splitBy joined text
  have hne : ∀ l ∈ split text, l ≠ [] := fun l hl => ne_nil_of_mem_split hl
  rw [← split, h, List.isChain_append, List.isChain_cons] at hborders
  obtain ⟨-, ⟨hright, -⟩, hleft⟩ := hborders
  rw [h] at hne
  have hlexeme : lexeme ≠ [] := hne lexeme (by simp)
  constructor
  · intro a ha b hb
    rcases List.eq_nil_or_concat before with rfl | ⟨init, l, rfl⟩
    · simp at ha
    · have hl : l ≠ [] := hne l (by simp)
      obtain ⟨_, _, hjoined⟩ := hleft l (by simp) lexeme rfl
      rw [List.concat_eq_append, List.flatten_append, List.flatten_singleton,
        List.getLast?_append_of_ne_nil _ hl, List.getLast?_eq_some_getLast hl] at ha
      rw [List.head?_eq_some_head hlexeme] at hb
      cases ha
      cases hb
      exact hjoined
  · intro a ha b hb
    cases after with
    | nil => cases hb
    | cons l rest =>
      have hl : l ≠ [] := hne l (by simp)
      obtain ⟨_, _, hjoined⟩ := hright l rfl
      rw [List.flatten_cons, List.head?_append_of_ne_nil _ hl, List.head?_eq_some_head hl] at hb
      rw [List.getLast?_eq_some_getLast hlexeme] at ha
      cases ha
      cases hb
      exact hjoined

/-- The lexemes of a text are its longest runs of joined characters. -/
theorem mem_split_iff {text lexeme : List Char} :
    lexeme ∈ split text ↔
      lexeme ≠ [] ∧ lexeme.IsChain (joined · ·) ∧ ∃ before after, text = before ++ lexeme ++ after ∧
        (∀ a ∈ before.getLast?, ∀ b ∈ lexeme.head?, joined a b = false) ∧
        ∀ a ∈ lexeme.getLast?, ∀ b ∈ after.head?, joined a b = false := by
  constructor
  · intro h
    obtain ⟨before, after, hsplit⟩ := List.append_of_mem h
    obtain ⟨hleft, hright⟩ := borders_of_split_eq hsplit
    have htext : text = before.flatten ++ lexeme ++ after.flatten := by
      rw [← flatten_split text, hsplit]
      simp
    exact ⟨ne_nil_of_mem_split h, List.isChain_of_mem_splitBy h, _, _, htext, hleft, hright⟩
  · rintro ⟨hne, hchain, before, after, rfl, hbefore, hafter⟩
    have hlast : (before ++ lexeme).getLast? = lexeme.getLast? := List.getLast?_append_of_ne_nil _ hne
    rw [split_append (by rwa [hlast]), split_append hbefore, split, split, List.splitBy_of_isChain hne hchain]
    simp

theorem isNameChar_eq_false_of_isNumeralChar {c : Char} (h : Decimal.isNumeralChar c = true) : isNameChar c = false := by
  rcases Decimal.isNumeralChar_iff.mp h with hdigit | rfl
  · exact isNameChar_eq_false_of_isDigit hdigit
  · decide

theorem joined_of_isNumeralChar {a : Char} (b : Char) (h : Decimal.isNumeralChar a = true) :
    joined a b = Decimal.isNumeralChar b ∧ joined b a = Decimal.isNumeralChar b := by
  simp [joined, h, isNameChar_eq_false_of_isNumeralChar h]

/-- A lexeme that begins with a digit or a point is made of them. -/
theorem isNumeralChar_of_isChain {c : Char} {rest : List Char} (h : (c :: rest).IsChain (joined · ·))
    (hc : Decimal.isNumeralChar c = true) : ∀ x ∈ c :: rest, Decimal.isNumeralChar x = true := by
  induction rest generalizing c with
  | nil => simpa using hc
  | cons next rest ih =>
    rw [List.isChain_cons_cons, (joined_of_isNumeralChar next hc).1] at h
    exact List.forall_mem_cons.mpr ⟨hc, ih h.2 h.1⟩

/-- A point stands with neither a digit nor another point beside it. -/
def HasLonePoint (text : List Char) : Prop :=
  ∃ before after, text = before ++ '.' :: after ∧
    (∀ c ∈ before.getLast?, Decimal.isNumeralChar c = false) ∧ ∀ c ∈ after.head?, Decimal.isNumeralChar c = false

theorem point_mem_split_iff {text : List Char} : ['.'] ∈ split text ↔ HasLonePoint text := by
  have hjoined := fun c => joined_of_isNumeralChar (a := '.') c rfl
  simp [mem_split_iff, HasLonePoint, hjoined]

end Lexeme

namespace PlainForm

open Token

theorem mapM_eq_none_iff {α β : Type} {f : α → Option β} {as : List α} :
    as.mapM f = none ↔ ∃ a ∈ as, f a = none := by
  induction as with
  | nil => simp
  | cons a as ih =>
    rw [List.mapM_cons, List.exists_mem_cons_iff, ← ih]
    cases f a with
    | none => simp
    | some b => cases as.mapM f <;> simp

variable {text form run : List Char}

/-- The only lexemes of a formula's characters that can lack a token are runs of digits and points. -/
theorem isNumeralChar_of_ofLexeme?_eq_none (h : run ∈ Lexeme.split text) (hall : run.all isFormulaChar = true)
    (hnone : ofLexeme? run = none) : ∀ c ∈ run, Decimal.isNumeralChar c = true := by
  obtain ⟨hne, hchain, -⟩ := Lexeme.mem_split_iff.mp h
  obtain ⟨c, rest, rfl⟩ := List.exists_cons_of_ne_nil hne
  by_cases hc : Decimal.isNumeralChar c = true
  · exact Lexeme.isNumeralChar_of_isChain hchain hc
  · -- a symbol stands in a lexeme of its own and has a token
    exfalso
    have hsymbol : c ∈ ['+', '-', '*', '/', '^', '(', ')'] := by
      simp_all [isFormulaChar, Decimal.isNumeralChar]
    have hseparate : Lexeme.isSeparate c = true := by
      fin_cases hsymbol <;> decide
    cases rest with
    | nil => fin_cases hsymbol <;> cases hnone
    | cons next rest =>
      rw [List.isChain_cons_cons, Lexeme.joined_eq_false (Or.inl hseparate)] at hchain
      cases hchain.1

/-- A run of digits and points has a token exactly if it is a numeral. -/
theorem ofLexeme?_eq_none_iff (hrun : ∀ c ∈ run, Decimal.isNumeralChar c = true) :
    ofLexeme? run = none ↔ Decimal.ofNumeral? run = none := by
  constructor
  · intro h
    by_contra hsome
    obtain ⟨d, hd⟩ := Option.ne_none_iff_exists'.mp hsome
    rw [ofLexeme?_eq_some_iff.mpr (.number hd)] at h
    cases h
  · intro h
    by_contra hsome
    obtain ⟨t, ht⟩ := Option.ne_none_iff_exists'.mp hsome
    cases ofLexeme?_eq_some_iff.mp ht with
    | number hd =>
      rw [hd] at h
      cases h
    | func f =>
      have hletter : ∃ c ∈ f.name.toList, Decimal.isNumeralChar c = false := by
        cases f <;> simp [Func.name, Decimal.isNumeralChar]
      obtain ⟨c, hc, hforeign⟩ := hletter
      rw [hrun c hc] at hforeign
      cases hforeign
    | _ => exact absurd (hrun _ List.mem_cons_self) (by decide)

/-- What has a plain form has tokens unless one of its runs of digits and points is no numeral. -/
theorem ofText?_form_eq_none_iff (h : ofText? text = some form) :
    Token.ofText? form = none ↔
      ∃ run ∈ Lexeme.split (plain text), (∀ c ∈ run, Decimal.isNumeralChar c = true) ∧
        Decimal.ofNumeral? run = none := by
  obtain ⟨-, hadmissible, rfl⟩ := ofText?_eq_some_iff.mp h
  rw [ofText?_dropLeadingZeros, ofText?_plain, mapM_eq_none_iff]
  constructor
  · rintro ⟨run, hrun, hnone⟩
    rcases exists_name_of_isAdmissible hadmissible hrun with hall | ⟨f, rfl⟩
    · have hnumeral := isNumeralChar_of_ofLexeme?_eq_none hrun hall hnone
      exact ⟨run, hrun, hnumeral, (ofLexeme?_eq_none_iff hnumeral).mp hnone⟩
    · rw [ofLexeme?_eq_some_iff.mpr (.func f)] at hnone
      cases hnone
  · rintro ⟨run, hrun, hnumeral, hnone⟩
    exact ⟨run, hrun, (ofLexeme?_eq_none_iff hnumeral).mpr hnone⟩

/-- Digits with one point at most are a numeral, unless there are no digits. -/
theorem ofNumeral?_eq_none_iff (hne : run ≠ []) (hrun : ∀ c ∈ run, Decimal.isNumeralChar c = true)
    (hone : run.count '.' ≤ 1) : Decimal.ofNumeral? run = none ↔ run = ['.'] := by
  constructor
  · intro h
    have hpoints : ∀ c ∈ run, '.' = c := by
      intro c hc
      by_contra hne
      have hdigit := (Decimal.isNumeralChar_iff.mp (hrun c hc)).resolve_right (Ne.symm hne)
      have hsome := Decimal.isSome_ofNumeral?_iff.mpr ⟨hrun, hone, c, hc, hdigit⟩
      rw [h] at hsome
      cases hsome
    have hlength : run.length = 1 := by
      have hpos := List.length_pos_iff.mpr hne
      rw [List.count_eq_length.mpr hpoints] at hone
      omega
    obtain ⟨c, rfl⟩ := List.length_eq_one_iff.mp hlength
    rw [hpoints c (List.mem_singleton_self c)]
  · rintro rfl
    rfl

theorem withoutLeadingZeros_eq_point_iff : withoutLeadingZeros run = ['.'] ↔ run = ['.'] := by
  constructor
  · refine withoutLeadingZeros_induction (P := fun stripped lexeme => stripped = ['.'] → lexeme = ['.'])
      (fun _ h => h) ?_ run
    intro stripped next rest hnext ih h
    cases ih h
    cases hnext
  · rintro rfl
    rfl

/-- A text with one point at most in each of its runs has tokens, once it has a plain form, unless a point stands by
itself in it. -/
theorem ofText?_eq_none_iff_hasLonePoint (h : ofText? text = some form)
    (hone : ∀ run ∈ Lexeme.split (plain text), (∀ c ∈ run, Decimal.isNumeralChar c = true) → run.count '.' ≤ 1) :
    Token.ofText? form = none ↔ Lexeme.HasLonePoint form := by
  obtain ⟨-, -, hdrop⟩ := ofText?_eq_some_iff.mp h
  rw [ofText?_form_eq_none_iff h, ← Lexeme.point_mem_split_iff, hdrop, split_dropLeadingZeros]
  constructor
  · rintro ⟨run, hrun, hnumeral, hnone⟩
    obtain rfl := (ofNumeral?_eq_none_iff (Lexeme.ne_nil_of_mem_split hrun) hnumeral (hone run hrun hnumeral)).mp hnone
    exact List.mem_map_of_mem hrun
  · intro hpoint
    obtain ⟨run, hrun, hstripped⟩ := List.mem_map.mp hpoint
    obtain rfl := withoutLeadingZeros_eq_point_iff.mp hstripped
    exact ⟨['.'], hrun, by simp [Decimal.isNumeralChar], rfl⟩

end PlainForm
end Reckoner
