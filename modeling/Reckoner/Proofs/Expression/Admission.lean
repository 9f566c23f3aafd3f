import Mathlib
import Reckoner.Proofs.Expression.PlainForm

/-!
# Which texts have a plain form

A text is admissible exactly if it is put together from characters of a formula and from names of functions, each with
the parenthesis of its call (`isAdmissible_split_iff`). That is the language of the texts that are left without a
foreign character when every call in them is replaced by its parenthesis (`all_withoutCalls_iff`): no two calls overlap,
and a letter in front of a call or behind a name is left over. The main result, `ofText?_exists_iff_parts`, states both.
-/

namespace Reckoner.PlainForm

open Lexeme
open scoped Computability

/-- What formulas are put together from: their characters, and functions' names with the parenthesis of a call. -/
def parts : Language Char :=
  {part | (∃ c, isFormulaChar c = true ∧ part = [c]) ∨ ∃ f : Func, part = f.name.toList ++ ['(']}

theorem append_mem_kstar {α : Type} {l : Language α} {part rest : List α} (hpart : part ∈ l) (hrest : rest ∈ l∗) :
    part ++ rest ∈ l∗ :=
  Set.mem_of_mem_of_subset (Language.append_mem_mul hpart hrest) (mul_kstar_le_kstar (a := l))

theorem cons_mem_kstar_iff {α : Type} {l : Language α} {c : α} {text : List α} :
    c :: text ∈ l∗ ↔ ∃ part rest, text = part ++ rest ∧ c :: part ∈ l ∧ rest ∈ l∗ := by
  constructor
  · rw [Language.mem_kstar_iff_exists_nonempty]
    rintro ⟨pieces, htext, hpieces⟩
    cases pieces with
    | nil => cases htext
    | cons first others =>
      obtain ⟨⟨hfirst, hne⟩, hothers⟩ := List.forall_mem_cons.mp hpieces
      obtain ⟨d, part, rfl⟩ := List.exists_cons_of_ne_nil hne
      rw [List.flatten_cons, List.cons_append, List.cons.injEq] at htext
      obtain ⟨rfl, rfl⟩ := htext
      exact ⟨part, others.flatten, rfl, hfirst, Language.join_mem_kstar fun y hy => (hothers y hy).1⟩
  · rintro ⟨part, rest, rfl, hpart, hrest⟩
    exact append_mem_kstar hpart hrest

/-! ### Calls -/

section

variable {c : Char} {text after : List Char} {f g : Func}

theorem isFormulaChar_eq_false_of_isNameChar (h : isNameChar c = true) : isFormulaChar c = false := by
  rw [Bool.eq_false_iff]
  intro hformula
  simp only [isFormulaChar, Bool.or_eq_true, List.contains_iff_mem] at hformula
  rcases hformula with hdigit | hsymbol
  · rw [isNameChar_eq_false_of_isDigit hdigit] at h
    cases h
  · have hforeign : ∀ c ∈ "+-*/.^()".toList, isNameChar c = false := by simp [isNameChar]
    rw [hforeign c hsymbol] at h
    cases h

theorem exists_name_eq_cons (f : Func) : ∃ c rest, f.name.toList = c :: rest ∧ isFormulaChar c = false := by
  obtain ⟨c, rest, hname⟩ := List.exists_cons_of_ne_nil (name_ne_nil f)
  refine ⟨c, rest, hname, isFormulaChar_eq_false_of_isNameChar (isNameChar_of_mem_name f c ?_)⟩
  simp [hname]

theorem split_opening (after : List Char) : split ('(' :: after) = ['('] :: split after :=
  split_separate_cons (by decide) after

theorem exists_eq_opening_cons {text : List Char} (h : (split text).head? = some ['(']) :
    ∃ after, text = '(' :: after := by
  obtain ⟨others, hothers⟩ := List.head?_eq_some_iff.mp h
  refine ⟨others.flatten, ?_⟩
  rw [← flatten_split text, hothers]
  rfl

theorem split_call (f : Func) (after : List Char) :
    split (f.name.toList ++ '(' :: after) = f.name.toList :: ['('] :: split after := by
  have hrun : IsMaximalRun isNameChar [] f.name.toList ('(' :: after) :=
    ⟨name_ne_nil f, isNameChar_of_mem_name f, by simp, by simp [isNameChar]⟩
  rw [← split_opening after]
  exact hrun.split_append isKind_isNameChar

/-- What stands behind a call at the front of a text. -/
theorem call_append_inj (h : f.name.toList ++ '(' :: text = g.name.toList ++ '(' :: after) : text = after := by
  have hsplit := congrArg split h
  rw [split_call, split_call, List.cons.injEq, List.cons.injEq] at hsplit
  rw [← flatten_split text, hsplit.2.2, flatten_split]

/-! ### The first part of a text -/

theorem cons_mem_iff_of_isFormulaChar (hc : isFormulaChar c = true) : c :: text ∈ parts∗ ↔ text ∈ parts∗ := by
  rw [cons_mem_kstar_iff]
  constructor
  · rintro ⟨part, rest, rfl, hpart, hrest⟩
    rcases hpart with ⟨d, -, hd⟩ | ⟨f, hf⟩
    · cases hd
      exact hrest
    · obtain ⟨d, name, hname, hforeign⟩ := exists_name_eq_cons f
      rw [hname, List.cons_append, List.cons.injEq] at hf
      rw [← hf.1, hc] at hforeign
      cases hforeign
  · intro htext
    exact ⟨[], text, rfl, Or.inl ⟨c, hc, rfl⟩, htext⟩

theorem append_mem_iff_of_isFormulaChar {lexeme : List Char} (h : ∀ c ∈ lexeme, isFormulaChar c = true) :
    lexeme ++ text ∈ parts∗ ↔ text ∈ parts∗ := by
  induction lexeme with
  | nil => rfl
  | cons c lexeme ih =>
    obtain ⟨hc, hlexeme⟩ := List.forall_mem_cons.mp h
    rw [List.cons_append, cons_mem_iff_of_isFormulaChar hc, ih hlexeme]

/-- A text that begins with no character of a formula begins with a call. -/
theorem cons_mem_iff_of_foreign (hc : isFormulaChar c = false) :
    c :: text ∈ parts∗ ↔ ∃ (f : Func) (after : List Char), c :: text = f.name.toList ++ '(' :: after ∧
      after ∈ parts∗ := by
  constructor
  · rw [cons_mem_kstar_iff]
    rintro ⟨part, rest, rfl, hpart, hrest⟩
    rcases hpart with ⟨d, hd, hsingle⟩ | ⟨f, hf⟩
    · cases hsingle
      rw [hc] at hd
      cases hd
    · refine ⟨f, rest, ?_, hrest⟩
      rw [← List.cons_append, hf, List.append_assoc]
      rfl
  · rintro ⟨f, after, htext, hafter⟩
    have hpart : f.name.toList ++ ['('] ∈ parts := Or.inr ⟨f, rfl⟩
    rw [htext, ← List.singleton_append, ← List.append_assoc]
    exact append_mem_kstar hpart hafter

theorem call_mem_iff : f.name.toList ++ '(' :: after ∈ parts∗ ↔ after ∈ parts∗ := by
  obtain ⟨c, rest, hname, hforeign⟩ := exists_name_eq_cons f
  rw [hname, List.cons_append, cons_mem_iff_of_foreign hforeign, ← List.cons_append, ← hname]
  constructor
  · rintro ⟨g, after', h, hafter⟩
    rwa [call_append_inj h]
  · intro hafter
    exact ⟨f, after, rfl, hafter⟩

end

/-! ### Lexeme by lexeme -/

/-- No lexeme mixes characters of a formula with others. -/
theorem isFormulaChar_of_isChain {c : Char} {rest : List Char} (h : (c :: rest).IsChain (joined · ·))
    (hc : isFormulaChar c = true) : ∀ x ∈ c :: rest, isFormulaChar x = true := by
  by_cases hnumeral : Decimal.isNumeralChar c = true
  · intro x hx
    rcases Decimal.isNumeralChar_iff.mp (isNumeralChar_of_isChain h hnumeral x hx) with hdigit | rfl
    · simp [isFormulaChar, hdigit]
    · decide
  · cases rest with
    | nil => simpa using hc
    | cons next rest =>
      have hname : isNameChar c = false := by
        by_contra hname
        rw [isFormulaChar_eq_false_of_isNameChar (by simpa using hname)] at hc
        cases hc
      rw [List.isChain_cons_cons, joined_eq_false (Or.inl (by simp [isSeparate, hnumeral, hname]))] at h
      cases h.1

theorem isAdmissible_split_iff {text : List Char} : isAdmissible (split text) = true ↔ text ∈ parts∗ := by
  induction text using lexeme_induction with
  | nil => exact iff_of_true rfl (Language.nil_mem_kstar _)
  | lexeme lexeme rest hne hchain hright ih =>
    have hsplit := split_lexeme_append hne hchain hright
    rw [hsplit, isAdmissible, Bool.and_eq_true, ih]
    obtain ⟨c, more, rfl⟩ := List.exists_cons_of_ne_nil hne
    by_cases hc : isFormulaChar c = true
    · have hall := isFormulaChar_of_isChain hchain hc
      rw [append_mem_iff_of_isFormulaChar hall, List.all_eq_true.mpr hall, Bool.true_or]
      simp
    · have hforeign : isFormulaChar c = false := by simpa using hc
      rw [List.cons_append, cons_mem_iff_of_foreign hforeign, List.all_cons, hforeign, Bool.false_and,
        Bool.false_or, Bool.and_eq_true, beq_iff_eq]
      constructor
      · rintro ⟨⟨hname, hopening⟩, hrest⟩
        obtain ⟨f, hf⟩ := Func.exists_eq_name hname
        obtain ⟨after, rfl⟩ := exists_eq_opening_cons hopening
        rw [cons_mem_iff_of_isFormulaChar (by decide)] at hrest
        exact ⟨f, after, by rw [← hf, List.cons_append], hrest⟩
      · rintro ⟨f, after, htext, hafter⟩
        rw [← List.cons_append] at htext
        rw [htext, split_call, List.cons.injEq] at hsplit
        obtain ⟨hname, hrest⟩ := hsplit
        have hopening : rest = '(' :: after := by
          rw [← flatten_split rest, ← hrest, ← split_opening, flatten_split]
        rw [← hname, String.ofList_toList, Func.ofName?_name, ← hrest, hopening,
          cons_mem_iff_of_isFormulaChar (by decide)]
        exact ⟨⟨rfl, rfl⟩, hafter⟩

/-! ### Calls replaced -/

/-- What stands behind a call at the front of a text. -/
def afterCall? (text : List Char) : Option (List Char) :=
  Func.all.findSome? fun f => text.dropPrefix? (f.name.toList ++ ['('])

theorem exists_of_afterCall? {text after : List Char} (h : afterCall? text = some after) :
    ∃ f : Func, text = f.name.toList ++ '(' :: after := by
  obtain ⟨f, -, hf⟩ := List.exists_of_findSome?_eq_some h
  obtain ⟨call, rfl, hcall⟩ := List.dropPrefix?_eq_some_iff.mp hf
  refine ⟨f, ?_⟩
  rw [beq_iff_eq.mp hcall, List.append_assoc]
  rfl

theorem afterCall?_call (f : Func) (after : List Char) : afterCall? (f.name.toList ++ '(' :: after) = some after := by
  have hdrop : (f.name.toList ++ '(' :: after).dropPrefix? (f.name.toList ++ ['(']) = some after :=
    List.dropPrefix?_eq_some_iff.mpr ⟨f.name.toList ++ ['('], by simp, by simp⟩
  have hsome : (afterCall? (f.name.toList ++ '(' :: after)).isSome = true := by
    rw [afterCall?, List.isSome_findSome?, List.any_eq_true]
    refine ⟨f, by cases f <;> decide, ?_⟩
    rw [hdrop]
    rfl
  obtain ⟨after', hafter⟩ := Option.isSome_iff_exists.mp hsome
  obtain ⟨g, hg⟩ := exists_of_afterCall? hafter
  rw [hafter, call_append_inj hg]

/-- A text with only the parenthesis left of each call in it, from left to right. -/
def withoutCalls : List Char → List Char
  | [] => []
  | c :: rest =>
    match _h : afterCall? (c :: rest) with
    | some after => '(' :: withoutCalls after
    | none => c :: withoutCalls rest
termination_by text => text.length
decreasing_by
  · obtain ⟨f, hf⟩ := exists_of_afterCall? _h
    rw [hf]
    simp
    omega
  · simp

theorem all_withoutCalls_iff {text : List Char} : (withoutCalls text).all isFormulaChar = true ↔ text ∈ parts∗ := by
  fun_induction withoutCalls text with
  | case1 => exact iff_of_true rfl (Language.nil_mem_kstar _)
  | case2 c rest after h ih =>
    obtain ⟨f, hf⟩ := exists_of_afterCall? h
    rw [hf, call_mem_iff, ← ih, List.all_cons]
    rfl
  | case3 c rest h ih =>
    rw [List.all_cons, Bool.and_eq_true, ih]
    by_cases hc : isFormulaChar c = true
    · rw [cons_mem_iff_of_isFormulaChar hc, hc]
      simp
    · rw [cons_mem_iff_of_foreign (by simpa using hc)]
      refine iff_of_false (fun hboth => hc hboth.1) ?_
      rintro ⟨f, after, htext, -⟩
      rw [htext, afterCall?_call] at h
      cases h

/-! ### Plain forms -/

section

variable {form before run after : List Char}

theorem IsPlain.isFormulaChar_or_isNameChar (h : IsPlain form) :
    ∀ c ∈ form, isFormulaChar c = true ∨ isNameChar c = true := by
  intro c hc
  rw [← flatten_split form] at hc
  obtain ⟨lexeme, hlexeme, hc⟩ := List.mem_flatten.mp hc
  rcases exists_name_of_isAdmissible h.admissible hlexeme with hall | ⟨f, rfl⟩
  · exact Or.inl (List.all_eq_true.mp hall c hc)
  · exact Or.inr (isNameChar_of_mem_name f c hc)

theorem isAdmissible_append {first second : List (List Char)} (h : isAdmissible (first ++ second) = true) :
    isAdmissible second = true := by
  induction first with
  | nil => exact h
  | cons lexeme first ih => exact ih (Bool.and_eq_true_iff.mp h).2

/-- Letters are a function's name, and it is called. -/
theorem IsPlain.name (h : IsPlain (before ++ run ++ after)) (hrun : IsMaximalRun isNameChar before run after) :
    (∃ f : Func, run = f.name.toList) ∧ after.head? = some '(' := by
  have hadmissible := h.admissible
  rw [hrun.split_eq isKind_isNameChar] at hadmissible
  have hlexeme := isAdmissible_append hadmissible
  rw [isAdmissible, Bool.and_eq_true, Bool.or_eq_true, Bool.and_eq_true, beq_iff_eq] at hlexeme
  rcases hlexeme.1 with hall | ⟨hname, hopening⟩
  · obtain ⟨c, hc⟩ := List.exists_mem_of_ne_nil run hrun.ne_nil
    have hformula := List.all_eq_true.mp hall c hc
    rw [isFormulaChar_eq_false_of_isNameChar (hrun.all c hc)] at hformula
    cases hformula
  · obtain ⟨_, rfl⟩ := exists_eq_opening_cons hopening
    exact ⟨Func.exists_eq_name hname, rfl⟩

theorem ofNumeral?_eq_none_iff_no_digit (hall : ∀ c ∈ run, Decimal.isNumeralChar c = true) :
    Decimal.ofNumeral? run = none ↔ (∀ c ∈ run, c.isDigit = false) ∨ 1 < run.count '.' := by
  rw [← Option.not_isSome_iff_eq_none, Decimal.isSome_ofNumeral?_iff]
  constructor
  · intro h
    by_cases hone : run.count '.' ≤ 1
    · refine Or.inl fun c hc => ?_
      by_contra hdigit
      exact h ⟨hall, hone, c, hc, by simpa using hdigit⟩
    · exact Or.inr (by omega)
  · rintro (hnone | hmany) ⟨-, hone, c, hc, hdigit⟩
    · rw [hnone c hc] at hdigit
      cases hdigit
    · omega

/-- A plain form without tokens has a run of digits and points that is no numeral. -/
theorem IsPlain.tokens_eq_none_iff (h : IsPlain form) :
    Token.ofText? form = none ↔ ∃ before run after, form = before ++ run ++ after ∧
      IsMaximalRun Decimal.isNumeralChar before run after ∧
        ((∀ c ∈ run, c.isDigit = false) ∨ 1 < run.count '.') := by
  have hplain : plain form = form := plain_eq_self h.chars
  rw [ofText?_form_eq_none_iff h.ofText?_eq, hplain]
  constructor
  · rintro ⟨run, hmem, hall, hrun⟩
    obtain ⟨hne, -, before, after, htext, hleft, hright⟩ := mem_split_iff.mp hmem
    exact ⟨before, run, after, htext, .of_borders isKind_isNumeralChar hne hall hleft hright,
      (ofNumeral?_eq_none_iff_no_digit hall).mp hrun⟩
  · rintro ⟨before, run, after, rfl, hrun, hbad⟩
    refine ⟨run, ?_, hrun.all, (ofNumeral?_eq_none_iff_no_digit hrun.all).mpr hbad⟩
    rw [hrun.split_eq isKind_isNumeralChar]
    simp

end

/-- **A text has a plain form exactly if** it has as many opening as closing parentheses and is put together from
characters of a formula and calls, once it is without blanks and in ASCII: that is, if it has no other character left
once every call in it is replaced by its parenthesis. Every run of letters in the plain form is the name of a function
that is called, and the plain form has tokens unless a run of digits and points in it has no digit or more than one
point. -/
theorem ofText?_exists_iff_parts (text : List Char) :
    ((∃ form, ofText? text = some form) ↔
      (plain text).count '(' = (plain text).count ')' ∧ plain text ∈ parts∗) ∧
      (plain text ∈ parts∗ ↔ (withoutCalls (plain text)).all isFormulaChar = true) ∧
      ∀ form, ofText? text = some form →
        (∀ c ∈ form, isFormulaChar c = true ∨ isNameChar c = true) ∧
        (∀ before run after, form = before ++ run ++ after → IsMaximalRun isNameChar before run after →
          (∃ f : Func, run = f.name.toList) ∧ after.head? = some '(') ∧
        (Token.ofText? form = none ↔ ∃ before run after, form = before ++ run ++ after ∧
          IsMaximalRun Decimal.isNumeralChar before run after ∧
            ((∀ c ∈ run, c.isDigit = false) ∨ 1 < run.count '.')) := by
  refine ⟨?_, all_withoutCalls_iff.symm, fun form hform => ?_⟩
  · simp only [ofText?_eq_some_iff, isBalanced, beq_iff_eq, isAdmissible_split_iff]
    constructor
    · rintro ⟨form, hbalanced, hparts, -⟩
      exact ⟨hbalanced, hparts⟩
    · rintro ⟨hbalanced, hparts⟩
      exact ⟨_, hbalanced, hparts, rfl⟩
  · have hplain := isPlain_of_ofText? hform
    refine ⟨hplain.isFormulaChar_or_isNameChar, ?_, hplain.tokens_eq_none_iff⟩
    rintro before run after rfl hrun
    exact hplain.name hrun

/-- A plain form with a name in it, and with a run that has two points. -/
theorem sine_form_has_parts :
    ofText? "2×sin(007)+1.2.3".toList = some "2*sin(7)+1.2.3".toList ∧
      plain "2×sin(007)+1.2.3".toList ∈ parts∗ ∧
      (withoutCalls (plain "2×sin(007)+1.2.3".toList)).all isFormulaChar = true ∧
      IsMaximalRun isNameChar "2*".toList "sin".toList "(7)+1.2.3".toList ∧
      (∃ f : Func, "sin".toList = f.name.toList) ∧
      IsMaximalRun Decimal.isNumeralChar "2*sin(7)+".toList "1.2.3".toList [] ∧
      Token.ofText? "2*sin(7)+1.2.3".toList = none := by
  have hform : ofText? "2×sin(007)+1.2.3".toList = some "2*sin(7)+1.2.3".toList := by decide +kernel
  have hname : IsMaximalRun isNameChar "2*".toList "sin".toList "(7)+1.2.3".toList :=
    ⟨by simp, by simp [isNameChar], by simp [isNameChar], by simp [isNameChar]⟩
  have hnumeral : IsMaximalRun Decimal.isNumeralChar "2*sin(7)+".toList "1.2.3".toList [] :=
    ⟨by simp, by simp [Decimal.isNumeralChar], by simp [Decimal.isNumeralChar], by simp⟩
  obtain ⟨haccepted, hreplaced, hforms⟩ := ofText?_exists_iff_parts "2×sin(007)+1.2.3".toList
  obtain ⟨-, hnames, htokens⟩ := hforms _ hform
  have hparts := (haccepted.mp ⟨_, hform⟩).2
  refine ⟨hform, hparts, hreplaced.mp hparts, hname, (hnames _ _ _ (by decide +kernel) hname).1, hnumeral, ?_⟩
  exact htokens.mpr ⟨_, _, _, by decide +kernel, hnumeral, Or.inr (by decide +kernel)⟩

end Reckoner.PlainForm
