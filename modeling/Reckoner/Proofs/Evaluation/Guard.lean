import Reckoner.Proofs.Evaluation.Stages
import Reckoner.Proofs.Expression.LeadingZeros
import Reckoner.Proofs.Grammar.Reading

/-!
# The plain form guards nothing

A text has to have a plain form before it gets tokens: its parentheses are counted, its characters and names
are looked at, and its leading zeros are dropped. None of this decides whether there is an answer
(`evaluate_eq_ok_iff_unguarded`). A text whose tokens are a formula is balanced and calls its functions at
once, since every derivation does, and the zeros do not matter to its tokens.
-/

namespace Reckoner

namespace Token

def isOpening : Token → Bool
  | .opening => true
  | _ => false

def isClosing : Token → Bool
  | .closing => true
  | _ => false

/-- Whether every function is directly followed by an opening parenthesis. -/
def callsAtOnce : List Token → Bool
  | [] => true
  | .func _ :: rest => rest.head?.any isOpening && callsAtOnce rest
  | _ :: rest => callsAtOnce rest

end Token

namespace Grammar.Derivation

open Token

theorem countP_isOpening_tokens {p : Phrase} (d : Derivation p) :
    d.tokens.countP isOpening = d.tokens.countP isClosing := by
  induction d with
  | sum first rest ihFirst ihRest | product first rest ihFirst ihRest =>
    rw [tokens, List.countP_append, List.countP_append, ihFirst, ihRest]
  | sumEnd | productEnd | number x => rfl
  | sumStep op next rest ihNext ihRest =>
    have hop : isOpening op.token = false ∧ isClosing op.token = false := by cases op <;> decide
    simp [tokens, hop, ihNext, ihRest]
  | productStep op next rest ihNext ihRest =>
    have hop : isOpening op.token = false ∧ isClosing op.token = false := by cases op <;> decide
    simp [tokens, hop, ihNext, ihRest]
  | positive operand ih | negative operand ih => simpa [tokens, isOpening, isClosing] using ih
  | unsigned operand ih | bare operand ih => exact ih
  | raised base exponent ihBase ihExponent =>
    simp [tokens, isOpening, isClosing, ihBase, ihExponent]
  | group inner ih => simp [tokens, List.countP_cons, isOpening, isClosing, ih]
  | call f argument ih => simp [tokens, List.countP_cons, isOpening, isClosing, ih]

/-- What comes after a phrase decides about the calls alone: those of the phrase are at once. -/
theorem callsAtOnce_tokens {p : Phrase} (d : Derivation p) (rest : List Token) :
    callsAtOnce (d.tokens ++ rest) = callsAtOnce rest := by
  induction d generalizing rest with
  | sum first more ihFirst ihMore | product first more ihFirst ihMore =>
    rw [tokens, List.append_assoc, ihFirst, ihMore]
  | sumEnd | productEnd | number x => rfl
  | sumStep op next more ihNext ihMore =>
    have hop : callsAtOnce (op.token :: (next.tokens ++ (more.tokens ++ rest))) =
        callsAtOnce (next.tokens ++ (more.tokens ++ rest)) := by cases op <;> rfl
    rw [tokens, List.cons_append, List.append_assoc, hop, ihNext, ihMore]
  | productStep op next more ihNext ihMore =>
    have hop : callsAtOnce (op.token :: (next.tokens ++ (more.tokens ++ rest))) =
        callsAtOnce (next.tokens ++ (more.tokens ++ rest)) := by cases op <;> rfl
    rw [tokens, List.cons_append, List.append_assoc, hop, ihNext, ihMore]
  | positive operand ih | negative operand ih | unsigned operand ih | bare operand ih => exact ih rest
  | raised base exponent ihBase ihExponent =>
    rw [tokens, List.append_assoc, ihBase, List.cons_append, callsAtOnce, ihExponent]
    all_goals simp
  | group inner ih =>
    rw [tokens, List.cons_append, List.append_assoc, callsAtOnce, ih]
    all_goals simp [callsAtOnce]
  | call f argument ih =>
    rw [tokens, List.cons_append, List.cons_append, List.append_assoc]
    simp [callsAtOnce, isOpening, ih]

end Grammar.Derivation

namespace Token.Spells

variable {lexeme : List Char} {t : Token}

theorem not_isNumeralChar_of_mem {c : Char} {d : Decimal} (h : Decimal.ofNumeral? lexeme = some d)
    (hc : Decimal.isNumeralChar c = false) : c ∉ lexeme := by
  intro hmem
  rw [(Decimal.ofNumeral?_eq_some h).2 c hmem] at hc
  cases hc

theorem count_opening (h : Spells lexeme t) : lexeme.count '(' = [t].countP isOpening := by
  cases h with
  | number h => exact List.count_eq_zero.mpr (not_isNumeralChar_of_mem h (by decide))
  | func f => cases f <;> rfl
  | _ => rfl

theorem count_closing (h : Spells lexeme t) : lexeme.count ')' = [t].countP isClosing := by
  cases h with
  | number h => exact List.count_eq_zero.mpr (not_isNumeralChar_of_mem h (by decide))
  | func f => cases f <;> rfl
  | _ => rfl

theorem eq_opening (h : Spells lexeme t) (ht : isOpening t = true) : lexeme = ['('] := by
  cases h with
  | opening => rfl
  | _ => cases ht

theorem eq_name {f : Func} (h : Spells lexeme (.func f)) : lexeme = f.name.toList := by
  cases h
  rfl

theorem all_isFormulaChar (h : Spells lexeme t) (ht : ∀ f, t ≠ .func f) :
    lexeme.all PlainForm.isFormulaChar = true := by
  cases h with
  | number h =>
    rw [List.all_eq_true]
    intro c hc
    rcases Decimal.isNumeralChar_iff.mp ((Decimal.ofNumeral?_eq_some h).2 c hc) with hdigit | rfl
    · rw [PlainForm.isFormulaChar, hdigit, Bool.true_or]
    · decide
  | func f => exact absurd rfl (ht f)
  | _ => decide

end Token.Spells

namespace PlainForm

open Token

theorem mapM_cons_eq_some_iff {α β : Type} {f : α → Option β} {a : α} {as : List α} {bs : List β} :
    (a :: as).mapM f = some bs ↔ ∃ b bs', f a = some b ∧ as.mapM f = some bs' ∧ bs = b :: bs' := by
  simp only [List.mapM_cons, Option.bind_eq_bind, Option.bind_eq_some_iff, Option.pure_def, Option.some.injEq]
  constructor
  · rintro ⟨b, hb, bs', hbs, rfl⟩
    exact ⟨b, bs', hb, hbs, rfl⟩
  · rintro ⟨b, bs', hb, hbs, rfl⟩
    exact ⟨b, hb, bs', hbs, rfl⟩

theorem count_flatten_of_tokens {lexemes : List (List Char)} {tokens : List Token}
    (h : lexemes.mapM ofLexeme? = some tokens) :
    lexemes.flatten.count '(' = tokens.countP isOpening ∧
      lexemes.flatten.count ')' = tokens.countP isClosing := by
  induction lexemes generalizing tokens with
  | nil =>
    cases h
    exact ⟨rfl, rfl⟩
  | cons lexeme lexemes ih =>
    obtain ⟨t, ts, ht, hts, rfl⟩ := mapM_cons_eq_some_iff.mp h
    have hspells := ofLexeme?_eq_some_iff.mp ht
    rw [List.flatten_cons, List.count_append, List.count_append, hspells.count_opening,
      hspells.count_closing, (ih hts).1, (ih hts).2, ← List.countP_append, ← List.countP_append]
    exact ⟨rfl, rfl⟩

theorem isAdmissible_of_tokens {lexemes : List (List Char)} {tokens : List Token}
    (h : lexemes.mapM ofLexeme? = some tokens) (hcalls : callsAtOnce tokens = true) :
    isAdmissible lexemes = true := by
  induction lexemes generalizing tokens with
  | nil => rfl
  | cons lexeme lexemes ih =>
    obtain ⟨t, ts, ht, hts, rfl⟩ := mapM_cons_eq_some_iff.mp h
    have hspells := ofLexeme?_eq_some_iff.mp ht
    rw [isAdmissible, Bool.and_eq_true, Bool.or_eq_true, Bool.and_eq_true]
    by_cases hfunc : ∃ f, t = .func f
    · obtain ⟨f, rfl⟩ := hfunc
      rw [callsAtOnce, Bool.and_eq_true] at hcalls
      obtain ⟨hhead, hcalls⟩ := hcalls
      refine ⟨Or.inr ⟨?_, ?_⟩, ih hts hcalls⟩
      · rw [hspells.eq_name, String.ofList_toList, Func.ofName?_name]
        rfl
      · cases lexemes with
        | nil =>
          cases hts
          cases hhead
        | cons next lexemes =>
          obtain ⟨t', ts', ht', _, rfl⟩ := mapM_cons_eq_some_iff.mp hts
          rw [(ofLexeme?_eq_some_iff.mp ht').eq_opening hhead]
          rfl
    · have hnot : ∀ f, t ≠ .func f := fun f hf => hfunc ⟨f, hf⟩
      refine ⟨Or.inl (hspells.all_isFormulaChar hnot), ih hts ?_⟩
      rwa [callsAtOnce] at hcalls
      exact hnot

/-! ### The guard -/

theorem ofText?_eq_some_iff {text form : List Char} :
    ofText? text = some form ↔
      isBalanced (plain text) = true ∧ isAdmissible (Lexeme.split (plain text)) = true ∧
        form = dropLeadingZeros (plain text) := by
  simp only [ofText?, ← and_assoc, ← Bool.and_eq_true]
  split
  · rename_i hform
    rw [and_iff_right hform, Option.some.injEq]
    exact eq_comm
  · rename_i hform
    simp [hform]

theorem isBlank_of_mem_plain {text : List Char} {c : Char} (h : c ∈ plain text) : Text.isBlank c = false := by
  obtain ⟨d, hd, rfl⟩ := List.mem_map.mp h
  have hblank := (List.mem_filter.mp hd).2
  rw [plainChar.eq_def]
  split
  · decide
  · decide
  · decide
  · simpa using hblank

/-- A text without blanks has the tokens of all of its lexemes. -/
theorem ofText?_plain (text : List Char) :
    Token.ofText? (plain text) = (Lexeme.split (plain text)).mapM ofLexeme? := by
  rw [Token.ofText?, List.filter_eq_self.mpr]
  intro lexeme hlexeme
  obtain ⟨c, hc⟩ := List.exists_mem_of_ne_nil lexeme (Lexeme.ne_nil_of_mem_split hlexeme)
  have hmem : c ∈ plain text := by
    rw [← Lexeme.flatten_split (plain text)]
    exact List.mem_flatten_of_mem hlexeme hc
  rw [Bool.not_eq_true', List.all_eq_false]
  exact ⟨c, hc, by rw [isBlank_of_mem_plain hmem]; exact Bool.false_ne_true⟩

/-- A text with the tokens of a formula has a plain form. -/
theorem ofText?_of_tokens {text : List Char} {tokens : List Token} {e : Expr}
    (htokens : Token.ofText? (plain text) = some tokens) (he : Expr.ofTokens? tokens = some e) :
    ofText? text = some (dropLeadingZeros (plain text)) := by
  obtain ⟨d, rfl, _, _⟩ := Grammar.ofTokens?_eq_some_iff.mp he
  rw [ofText?_plain] at htokens
  have hcount := count_flatten_of_tokens htokens
  rw [Lexeme.flatten_split, d.countP_isOpening_tokens] at hcount
  have hcalls : callsAtOnce d.tokens = true := by
    have h := d.callsAtOnce_tokens []
    rw [List.append_nil] at h
    exact h
  have hbalanced : isBalanced (plain text) = true := by
    rw [isBalanced, hcount.1, hcount.2, beq_self_eq_true]
  exact ofText?_eq_some_iff.mpr ⟨hbalanced, isAdmissible_of_tokens htokens hcalls, rfl⟩

end PlainForm

/-- A text with the tokens of a formula is evaluated by its tokens. -/
theorem evaluate_of_tokens {expression : String} {tokens : List Token} {e : Expr}
    (htokens : Token.ofText? (PlainForm.plain expression.toList) = some tokens)
    (he : Expr.ofTokens? tokens = some e) : evaluate expression = evaluateTokens tokens := by
  rw [evaluate, PlainForm.ofText?_of_tokens htokens he]
  simp only [orInvalid, bind, Except.bind, PlainForm.ofText?_dropLeadingZeros, htokens]

/-- **The plain form guards nothing**: a formula has an answer exactly if its text, without blanks and with
ASCII operators but otherwise as it is, has tokens that are not divided by a literal zero and whose value can
be shown, and then that is its answer. -/
theorem evaluate_eq_ok_iff_unguarded (expression r : String) :
    evaluate expression = .ok r ↔
      ∃ tokens v, Token.ofText? (PlainForm.plain expression.toList) = some tokens ∧
        Expr.dividesByZeroLiteral tokens = false ∧ valueOfTokens tokens = .ok v ∧ answerText v = .ok r := by
  rw [evaluate_eq_ok_iff]
  constructor
  · rintro ⟨plain, tokens, hplain, htokens, h⟩
    obtain ⟨hzero, v, hv, hr⟩ := evaluateTokens_eq_ok_iff.mp h
    rw [PlainForm.ofText?] at hplain
    split at hplain
    · cases hplain
      rw [PlainForm.ofText?_dropLeadingZeros] at htokens
      exact ⟨tokens, v, htokens, hzero, hv, hr⟩
    · cases hplain
  · rintro ⟨tokens, v, htokens, hzero, hv, hr⟩
    obtain ⟨e, he, _⟩ := Option.map_eq_some_iff.mp (orInvalid_eq_ok_iff.mp hv)
    refine ⟨_, tokens, PlainForm.ofText?_of_tokens htokens he, ?_, ?_⟩
    · rw [PlainForm.ofText?_dropLeadingZeros, htokens]
    · exact evaluateTokens_eq_ok_iff.mpr ⟨hzero, v, hv, hr⟩

end Reckoner
