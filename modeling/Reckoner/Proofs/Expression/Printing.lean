import Mathlib
import Reckoner.Proofs.Expression.Lexing
import Reckoner.Proofs.Number.Order
import Reckoner.Proofs.Number.Shortest

/-!
# Printed tokens

The texts of tokens, with a space between each two, have these tokens again, and so do the texts one right behind the
other if no numbers and no functions are neighbours (`ofText?_of_texts`). A number has to be finite and without a minus
sign: its text is then its shortest decimal, which is read back as the same number, to the last bit.
-/

namespace Reckoner.Token

/-- Whether tokens are such as a text can have: what is read from digits is finite and has no minus sign. -/
def IsWritable : Token → Prop
  | .number x => x.isFinite = true ∧ x.toBits.toNat < 2 ^ 63
  | _ => True

/-- Whether the texts of two neighbours would run together: they are both numbers or both functions. -/
def RunTogether : Token → Token → Prop
  | .number _, .number _ => True
  | .func _, .func _ => True
  | _, _ => False

variable {t u : Token}

/-! ### A token by itself -/

theorem text_number {x : Float} (h : IsWritable (.number x)) :
    ∃ d, Decimal.ofNumeral? (text (.number x)) = some d ∧ d.toFloat = x := by
  obtain ⟨rank, hx⟩ := Binary64.ofFloat_of_isFinite h.1 h.2
  have htext : text (.number x) = (Decimal.shortest rank).inPlace := by
    rw [text, hx, Binary64.text, if_neg (by decide), List.nil_append]
  obtain ⟨d, hread, hvalue⟩ := Decimal.ofNumeral?_inPlace (Decimal.shortest rank)
  have hrank : d.rank = rank := by
    rw [Decimal.rank, hvalue]
    exact Decimal.rank_shortest (Binary64.rank_lt_infinityRank hx).le
  refine ⟨d, by rw [htext, hread], ?_⟩
  rw [Decimal.toFloat, hrank, Binary64.toFloat_of_finite hx]

theorem ofText?_text (h : IsWritable t) : ofText? t.text = some [t] := by
  cases t with
  | number x =>
    obtain ⟨d, hread, hd⟩ := text_number h
    rw [ofText?_numeral hread, hd]
  | func f => cases f <;> rfl
  | _ => rfl

/-! ### Neighbours -/

/-- What kind of characters the text of a token consists of. -/
theorem number_or_func_or_separate (h : IsWritable t) :
    (∃ x, t = .number x) ∧ (∀ c ∈ t.text, Decimal.isNumeralChar c = true) ∨
      (∃ f, t = .func f) ∧ (∀ c ∈ t.text, Lexeme.isNameChar c = true) ∨
      ∀ c ∈ t.text, Lexeme.isSeparate c = true := by
  cases t with
  | number x =>
    obtain ⟨d, hread, -⟩ := text_number h
    exact Or.inl ⟨⟨x, rfl⟩, (Decimal.ofNumeral?_eq_some hread).2⟩
  | func f => exact Or.inr (Or.inl ⟨⟨f, rfl⟩, Lexeme.isNameChar_of_mem_name f⟩)
  | _ => exact Or.inr (Or.inr (List.forall_mem_singleton.mpr (by decide)))

theorem joined_eq_false (ht : IsWritable t) (hu : IsWritable u) (h : ¬RunTogether t u) :
    ∀ a ∈ t.text.getLast?, ∀ b ∈ u.text.head?, Lexeme.joined a b = false := by
  intro a ha b hb
  have ha := List.mem_of_mem_getLast? ha
  have hb := List.mem_of_mem_head? hb
  rcases number_or_func_or_separate ht with ⟨⟨x, rfl⟩, hat⟩ | ⟨⟨f, rfl⟩, hat⟩ | hat
  · rcases number_or_func_or_separate hu with ⟨⟨y, rfl⟩, hbu⟩ | ⟨-, hbu⟩ | hbu
    · exact absurd trivial h
    · rw [(Lexeme.isKind_isNameChar b a (hbu b hb)).2]
      exact Lexeme.isNameChar_eq_false_of_isNumeralChar (hat a ha)
    · exact Lexeme.joined_eq_false (Or.inr (hbu b hb))
  · rcases number_or_func_or_separate hu with ⟨-, hbu⟩ | ⟨⟨g, rfl⟩, hbu⟩ | hbu
    · rw [(Lexeme.isKind_isNameChar a b (hat a ha)).1]
      exact Lexeme.isNameChar_eq_false_of_isNumeralChar (hbu b hb)
    · exact absurd trivial h
    · exact Lexeme.joined_eq_false (Or.inr (hbu b hb))
  · exact Lexeme.joined_eq_false (Or.inl (hat a ha))

theorem text_ne_nil (h : IsWritable t) : t.text ≠ [] := by
  cases t with
  | number x =>
    obtain ⟨d, hread, -⟩ := text_number h
    exact (Decimal.ofNumeral?_eq_some hread).1
  | func f => exact Lexeme.name_ne_nil f
  | _ => exact List.cons_ne_nil _ _

/-! ### Tokens in a row -/

variable {tokens : List Token}

theorem ofText?_texts (hwritable : ∀ t ∈ tokens, IsWritable t) (hchain : tokens.IsChain (¬RunTogether · ·)) :
    ofText? (tokens.flatMap text) = some tokens := by
  induction tokens with
  | nil => rfl
  | cons t rest ih =>
    obtain ⟨ht, hrest⟩ := List.forall_mem_cons.mp hwritable
    have hborder : ∀ a ∈ t.text.getLast?, ∀ b ∈ (rest.flatMap text).head?, Lexeme.joined a b = false := by
      cases rest with
      | nil => simp
      | cons u rest =>
        have hu := hrest u List.mem_cons_self
        rw [List.flatMap_cons, List.head?_append_of_ne_nil _ (text_ne_nil hu)]
        exact joined_eq_false ht hu (List.isChain_cons_cons.mp hchain).1
    exact ofText?_append hborder (ofText?_text ht) (ih hrest hchain.tail)

/-- What stands in front of a space and what stands behind it have tokens of their own. -/
theorem ofText?_append_space {before after : List Char} {tokens more : List Token}
    (hbefore : ofText? before = some tokens) (hafter : ofText? after = some more) :
    ofText? (before ++ ' ' :: after) = some (tokens ++ more) := by
  have hseparate : Lexeme.isSeparate ' ' = true := by decide
  have hspace : ofText? [' '] = some [] := rfl
  have hrest : ofText? ([' '] ++ after) = some ([] ++ more) := by
    refine ofText?_append (fun a ha b _ => ?_) hspace hafter
    obtain rfl : ' ' = a := Option.some.inj ha
    exact Lexeme.joined_eq_false (Or.inl hseparate)
  refine ofText?_append (fun a _ b hb => ?_) hbefore hrest
  obtain rfl : ' ' = b := Option.some.inj hb
  exact Lexeme.joined_eq_false (Or.inr hseparate)

theorem ofText?_spaced_texts (hwritable : ∀ t ∈ tokens, IsWritable t) :
    ofText? ([' '].intercalate (tokens.map text)) = some tokens := by
  induction tokens with
  | nil => rfl
  | cons t rest ih =>
    obtain ⟨ht, hrest⟩ := List.forall_mem_cons.mp hwritable
    cases rest with
    | nil =>
      rw [List.map_singleton, List.intercalate_singleton]
      exact ofText?_text ht
    | cons u rest =>
      rw [List.map_cons, List.map_cons, List.intercalate_cons_cons, List.append_assoc, List.singleton_append]
      exact ofText?_append_space (ofText?_text ht) (ih hrest)

/-- **Printed tokens are read back as they were**, numbers to the last bit: always with spaces between them, and
without spaces unless numbers or functions are neighbours. -/
theorem ofText?_of_texts (hwritable : ∀ t ∈ tokens, IsWritable t) :
    ofText? ([' '].intercalate (tokens.map text)) = some tokens ∧
      (tokens.IsChain (¬RunTogether · ·) → ofText? (tokens.flatMap text) = some tokens) :=
  ⟨ofText?_spaced_texts hwritable, ofText?_texts hwritable⟩

/-- Among these numbers are the least positive one and zero. -/
theorem ofText?_of_quotient_text :
    let tokens : List Token := [.func .sqrt, .opening, .number (Float.ofBits 1), .over, .number 1e22, .closing, .number 0]
    (∀ t ∈ tokens, IsWritable t) ∧ tokens.IsChain (¬RunTogether · ·) ∧
      ofText? ([' '].intercalate (tokens.map text)) = some tokens ∧ ofText? (tokens.flatMap text) = some tokens := by
  intro tokens
  have hnumber : ∀ x ∈ [Float.ofBits 1, 1e22, 0], x.isFinite = true ∧ x.toBits.toNat < 2 ^ 63 := by decide
  have hwritable : ∀ t ∈ tokens, IsWritable t := by
    simpa [tokens, IsWritable] using hnumber
  have hchain : tokens.IsChain (¬RunTogether · ·) := by
    simp [tokens, RunTogether]
  obtain ⟨hspaced, hjoined⟩ := ofText?_of_texts hwritable
  exact ⟨hwritable, hchain, hspaced, hjoined hchain⟩

end Reckoner.Token
