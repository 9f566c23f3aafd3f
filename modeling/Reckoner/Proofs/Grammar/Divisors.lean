import Reckoner.Proofs.Grammar.Derivation

/-!
# Divisors and literal zeros

Before tokens are read, they are searched for a division sign with a zero directly behind it. What the search finds is
an operand that a zero begins. Among the divisors of a formula (`Expr.divisors`) these are the zeros themselves, and
also the powers of a zero, since an exponent binds tighter than the division sign (`dividesByZeroLiteral_iff`): `1/0^0`
is found, although its divisor is one.
-/

namespace Reckoner

namespace Expr

/-- What a formula divides by, at any depth. -/
def divisors : Expr → List Expr
  | .number _ => []
  | .positive e | .negative e | .group e | .call _ e => e.divisors
  | .add l r | .subtract l r | .multiply l r | .power l r => l.divisors ++ r.divisors
  | .divide l r => l.divisors ++ r :: r.divisors

/-- Whether an operand is a zero or a power of a zero. -/
def beginsWithZero : Expr → Bool
  | .number x | .power (.number x) _ => x == 0
  | _ => false

/-- Whether a formula divides by a zero or by a power of a zero. -/
def hasZeroDivisor (e : Expr) : Bool :=
  e.divisors.any beginsWithZero

theorem beginsWithZero_iff {e : Expr} :
    e.beginsWithZero = true ↔
      ∃ x : Float, (x == 0) = true ∧ (e = .number x ∨ ∃ exponent, e = .power (.number x) exponent) := by
  constructor
  · intro h
    rw [beginsWithZero.eq_def] at h
    split at h
    · rename_i x
      exact ⟨x, h, Or.inl rfl⟩
    · rename_i x exponent
      exact ⟨x, h, Or.inr ⟨exponent, rfl⟩⟩
    · cases h
  · rintro ⟨x, hx, rfl | ⟨exponent, rfl⟩⟩ <;> exact hx

/-! ### The search, token by token -/

/-- Whether the first of some tokens is a zero. -/
def startsWithZero : List Token → Bool
  | .number x :: _ => x == 0
  | _ => false

end Expr

@[simp] def Token.isOver : Token → Bool
  | .over => true
  | _ => false

theorem Expr.dividesByZeroLiteral_cons (t : Token) (rest : List Token) :
    dividesByZeroLiteral (t :: rest) = (t.isOver && startsWithZero rest || dividesByZeroLiteral rest) := by
  cases rest with
  | nil => cases t <;> rfl
  | cons t' rest => cases t <;> cases t' <;> rfl

namespace Grammar

open Reckoner.Expr

/-- The search through the tokens of a phrase finds what its formula divides by, whatever comes after it. -/
def Phrase.Finds : (p : Phrase) → p.Meaning Expr → List Token → Prop
  | .sum, e, tokens | .product, e, tokens | .signed, e, tokens | .power, e, tokens | .primary, e, tokens =>
    ∀ more, dividesByZeroLiteral (tokens ++ more) = (e.hasZeroDivisor || dividesByZeroLiteral more)
  | .sumRest, f, tokens | .productRest, f, tokens => ∀ left more,
    (left.hasZeroDivisor || dividesByZeroLiteral (tokens ++ more)) =
      ((f left).hasZeroDivisor || dividesByZeroLiteral more)

theorem SumOperator.isOver_token (op : SumOperator) : op.token.isOver = false := by
  cases op <;> rfl

theorem SumOperator.hasZeroDivisor_join (op : SumOperator) (l r : Expr) :
    (op.join l r).hasZeroDivisor = (l.hasZeroDivisor || r.hasZeroDivisor) := by
  cases op <;> exact List.any_append

theorem ProductOperator.hasZeroDivisor_join (op : ProductOperator) (l r : Expr) :
    (op.join l r).hasZeroDivisor =
      (l.hasZeroDivisor || (op.token.isOver && r.beginsWithZero || r.hasZeroDivisor)) := by
  cases op <;> simp [join, token, hasZeroDivisor, divisors]

namespace Derivation

/-- The tokens of an operand start with a zero exactly if the operand begins with one. -/
theorem startsWithZero_tokens (d : Derivation .signed) (more : List Token) :
    startsWithZero (d.tokens ++ more) = d.tree.beginsWithZero := by
  cases d with
  | positive operand | negative operand => rfl
  | unsigned operand =>
    cases operand with
    | bare base => cases base <;> rfl
    | raised base exponent => cases base <;> rfl

theorem tree_finds {p : Phrase} (d : Derivation p) : p.Finds d.tree d.tokens := by
  induction d with
  | sum first rest ihFirst ihRest | product first rest ihFirst ihRest =>
    intro more
    rw [tokens, List.append_assoc, ihFirst]
    exact ihRest first.tree more
  | sumEnd | productEnd => exact fun _ _ => rfl
  | sumStep op next rest ihNext ihRest =>
    intro left more
    have hrest := ihRest (op.join left next.tree) more
    rw [op.hasZeroDivisor_join] at hrest
    rw [tree, ← hrest, tokens, List.cons_append, List.append_assoc, dividesByZeroLiteral_cons, op.isOver_token,
      ihNext, Bool.false_and, Bool.false_or, Bool.or_assoc]
  | productStep op next rest ihNext ihRest =>
    intro left more
    have hrest := ihRest (op.join left next.tree) more
    rw [op.hasZeroDivisor_join] at hrest
    rw [tree, ← hrest, tokens, List.cons_append, List.append_assoc, dividesByZeroLiteral_cons,
      startsWithZero_tokens, ihNext, Bool.or_assoc, Bool.or_assoc]
  | positive operand ih | negative operand ih =>
    intro more
    rw [tokens, List.cons_append, dividesByZeroLiteral_cons, ih]
    rfl
  | unsigned operand ih | bare operand ih => exact ih
  | raised base exponent ihBase ihExponent =>
    intro more
    rw [tokens, List.append_assoc, ihBase, List.cons_append, dividesByZeroLiteral_cons, ihExponent]
    simp [hasZeroDivisor, divisors, Bool.or_assoc]
  | number x => exact fun more => dividesByZeroLiteral_cons (.number x) more
  | group inner ih =>
    intro more
    rw [tokens, List.cons_append, List.append_assoc, dividesByZeroLiteral_cons, ih, List.singleton_append,
      dividesByZeroLiteral_cons]
    rfl
  | call f argument ih =>
    intro more
    rw [tokens, List.cons_append, List.cons_append, List.append_assoc, dividesByZeroLiteral_cons,
      dividesByZeroLiteral_cons, ih, List.singleton_append, dividesByZeroLiteral_cons]
    rfl

theorem dividesByZeroLiteral_tokens (d : Derivation .sum) :
    dividesByZeroLiteral d.tokens = d.tree.hasZeroDivisor := by
  have hfinds : Phrase.sum.Finds d.tree d.tokens := d.tree_finds
  simpa [dividesByZeroLiteral] using hfinds []

end Derivation

/-- **Where a division by a literal zero is found**: in the formulas that divide by a zero or by a power of a zero. -/
theorem dividesByZeroLiteral_iff (d : Derivation .sum) :
    dividesByZeroLiteral d.tokens = true ↔
      ∃ x : Float, (x == 0) = true ∧
        (.number x ∈ d.tree.divisors ∨ ∃ exponent, .power (.number x) exponent ∈ d.tree.divisors) := by
  rw [d.dividesByZeroLiteral_tokens, hasZeroDivisor, List.any_eq_true]
  simp only [beginsWithZero_iff]
  constructor
  · rintro ⟨e, he, x, hx, rfl | ⟨exponent, rfl⟩⟩
    · exact ⟨x, hx, Or.inl he⟩
    · exact ⟨x, hx, Or.inr ⟨exponent, he⟩⟩
  · rintro ⟨x, hx, he | ⟨exponent, he⟩⟩
    · exact ⟨_, he, x, hx, Or.inl rfl⟩
    · exact ⟨_, he, x, hx, Or.inr ⟨exponent, rfl⟩⟩

/-- The divisor of `1/0^0` is no zero. -/
theorem not_forall_dividesByZeroLiteral :
    ¬∀ d : Derivation .sum, dividesByZeroLiteral d.tokens = true ↔
        ∃ x : Float, (x == 0) = true ∧ .number x ∈ d.tree.divisors := by
  intro h
  let zero : Derivation .primary := .number 0
  let d : Derivation .sum :=
    .sum (.product (.unsigned (.bare (.number 1)))
      (.productStep .over (.unsigned (.raised zero (.unsigned (.bare zero)))) .productEnd)) .sumEnd
  have hfound : dividesByZeroLiteral d.tokens = true := by decide
  have hdivisors : d.tree.divisors = [.power (.number 0) (.number 0)] := rfl
  obtain ⟨x, -, hx⟩ := (h d).mp hfound
  rw [hdivisors, List.mem_singleton] at hx
  cases hx

end Grammar
end Reckoner
