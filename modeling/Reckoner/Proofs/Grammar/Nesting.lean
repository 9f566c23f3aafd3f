import Reckoner.Proofs.Grammar.Reading

/-!
# How deep a formula may be nested

A reader passes through `signed` for the operand that everything else stands in, and once more for every parenthesis,
call, sign and exponent. On its deepest path a derivation therefore has one signed node more than its formula is
nested (`signedNodes_eq_nesting_add_one`), and of the 256 levels that a reader has to spare 255 are left to the
nesting (`exists_valueOfTokens_iff_nesting_le`).
-/

namespace Reckoner.Grammar

open Reckoner.Expr

/-! ### Signed nodes and nesting -/

/-- How many signed nodes a formula of some nesting comes with. A power has one only around it, and the rest of a
chain is as deep as it makes the operand in front of it. -/
def Phrase.Nests : (p : Phrase) → p.Meaning Expr → Nat → Prop
  | .sum, e, nodes | .product, e, nodes | .signed, e, nodes => nodes = e.nesting + 1
  | .power, e, nodes | .primary, e, nodes => nodes = e.nesting
  | .sumRest, f, nodes | .productRest, f, nodes => ∀ left, (f left).nesting + 1 = max (left.nesting + 1) nodes

theorem SumOperator.nesting_join (op : SumOperator) (l r : Expr) :
    (op.join l r).nesting = max l.nesting r.nesting := by
  cases op <;> rfl

theorem ProductOperator.nesting_join (op : ProductOperator) (l r : Expr) :
    (op.join l r).nesting = max l.nesting r.nesting := by
  cases op <;> rfl

namespace Derivation

theorem tree_nests {p : Phrase} (d : Derivation p) : p.Nests d.tree d.signedNodes := by
  induction d with
  | sum first rest ihFirst ihRest | product first rest ihFirst ihRest =>
    simp only [Phrase.Nests] at ihFirst ihRest ⊢
    have hrest := ihRest first.tree
    simp only [tree, signedNodes]
    omega
  | sumEnd | productEnd =>
    intro left
    simp
  | sumStep op next rest ihNext ihRest | productStep op next rest ihNext ihRest =>
    intro left
    simp only [Phrase.Nests] at ihNext ihRest
    have hrest := ihRest (op.join left next.tree)
    have hjoin := op.nesting_join left next.tree
    simp only [tree, signedNodes]
    omega
  | positive operand ih | negative operand ih | unsigned operand ih =>
    simp only [Phrase.Nests] at ih ⊢
    simp [Expr.nesting, ih]
  | bare base ih => exact ih
  | raised base exponent ihBase ihExponent =>
    simp only [Phrase.Nests] at ihBase ihExponent ⊢
    simp [Expr.nesting, ihBase, ihExponent]
  | number x => rfl
  | group inner ih | call f inner ih =>
    simp only [Phrase.Nests] at ih ⊢
    simp [Expr.nesting, ih]

theorem signedNodes_eq_nesting_add_one (d : Derivation .sum) : d.signedNodes = d.tree.nesting + 1 :=
  d.tree_nests

end Derivation

/-! ### Which formulas have a value -/

theorem exists_valueOfTokens_iff (d : Derivation .sum) :
    (∃ v, valueOfTokens d.tokens = .ok v) ↔ d.signedNodes ≤ maxLevels := by
  constructor
  · rintro ⟨v, hv⟩
    rw [valueOfTokens, orInvalid_eq_ok_iff, Option.map_eq_some_iff] at hv
    obtain ⟨e, he, -⟩ := hv
    obtain ⟨d', htokens, hlevels, -⟩ := ofTokens?_eq_some_iff.mp he
    rwa [Derivation.tokens_injective htokens] at hlevels
  · intro hlevels
    have he := ofTokens?_eq_some_iff.mpr ⟨d, rfl, hlevels, rfl⟩
    exact ⟨d.tree.value, by rw [valueOfTokens, he]; rfl⟩

/-- **How deep a formula may be nested**: it has a value exactly if there are at most 255 parentheses, calls, signs and
exponents around each of its numbers. -/
theorem exists_valueOfTokens_iff_nesting_le (d : Derivation .sum) :
    (∃ v, valueOfTokens d.tokens = .ok v) ↔ d.tree.nesting ≤ 255 := by
  rw [exists_valueOfTokens_iff, d.signedNodes_eq_nesting_add_one, maxLevels]
  omega

/-! ### One level too many -/

/-- A number in some pairs of parentheses. -/
def parenthesised (x : Float) : Nat → Derivation .primary
  | 0 => .number x
  | n + 1 => .group (.sum (.product (.unsigned (.bare (parenthesised x n))) .productEnd) .sumEnd)

theorem nesting_parenthesised (x : Float) (n : Nat) : (parenthesised x n).tree.nesting = n := by
  induction n with
  | zero => rfl
  | succ n ih => exact congrArg (· + 1) ih

/-- A number in 256 pairs of parentheses has no value. -/
theorem not_forall_exists_valueOfTokens :
    ¬∀ d : Derivation .sum, (∃ v, valueOfTokens d.tokens = .ok v) ↔ d.tree.nesting ≤ 256 := by
  intro h
  let d : Derivation .sum := .sum (.product (.unsigned (.bare (parenthesised 1 256))) .productEnd) .sumEnd
  have hnesting : d.tree.nesting = 256 := nesting_parenthesised 1 256
  have hlevels := (exists_valueOfTokens_iff d).mp ((h d).mpr (Nat.le_of_eq hnesting))
  rw [d.signedNodes_eq_nesting_add_one, hnesting, maxLevels] at hlevels
  omega

end Reckoner.Grammar
