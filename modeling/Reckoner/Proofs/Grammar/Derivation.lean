import Reckoner.Expression.Reading

/-!
# Derivations of formulas

The grammar of formulas as a type: a `Derivation` of a phrase is a tree with one node for every use of a
rule, so a list of tokens is a formula exactly if it is the `tokens` of a derivation of a sum.

    sum      = product (("+" | "-") product)*
    product  = signed (("*" | "/") signed)*
    signed   = ("+" | "-") signed | power
    power    = primary ("^" signed)?
    primary  = number | "(" sum ")" | function "(" sum ")"

The main statement is `tokens_injective`: no list of tokens has two derivations. It is proved for a phrase
in front of any tokens that do not go on with it (`OnlyReading`): what each rule of the grammar makes of parts
that are read in only one way is read in only one way (`unique_reading`).
-/

namespace Reckoner.Grammar

/-- The phrases of the grammar; the rest of a sum or a product is what comes after its first operand. -/
inductive Phrase
  | sum
  | sumRest
  | product
  | productRest
  | signed
  | power
  | primary
  deriving DecidableEq, Repr

/-- The operators of a sum. -/
inductive SumOperator
  | plus
  | minus
  deriving DecidableEq, Repr

/-- The operators of a product. -/
inductive ProductOperator
  | times
  | over
  deriving DecidableEq, Repr

/-- A derivation tree of a phrase. -/
inductive Derivation : Phrase → Type
  | sum (first : Derivation .product) (rest : Derivation .sumRest) : Derivation .sum
  | sumEnd : Derivation .sumRest
  | sumStep (op : SumOperator) (next : Derivation .product) (rest : Derivation .sumRest) :
      Derivation .sumRest
  | product (first : Derivation .signed) (rest : Derivation .productRest) : Derivation .product
  | productEnd : Derivation .productRest
  | productStep (op : ProductOperator) (next : Derivation .signed) (rest : Derivation .productRest) :
      Derivation .productRest
  | positive (operand : Derivation .signed) : Derivation .signed
  | negative (operand : Derivation .signed) : Derivation .signed
  | unsigned (operand : Derivation .power) : Derivation .signed
  | bare (base : Derivation .primary) : Derivation .power
  | raised (base : Derivation .primary) (exponent : Derivation .signed) : Derivation .power
  | number (x : Float) : Derivation .primary
  | group (inner : Derivation .sum) : Derivation .primary
  | call (f : Func) (argument : Derivation .sum) : Derivation .primary

namespace SumOperator

/-- The token of an operator. -/
def token : SumOperator → Token
  | .plus => .plus
  | .minus => .minus

/-- The operation on binary64 numbers. -/
def apply : SumOperator → Float → Float → Float
  | .plus, x, y => x + y
  | .minus, x, y => x - y

/-- The tree of two joined operands. -/
def join : SumOperator → Expr → Expr → Expr
  | .plus => .add
  | .minus => .subtract

theorem token_injective {op op' : SumOperator} (h : op.token = op'.token) : op = op' := by
  cases op <;> cases op' <;> first | rfl | cases h

end SumOperator

namespace ProductOperator

/-- The token of an operator. -/
def token : ProductOperator → Token
  | .times => .times
  | .over => .over

/-- The operation on binary64 numbers. -/
def apply : ProductOperator → Float → Float → Float
  | .times, x, y => x * y
  | .over, x, y => x / y

/-- The tree of two joined operands. -/
def join : ProductOperator → Expr → Expr → Expr
  | .times => .multiply
  | .over => .divide

theorem token_injective {op op' : ProductOperator} (h : op.token = op'.token) : op = op' := by
  cases op <;> cases op' <;> first | rfl | cases h

end ProductOperator

/-- What a phrase stands for, given what a whole formula stands for: the rest of a chain stands for what it
makes of the operand before it. -/
abbrev Phrase.Meaning (α : Type) : Phrase → Type
  | .sumRest | .productRest => α → α
  | .sum | .product | .signed | .power | .primary => α

namespace Derivation

/-- The tokens at the leaves, from left to right. -/
@[simp] def tokens {p : Phrase} : Derivation p → List Token
  | .sum first rest => first.tokens ++ rest.tokens
  | .sumEnd => []
  | .sumStep op next rest => op.token :: (next.tokens ++ rest.tokens)
  | .product first rest => first.tokens ++ rest.tokens
  | .productEnd => []
  | .productStep op next rest => op.token :: (next.tokens ++ rest.tokens)
  | .positive operand => .plus :: operand.tokens
  | .negative operand => .minus :: operand.tokens
  | .unsigned operand => operand.tokens
  | .bare base => base.tokens
  | .raised base exponent => base.tokens ++ .power :: exponent.tokens
  | .number x => [.number x]
  | .group inner => .opening :: (inner.tokens ++ [.closing])
  | .call f argument => .func f :: .opening :: (argument.tokens ++ [.closing])

/-- The largest number of nodes for a signed operand on a path from the root to a leaf. -/
@[simp] def signedNodes {p : Phrase} : Derivation p → Nat
  | .sum first rest => max first.signedNodes rest.signedNodes
  | .sumEnd => 0
  | .sumStep _ next rest => max next.signedNodes rest.signedNodes
  | .product first rest => max first.signedNodes rest.signedNodes
  | .productEnd => 0
  | .productStep _ next rest => max next.signedNodes rest.signedNodes
  | .positive operand | .negative operand | .unsigned operand => operand.signedNodes + 1
  | .bare base => base.signedNodes
  | .raised base exponent => max base.signedNodes exponent.signedNodes
  | .number _ => 0
  | .group inner => inner.signedNodes
  | .call _ argument => argument.signedNodes

/-- The number a derivation stands for: chains are folded from left to right, a power is raised before the
sign to its left applies, and a function is applied to its argument. -/
@[simp] def value {p : Phrase} : Derivation p → p.Meaning Float
  | .sum first rest => rest.value first.value
  | .sumEnd => fun left => left
  | .sumStep op next rest => fun left => rest.value (op.apply left next.value)
  | .product first rest => rest.value first.value
  | .productEnd => fun left => left
  | .productStep op next rest => fun left => rest.value (op.apply left next.value)
  | .positive operand => operand.value
  | .negative operand => -operand.value
  | .unsigned operand => operand.value
  | .bare base => base.value
  | .raised base exponent => base.value.pow exponent.value
  | .number x => x
  | .group inner => inner.value
  | .call f argument => f.apply argument.value

/-- The formula that a derivation stands for. -/
@[simp] def tree {p : Phrase} : Derivation p → p.Meaning Expr
  | .sum first rest => rest.tree first.tree
  | .sumEnd => fun left => left
  | .sumStep op next rest => fun left => rest.tree (op.join left next.tree)
  | .product first rest => rest.tree first.tree
  | .productEnd => fun left => left
  | .productStep op next rest => fun left => rest.tree (op.join left next.tree)
  | .positive operand => .positive operand.tree
  | .negative operand => .negative operand.tree
  | .unsigned operand => operand.tree
  | .bare base => base.tree
  | .raised base exponent => .power base.tree exponent.tree
  | .number x => .number x
  | .group inner => .group inner.tree
  | .call f argument => .call f argument.tree

end Derivation

/-! ### The number of a derivation is the value of its formula -/

/-- A formula, or a way to extend one, has a given number as its value. -/
def Phrase.Evaluates : (p : Phrase) → p.Meaning Expr → p.Meaning Float → Prop
  | .sumRest, f, g | .productRest, f, g => ∀ left, (f left).value = g left.value
  | .sum, e, x | .product, e, x | .signed, e, x | .power, e, x | .primary, e, x => e.value = x

theorem SumOperator.value_join (op : SumOperator) (l r : Expr) :
    (op.join l r).value = op.apply l.value r.value := by
  cases op <;> rfl

theorem ProductOperator.value_join (op : ProductOperator) (l r : Expr) :
    (op.join l r).value = op.apply l.value r.value := by
  cases op <;> rfl

theorem Derivation.tree_evaluates {p : Phrase} (d : Derivation p) : p.Evaluates d.tree d.value := by
  induction d with
  | sum first rest ihFirst ihRest | product first rest ihFirst ihRest =>
    exact (ihRest first.tree).trans (congrArg rest.value ihFirst)
  | sumEnd | productEnd => exact fun _ => rfl
  | sumStep op next rest ihNext ihRest =>
    intro left
    refine (ihRest (op.join left next.tree)).trans (congrArg rest.value ?_)
    rw [SumOperator.value_join]
    exact congrArg (op.apply left.value) ihNext
  | productStep op next rest ihNext ihRest =>
    intro left
    refine (ihRest (op.join left next.tree)).trans (congrArg rest.value ?_)
    rw [ProductOperator.value_join]
    exact congrArg (op.apply left.value) ihNext
  | positive operand ih | unsigned operand ih | bare operand ih | group operand ih => exact ih
  | negative operand ih => exact congrArg (- ·) ih
  | raised base exponent ihBase ihExponent => exact congr (congrArg Float.pow ihBase) ihExponent
  | number x => rfl
  | call f argument ih => exact congrArg f.apply ih

/-- The formula that a whole sum stands for has the sum's number as its value. -/
theorem Derivation.value_tree (d : Derivation .sum) : d.tree.value = d.value :=
  d.tree_evaluates

/-! ### Where a phrase ends -/

/-- Whether a phrase could go on with a token that comes after it. -/
def Phrase.goesOnWith (p : Phrase) : Token → Bool
  | .plus | .minus => p == .sum || p == .sumRest
  | .times | .over => p == .sum || p == .sumRest || p == .product || p == .productRest
  | .power => p != .primary
  | _ => false

/-- A phrase cannot go on with the first of the tokens that come after it. -/
def Phrase.StopsBefore (p : Phrase) : List Token → Prop
  | [] => True
  | t :: _ => p.goesOnWith t = false

/-- A phrase that is the end of another one stops wherever that one stops. -/
theorem Phrase.StopsBefore.mono {p q : Phrase} {r : List Token} (h : p.StopsBefore r)
    (hpq : ∀ t, q.goesOnWith t = true → p.goesOnWith t = true) : q.StopsBefore r := by
  cases r with
  | nil => trivial
  | cons t ts =>
    have hp : p.goesOnWith t = false := h
    have hq := hpq t
    rw [hp] at hq
    exact Bool.eq_false_iff.mpr fun ht => Bool.noConfusion (hq ht)

/-- The rest of a sum goes on with any operator of a sum, so it does not stop in front of one. -/
theorem SumOperator.not_stopsBefore (op : SumOperator) (r : List Token) :
    ¬Phrase.sumRest.StopsBefore (op.token :: r) := by
  cases op <;> exact Bool.noConfusion

/-- The rest of a product goes on with any operator of a product, so it does not stop in front of one. -/
theorem ProductOperator.not_stopsBefore (op : ProductOperator) (r : List Token) :
    ¬Phrase.productRest.StopsBefore (op.token :: r) := by
  cases op <;> exact Bool.noConfusion

theorem primary_stopsBefore (r : List Token) : Phrase.primary.StopsBefore r := by
  cases r with
  | nil => trivial
  | cons t ts => cases t <;> rfl

namespace Derivation

theorem stopsBefore_sumRest {r : List Token} (d : Derivation .sumRest) (h : Phrase.sumRest.StopsBefore r) :
    Phrase.product.StopsBefore (d.tokens ++ r) := by
  cases d with
  | sumEnd => exact h.mono fun t => by cases t <;> simp [Phrase.goesOnWith]
  | sumStep op next rest => cases op <;> rfl

theorem stopsBefore_productRest {r : List Token} (d : Derivation .productRest)
    (h : Phrase.productRest.StopsBefore r) : Phrase.signed.StopsBefore (d.tokens ++ r) := by
  cases d with
  | productEnd => exact h.mono fun t => by cases t <;> simp [Phrase.goesOnWith]
  | productStep op next rest => cases op <;> rfl

/-! ### Unique reading -/

theorem primary_head_ne_sign (d : Derivation .primary) {r ts : List Token} :
    d.tokens ++ r ≠ .plus :: ts ∧ d.tokens ++ r ≠ .minus :: ts := by
  cases d <;> simp [tokens]

theorem power_head_ne_sign (d : Derivation .power) {r ts : List Token} :
    d.tokens ++ r ≠ .plus :: ts ∧ d.tokens ++ r ≠ .minus :: ts := by
  cases d with
  | bare base => exact base.primary_head_ne_sign
  | raised base exponent =>
    simp only [tokens, List.append_assoc]
    exact base.primary_head_ne_sign

/-- A derivation is the only one of its phrase that a list of tokens can begin with, where neither it nor the other
one is followed by tokens that the phrase can go on with. -/
def OnlyReading {p : Phrase} (d : Derivation p) : Prop :=
  ∀ ⦃d' : Derivation p⦄ ⦃r r' : List Token⦄, d.tokens ++ r = d'.tokens ++ r' →
    p.StopsBefore r → p.StopsBefore r' → d = d' ∧ r = r'

namespace OnlyReading

/-- Of two parts in a row the first one ends where it cannot go on, so that the second one begins there. -/
theorem append {p q : Phrase} {first first' : Derivation p} {rest rest' : Derivation q} {r r' : List Token}
    (hfirst : first.OnlyReading) (hrest : rest.OnlyReading)
    (h : first.tokens ++ rest.tokens ++ r = first'.tokens ++ rest'.tokens ++ r')
    (hp : p.StopsBefore (rest.tokens ++ r)) (hp' : p.StopsBefore (rest'.tokens ++ r')) (hq : q.StopsBefore r)
    (hq' : q.StopsBefore r') : first = first' ∧ rest = rest' ∧ r = r' := by
  rw [List.append_assoc, List.append_assoc] at h
  obtain ⟨rfl, hmiddle⟩ := hfirst h hp hp'
  obtain ⟨rfl, rfl⟩ := hrest hmiddle hq hq'
  exact ⟨rfl, rfl, rfl⟩

/-- A sum ends at the closing parenthesis behind it. -/
theorem closed {inner inner' : Derivation .sum} {r r' : List Token} (hinner : inner.OnlyReading)
    (h : inner.tokens ++ [.closing] ++ r = inner'.tokens ++ [.closing] ++ r') : inner = inner' ∧ r = r' := by
  rw [List.append_assoc, List.append_assoc] at h
  obtain ⟨rfl, hclosing⟩ := hinner h rfl rfl
  exact ⟨rfl, (List.cons.inj hclosing).2⟩

section

variable {first next : Derivation .product} {rest : Derivation .sumRest}

theorem sum (hfirst : first.OnlyReading) (hrest : rest.OnlyReading) : (Derivation.sum first rest).OnlyReading := by
  intro d' r r' h hr hr'
  cases d' with
  | sum first' rest' =>
    obtain ⟨rfl, rfl, rfl⟩ := hfirst.append hrest h (rest.stopsBefore_sumRest hr)
      (rest'.stopsBefore_sumRest hr') hr hr'
    exact ⟨rfl, rfl⟩

theorem sumEnd : Derivation.sumEnd.OnlyReading := by
  intro d' r r' h hr _
  cases d' with
  | sumEnd => exact ⟨rfl, h⟩
  | sumStep op next' rest' =>
    obtain rfl : r = op.token :: (next'.tokens ++ rest'.tokens ++ r') := h
    exact absurd hr (op.not_stopsBefore _)

theorem sumStep (op : SumOperator) (hnext : next.OnlyReading) (hrest : rest.OnlyReading) :
    (Derivation.sumStep op next rest).OnlyReading := by
  intro d' r r' h hr hr'
  cases d' with
  | sumEnd =>
    obtain rfl : op.token :: (next.tokens ++ rest.tokens ++ r) = r' := h
    exact absurd hr' (op.not_stopsBefore _)
  | sumStep op' next' rest' =>
    obtain ⟨hop, hparts⟩ := List.cons.inj h
    obtain rfl := SumOperator.token_injective hop
    obtain ⟨rfl, rfl, rfl⟩ := hnext.append hrest hparts (rest.stopsBefore_sumRest hr)
      (rest'.stopsBefore_sumRest hr') hr hr'
    exact ⟨rfl, rfl⟩

end

section

variable {first next : Derivation .signed} {rest : Derivation .productRest}

theorem product (hfirst : first.OnlyReading) (hrest : rest.OnlyReading) :
    (Derivation.product first rest).OnlyReading := by
  intro d' r r' h hr hr'
  cases d' with
  | product first' rest' =>
    obtain ⟨rfl, rfl, rfl⟩ := hfirst.append hrest h (rest.stopsBefore_productRest hr)
      (rest'.stopsBefore_productRest hr') hr hr'
    exact ⟨rfl, rfl⟩

theorem productEnd : Derivation.productEnd.OnlyReading := by
  intro d' r r' h hr _
  cases d' with
  | productEnd => exact ⟨rfl, h⟩
  | productStep op next' rest' =>
    obtain rfl : r = op.token :: (next'.tokens ++ rest'.tokens ++ r') := h
    exact absurd hr (op.not_stopsBefore _)

theorem productStep (op : ProductOperator) (hnext : next.OnlyReading) (hrest : rest.OnlyReading) :
    (Derivation.productStep op next rest).OnlyReading := by
  intro d' r r' h hr hr'
  cases d' with
  | productEnd =>
    obtain rfl : op.token :: (next.tokens ++ rest.tokens ++ r) = r' := h
    exact absurd hr' (op.not_stopsBefore _)
  | productStep op' next' rest' =>
    obtain ⟨hop, hparts⟩ := List.cons.inj h
    obtain rfl := ProductOperator.token_injective hop
    obtain ⟨rfl, rfl, rfl⟩ := hnext.append hrest hparts (rest.stopsBefore_productRest hr)
      (rest'.stopsBefore_productRest hr') hr hr'
    exact ⟨rfl, rfl⟩

end

/-! A sign is told from a power by its first token, and a power from its base by the caret behind it. -/

section

variable {operand exponent : Derivation .signed} {power : Derivation .power} {base : Derivation .primary}

theorem positive (hoperand : operand.OnlyReading) : (Derivation.positive operand).OnlyReading := by
  intro d' r r' h hr hr'
  cases d' with
  | positive operand' =>
    obtain ⟨rfl, rfl⟩ := hoperand (List.cons.inj h).2 hr hr'
    exact ⟨rfl, rfl⟩
  | negative operand' => cases (List.cons.inj h).1
  | unsigned operand' => exact absurd h.symm operand'.power_head_ne_sign.1

theorem negative (hoperand : operand.OnlyReading) : (Derivation.negative operand).OnlyReading := by
  intro d' r r' h hr hr'
  cases d' with
  | positive operand' => cases (List.cons.inj h).1
  | negative operand' =>
    obtain ⟨rfl, rfl⟩ := hoperand (List.cons.inj h).2 hr hr'
    exact ⟨rfl, rfl⟩
  | unsigned operand' => exact absurd h.symm operand'.power_head_ne_sign.2

theorem unsigned (hpower : power.OnlyReading) : (Derivation.unsigned power).OnlyReading := by
  intro d' r r' h hr hr'
  cases d' with
  | positive operand' => exact absurd h power.power_head_ne_sign.1
  | negative operand' => exact absurd h power.power_head_ne_sign.2
  | unsigned power' =>
    obtain ⟨rfl, rfl⟩ := hpower h hr hr'
    exact ⟨rfl, rfl⟩

theorem bare (hbase : base.OnlyReading) : (Derivation.bare base).OnlyReading := by
  intro d' r r' h hr _
  cases d' with
  | bare base' =>
    obtain ⟨rfl, rfl⟩ := hbase h (primary_stopsBefore _) (primary_stopsBefore _)
    exact ⟨rfl, rfl⟩
  | raised base' exponent' =>
    simp only [tokens, List.append_assoc] at h
    obtain ⟨rfl, rfl⟩ := hbase h (primary_stopsBefore _) (primary_stopsBefore _)
    cases hr

theorem raised (hbase : base.OnlyReading) (hexponent : exponent.OnlyReading) :
    (Derivation.raised base exponent).OnlyReading := by
  intro d' r r' h hr hr'
  cases d' with
  | bare base' =>
    simp only [tokens, List.append_assoc] at h
    obtain ⟨rfl, rfl⟩ := hbase h (primary_stopsBefore _) (primary_stopsBefore _)
    cases hr'
  | raised base' exponent' =>
    simp only [tokens, List.append_assoc] at h
    obtain ⟨rfl, hcaret⟩ := hbase h (primary_stopsBefore _) (primary_stopsBefore _)
    obtain ⟨rfl, rfl⟩ := hexponent (List.cons.inj hcaret).2 hr hr'
    exact ⟨rfl, rfl⟩

end

section

variable {inner : Derivation .sum}

theorem number (x : Float) : (Derivation.number x).OnlyReading := by
  intro d' r r' h _ _
  cases d' with
  | number x' =>
    obtain ⟨hx, rfl⟩ := List.cons.inj h
    cases hx
    exact ⟨rfl, rfl⟩
  | group inner' | call f' argument' => cases (List.cons.inj h).1

theorem group (hinner : inner.OnlyReading) : (Derivation.group inner).OnlyReading := by
  intro d' r r' h _ _
  cases d' with
  | group inner' =>
    obtain ⟨rfl, rfl⟩ := hinner.closed (List.cons.inj h).2
    exact ⟨rfl, rfl⟩
  | number x' | call f' argument' => cases (List.cons.inj h).1

theorem call (f : Func) (hinner : inner.OnlyReading) : (Derivation.call f inner).OnlyReading := by
  intro d' r r' h _ _
  cases d' with
  | call f' argument' =>
    obtain ⟨hname, hcall⟩ := List.cons.inj h
    obtain rfl := Token.func.inj hname
    obtain ⟨rfl, rfl⟩ := hinner.closed (List.cons.inj hcall).2
    exact ⟨rfl, rfl⟩
  | number x' | group inner' => cases (List.cons.inj h).1

end

end OnlyReading

/-- Every derivation is the only reading of its tokens. -/
theorem unique_reading {p : Phrase} (d : Derivation p) : d.OnlyReading := by
  induction d with
  | sum first rest ihFirst ihRest => exact ihFirst.sum ihRest
  | sumEnd => exact .sumEnd
  | sumStep op next rest ihNext ihRest => exact .sumStep op ihNext ihRest
  | product first rest ihFirst ihRest => exact ihFirst.product ihRest
  | productEnd => exact .productEnd
  | productStep op next rest ihNext ihRest => exact .productStep op ihNext ihRest
  | positive operand ih => exact ih.positive
  | negative operand ih => exact ih.negative
  | unsigned operand ih => exact ih.unsigned
  | bare base ih => exact ih.bare
  | raised base exponent ihBase ihExponent => exact ihBase.raised ihExponent
  | number x => exact .number x
  | group inner ih => exact ih.group
  | call f argument ih => exact .call f ih

/-- **The grammar is unambiguous**: a list of tokens has at most one derivation as a sum. -/
theorem tokens_injective {d d' : Derivation .sum} (h : d.tokens = d'.tokens) : d = d' :=
  (d.unique_reading (congrArg (· ++ []) h) trivial trivial).1

end Derivation
end Reckoner.Grammar
