import Reckoner.Proofs.Evaluation.Stages
import Reckoner.Proofs.Grammar.Derivation

/-!
# Reading follows the grammar

The readers of `Reckoner.Expr` against the derivations of the grammar. What a reader takes off the front of
the tokens is always a derivation of its phrase with no more signed nodes on a path than the levels it was
given (`Derives`), and in front of tokens that the phrase cannot go on with it finds every such derivation
(`Reads`). Together with unambiguity this says exactly which lists of tokens have a value, and which one
(`valueOfTokens_iff`).
-/

namespace Reckoner.Grammar

open Reckoner.Expr

/-! ### What is read is derived -/

/-- Tokens begin with a derivation of a phrase, within a number of levels, and end with a given rest. -/
def Derives (p : Phrase) (levels : Nat) (tokens : List Token) (e : p.Meaning Expr) (rest : List Token) :
    Prop :=
  ∃ d : Derivation p, d.signedNodes ≤ levels ∧ d.tree = e ∧ d.tokens ++ rest = tokens

/-- What a chain makes of its left operand has every property of extensions that holds of none at all and
passes from what is read after an operand to the same with that operand in front. -/
theorem chain_induction {operand : Reader} {operator? : Token → Option (Expr → Expr → Expr)}
    {P : List Token → (Expr → Expr) → List Token → Prop} (hdone : ∀ tokens, P tokens (fun e => e) tokens)
    (hstep : ∀ {t join tokens e middle f rest}, operator? t = some join → operand tokens = some (e, middle) →
      P middle f rest → P (t :: tokens) (fun left => f (join left e)) rest)
    {n : Nat} {left e : Expr} {tokens rest : List Token}
    (h : chain operand operator? n left tokens = some (e, rest)) : ∃ f, P tokens f rest ∧ f left = e := by
  induction n generalizing left tokens with
  | zero =>
    cases h
    exact ⟨_, hdone _, rfl⟩
  | succ n ih =>
    cases tokens with
    | nil =>
      cases h
      exact ⟨_, hdone _, rfl⟩
    | cons t tokens =>
      rw [chain] at h
      split at h
      · cases h
        exact ⟨_, hdone _, rfl⟩
      · rename_i join hjoin
        split at h
        · cases h
        · rename_i right middle hright
          obtain ⟨f, hf, rfl⟩ := ih h
          exact ⟨_, hstep hjoin hright hf, rfl⟩

theorem SumOperator.sumOperator?_token (op : SumOperator) : sumOperator? op.token = some op.join := by
  cases op <;> rfl

theorem ProductOperator.productOperator?_token (op : ProductOperator) :
    productOperator? op.token = some op.join := by
  cases op <;> rfl

theorem sumOperator?_eq_some {t : Token} {join : Expr → Expr → Expr} (h : sumOperator? t = some join) :
    ∃ op : SumOperator, op.token = t ∧ op.join = join := by
  cases t <;> cases h
  · exact ⟨.plus, rfl, rfl⟩
  · exact ⟨.minus, rfl, rfl⟩

theorem productOperator?_eq_some {t : Token} {join : Expr → Expr → Expr}
    (h : productOperator? t = some join) : ∃ op : ProductOperator, op.token = t ∧ op.join = join := by
  cases t <;> cases h
  · exact ⟨.times, rfl, rfl⟩
  · exact ⟨.over, rfl, rfl⟩

section sound

variable {bound levels : Nat} {signed : Reader} {tokens rest : List Token} {e : Expr}

/-- A reader of signed operands that only finds derivations. -/
def ReadsSigned (levels : Nat) (signed : Reader) : Prop :=
  ∀ {tokens e rest}, signed tokens = some (e, rest) → Derives .signed levels tokens e rest

/-- What a reader makes of the rest of a product is derived, whatever the operand before it. -/
theorem productRest_derives (hs : ReadsSigned levels signed) {n : Nat} {left : Expr}
    (h : chain signed productOperator? n left tokens = some (e, rest)) :
    ∃ f, Derives .productRest levels tokens f rest ∧ f left = e := by
  refine chain_induction (P := fun tokens f rest => Derives .productRest levels tokens f rest)
    (fun tokens => ⟨.productEnd, Nat.zero_le _, rfl, rfl⟩) (fun hop hnext hrest => ?_) h
  obtain ⟨op, rfl, rfl⟩ := productOperator?_eq_some hop
  obtain ⟨next, hn, rfl, rfl⟩ := hs hnext
  obtain ⟨more, hn', rfl, rfl⟩ := hrest
  exact ⟨.productStep op next more, Nat.max_le.mpr ⟨hn, hn'⟩, rfl, by simp [Derivation.tokens]⟩

theorem product_derives (hs : ReadsSigned levels signed)
    (h : product bound signed tokens = some (e, rest)) : Derives .product levels tokens e rest := by
  rw [product] at h
  split at h
  · cases h
  · rename_i left middle hleft
    obtain ⟨first, hn, rfl, rfl⟩ := hs hleft
    obtain ⟨f, ⟨more, hn', rfl, rfl⟩, rfl⟩ := productRest_derives hs h
    exact ⟨.product first more, Nat.max_le.mpr ⟨hn, hn'⟩, rfl, by simp [Derivation.tokens]⟩

/-- What a reader makes of the rest of a sum is derived, whatever the operand before it. -/
theorem sumRest_derives (hs : ReadsSigned levels signed) {n : Nat} {left : Expr}
    (h : chain (product bound signed) sumOperator? n left tokens = some (e, rest)) :
    ∃ f, Derives .sumRest levels tokens f rest ∧ f left = e := by
  refine chain_induction (P := fun tokens f rest => Derives .sumRest levels tokens f rest)
    (fun tokens => ⟨.sumEnd, Nat.zero_le _, rfl, rfl⟩) (fun hop hnext hrest => ?_) h
  obtain ⟨op, rfl, rfl⟩ := sumOperator?_eq_some hop
  obtain ⟨next, hn, rfl, rfl⟩ := product_derives hs hnext
  obtain ⟨more, hn', rfl, rfl⟩ := hrest
  exact ⟨.sumStep op next more, Nat.max_le.mpr ⟨hn, hn'⟩, rfl, by simp [Derivation.tokens]⟩

theorem sum_derives (hs : ReadsSigned levels signed) (h : sum bound signed tokens = some (e, rest)) :
    Derives .sum levels tokens e rest := by
  rw [sum] at h
  split at h
  · cases h
  · rename_i left middle hleft
    obtain ⟨first, hn, rfl, rfl⟩ := product_derives hs hleft
    obtain ⟨f, ⟨more, hn', rfl, rfl⟩, rfl⟩ := sumRest_derives hs h
    exact ⟨.sum first more, Nat.max_le.mpr ⟨hn, hn'⟩, rfl, by simp [Derivation.tokens]⟩

theorem closed_derives (hs : ReadsSigned levels signed) (h : closed bound signed tokens = some (e, rest)) :
    Derives .sum levels tokens e (.closing :: rest) := by
  rw [closed] at h
  split at h
  · rename_i hsum
    cases h
    exact sum_derives hs hsum
  · cases h

theorem primary_derives (hs : ReadsSigned levels signed)
    (h : primary bound signed tokens = some (e, rest)) : Derives .primary levels tokens e rest := by
  rw [primary.eq_def] at h
  split at h
  · rename_i x more
    cases h
    exact ⟨.number x, Nat.zero_le _, rfl, rfl⟩
  · obtain ⟨⟨inner, middle⟩, hclosed, heq⟩ := Option.map_eq_some_iff.mp h
    cases heq
    obtain ⟨d, hn, rfl, rfl⟩ := closed_derives hs hclosed
    exact ⟨.group d, hn, rfl, by simp [Derivation.tokens]⟩
  · rename_i f more
    obtain ⟨⟨argument, middle⟩, hclosed, heq⟩ := Option.map_eq_some_iff.mp h
    cases heq
    obtain ⟨d, hn, rfl, rfl⟩ := closed_derives hs hclosed
    exact ⟨.call f d, hn, rfl, by simp [Derivation.tokens]⟩
  · cases h

theorem powered_derives (hs : ReadsSigned levels signed)
    (h : powered bound signed tokens = some (e, rest)) : Derives .power levels tokens e rest := by
  rw [powered] at h
  split at h
  · rename_i base middle hbase
    obtain ⟨⟨exponent, after⟩, hexponent, heq⟩ := Option.map_eq_some_iff.mp h
    cases heq
    obtain ⟨d, hn, rfl, rfl⟩ := primary_derives hs hbase
    obtain ⟨d', hn', rfl, rfl⟩ := hs hexponent
    exact ⟨.raised d d', Nat.max_le.mpr ⟨hn, hn'⟩, rfl, by simp [Derivation.tokens]⟩
  · obtain ⟨d, hn, rfl, rfl⟩ := primary_derives hs h
    exact ⟨.bare d, hn, rfl, rfl⟩

end sound

/-- **Reading is sound**: a signed operand that is read has a derivation within the levels to spare. -/
theorem signed_derives (bound levels : Nat) : ReadsSigned levels (signed bound levels) := by
  induction levels with
  | zero => intro _ _ _ h; cases h
  | succ levels ih =>
    intro tokens e rest h
    rw [signed.eq_def] at h
    split at h
    · cases h
    · rename_i hlevels
      cases hlevels
      obtain ⟨⟨operand, middle⟩, hsigned, heq⟩ := Option.map_eq_some_iff.mp h
      cases heq
      obtain ⟨d, hn, rfl, rfl⟩ := ih hsigned
      exact ⟨.negative d, Nat.succ_le_succ hn, rfl, rfl⟩
    · rename_i hlevels
      cases hlevels
      obtain ⟨⟨operand, middle⟩, hsigned, heq⟩ := Option.map_eq_some_iff.mp h
      cases heq
      obtain ⟨d, hn, rfl, rfl⟩ := ih hsigned
      exact ⟨.positive d, Nat.succ_le_succ hn, rfl, rfl⟩
    · rename_i hlevels _ _
      cases hlevels
      obtain ⟨d, hn, rfl, rfl⟩ := powered_derives ih h
      exact ⟨.unsigned d, Nat.succ_le_succ hn, rfl, rfl⟩

/-! ### What is derived is read -/

/-- Readers with some levels to spare find a phrase at the front of the tokens and leave a given rest. -/
def Reads (bound levels : Nat) : (p : Phrase) → p.Meaning Expr → List Token → List Token → Prop
  | .sum, e, tokens, rest => Expr.sum bound (signed bound levels) tokens = some (e, rest)
  | .sumRest, f, tokens, rest => ∀ n left, tokens.length ≤ n →
      chain (product bound (signed bound levels)) sumOperator? n left tokens = some (f left, rest)
  | .product, e, tokens, rest => product bound (signed bound levels) tokens = some (e, rest)
  | .productRest, f, tokens, rest => ∀ n left, tokens.length ≤ n →
      chain (signed bound levels) productOperator? n left tokens = some (f left, rest)
  | .signed, e, tokens, rest => signed bound levels tokens = some (e, rest)
  | .power, e, tokens, rest => powered bound (signed bound levels) tokens = some (e, rest)
  | .primary, e, tokens, rest => primary bound (signed bound levels) tokens = some (e, rest)

/-- A chain ends in front of a token that is none of its operators. -/
theorem chain_stop {operand : Reader} {operator? : Token → Option (Expr → Expr → Expr)} {rest : List Token}
    (h : ∀ t ∈ rest.head?, operator? t = none) (n : Nat) (left : Expr) :
    chain operand operator? n left rest = some (left, rest) := by
  cases n with
  | zero => rfl
  | succ n =>
    cases rest with
    | nil => rfl
    | cons t rest => rw [chain, h t rfl]

/-- A chain goes on with an operator and an operand in front of what it makes of the rest. -/
theorem chain_cons {operand : Reader} {operator? : Token → Option (Expr → Expr → Expr)} {t : Token}
    {join : Expr → Expr → Expr} {tokens middle rest : List Token} {e : Expr} {more : Expr → Expr}
    (ht : operator? t = some join) (he : operand tokens = some (e, middle)) (hlength : middle.length ≤ tokens.length)
    (hmore : ∀ n left, middle.length ≤ n → chain operand operator? n left middle = some (more left, rest)) (n : Nat)
    (left : Expr) (hn : (t :: tokens).length ≤ n) :
    chain operand operator? n left (t :: tokens) = some (more (join left e), rest) := by
  obtain ⟨n, rfl⟩ := Nat.exists_eq_add_one_of_ne_zero (Nat.ne_zero_of_lt hn)
  rw [chain, ht]
  simp only [he]
  exact hmore n (join left e) (Nat.le_trans hlength (Nat.le_of_succ_le_succ hn))

/-- A token that does not begin a sign is left to the power. -/
theorem signed_succ (bound levels : Nat) {tokens : List Token} (hplus : ∀ ts, tokens ≠ .plus :: ts)
    (hminus : ∀ ts, tokens ≠ .minus :: ts) :
    signed bound (levels + 1) tokens = powered bound (signed bound levels) tokens := by
  rw [signed.eq_def]
  split
  · contradiction
  · exact absurd rfl (hminus _)
  · exact absurd rfl (hplus _)
  · rename_i hlevels _ _
    cases hlevels
    rfl

/-- A primary stands for itself in front of anything but an exponent. -/
theorem powered_bare {bound : Nat} {signed : Reader} {ts rest : List Token} {base : Expr}
    (hread : primary bound signed ts = some (base, rest)) (hrest : ∀ more, rest ≠ .power :: more) :
    powered bound signed ts = some (base, rest) := by
  rw [powered]
  split
  · rename_i hpower
    cases hread.symm.trans hpower
    exact absurd rfl (hrest _)
  · exact hread

theorem closed_of_sum {bound : Nat} {signed : Reader} {tokens rest : List Token} {e : Expr}
    (h : Expr.sum bound signed tokens = some (e, .closing :: rest)) :
    closed bound signed tokens = some (e, rest) := by
  rw [closed, h]

/-! Each rule of the grammar is a rule of the readers: what they find of its parts, one after the other, they find
put together. -/

namespace Reads

variable {bound levels : Nat} {tokens middle rest : List Token} {e first : Expr} {more : Expr → Expr}

theorem sum (hfirst : Reads bound levels .product first tokens middle)
    (hmore : Reads bound levels .sumRest more middle rest) (hlength : middle.length ≤ bound) :
    Reads bound levels .sum (more first) tokens rest := by
  simp only [Reads] at hfirst ⊢
  rw [Expr.sum, hfirst]
  exact hmore bound first hlength

theorem product (hfirst : Reads bound levels .signed first tokens middle)
    (hmore : Reads bound levels .productRest more middle rest) (hlength : middle.length ≤ bound) :
    Reads bound levels .product (more first) tokens rest := by
  simp only [Reads] at hfirst ⊢
  rw [Expr.product, hfirst]
  exact hmore bound first hlength

theorem sumEnd (h : Phrase.sumRest.StopsBefore rest) : Reads bound levels .sumRest (fun left => left) rest rest := by
  intro n left _
  refine chain_stop (fun t ht => Option.eq_none_iff_forall_ne_some.mpr fun join hjoin => ?_) n left
  obtain ⟨more, rfl⟩ := List.head?_eq_some_iff.mp ht
  obtain ⟨op, rfl, -⟩ := sumOperator?_eq_some hjoin
  exact op.not_stopsBefore more h

theorem productEnd (h : Phrase.productRest.StopsBefore rest) :
    Reads bound levels .productRest (fun left => left) rest rest := by
  intro n left _
  refine chain_stop (fun t ht => Option.eq_none_iff_forall_ne_some.mpr fun join hjoin => ?_) n left
  obtain ⟨more, rfl⟩ := List.head?_eq_some_iff.mp ht
  obtain ⟨op, rfl, -⟩ := productOperator?_eq_some hjoin
  exact op.not_stopsBefore more h

theorem sumStep (op : SumOperator) (hnext : Reads bound levels .product e tokens middle)
    (hmore : Reads bound levels .sumRest more middle rest) (hlength : middle.length ≤ tokens.length) :
    Reads bound levels .sumRest (fun left => more (op.join left e)) (op.token :: tokens) rest :=
  chain_cons op.sumOperator?_token hnext hlength hmore

theorem productStep (op : ProductOperator) (hnext : Reads bound levels .signed e tokens middle)
    (hmore : Reads bound levels .productRest more middle rest) (hlength : middle.length ≤ tokens.length) :
    Reads bound levels .productRest (fun left => more (op.join left e)) (op.token :: tokens) rest :=
  chain_cons op.productOperator?_token hnext hlength hmore

theorem positive (h : Reads bound levels .signed e tokens rest) :
    Reads bound (levels + 1) .signed (.positive e) (.plus :: tokens) rest :=
  congrArg (Option.map _) h

theorem negative (h : Reads bound levels .signed e tokens rest) :
    Reads bound (levels + 1) .signed (.negative e) (.minus :: tokens) rest :=
  congrArg (Option.map _) h

theorem unsigned (h : Reads bound levels .power e tokens rest) (hplus : ∀ ts, tokens ≠ .plus :: ts)
    (hminus : ∀ ts, tokens ≠ .minus :: ts) : Reads bound (levels + 1) .signed e tokens rest :=
  (signed_succ bound levels hplus hminus).trans h

theorem bare (h : Reads bound levels .primary e tokens rest) (hrest : Phrase.power.StopsBefore rest) :
    Reads bound levels .power e tokens rest := by
  refine powered_bare h fun more hmore => ?_
  rw [hmore] at hrest
  cases hrest

theorem raised (hbase : Reads bound levels .primary first tokens (.power :: middle))
    (hexponent : Reads bound levels .signed e middle rest) :
    Reads bound levels .power (.power first e) tokens rest := by
  simp only [Reads] at hbase hexponent ⊢
  rw [powered, hbase]
  exact congrArg (Option.map _) hexponent

theorem group (h : Reads bound levels .sum e tokens (.closing :: rest)) :
    Reads bound levels .primary (.group e) (.opening :: tokens) rest :=
  congrArg (Option.map _) (closed_of_sum h)

theorem call (f : Func) (h : Reads bound levels .sum e tokens (.closing :: rest)) :
    Reads bound levels .primary (.call f e) (.func f :: .opening :: tokens) rest :=
  congrArg (Option.map _) (closed_of_sum h)

end Reads

/-- **Reading is complete**: readers find every derivation that fits into the levels to spare and is followed
by tokens that its phrase cannot go on with. -/
theorem Derivation.reads {p : Phrase} (d : Derivation p) {bound levels : Nat} {rest : List Token}
    (hlevels : d.signedNodes ≤ levels) (hbound : (d.tokens ++ rest).length ≤ bound)
    (hrest : p.StopsBefore rest) : Reads bound levels p d.tree (d.tokens ++ rest) rest := by
  have hbehind (front back : List Token) : back.length ≤ (front ++ back).length :=
    (List.suffix_append front back).length_le
  induction d generalizing levels rest with
  | sum first more ihFirst ihMore =>
    rw [tokens, List.append_assoc] at hbound ⊢
    obtain ⟨hfirst, hmore⟩ := Nat.max_le.mp hlevels
    have hmiddle := Nat.le_trans (hbehind first.tokens (more.tokens ++ rest)) hbound
    exact (ihFirst hfirst hbound (more.stopsBefore_sumRest hrest)).sum (ihMore hmore hmiddle hrest) hmiddle
  | product first more ihFirst ihMore =>
    rw [tokens, List.append_assoc] at hbound ⊢
    obtain ⟨hfirst, hmore⟩ := Nat.max_le.mp hlevels
    have hmiddle := Nat.le_trans (hbehind first.tokens (more.tokens ++ rest)) hbound
    exact (ihFirst hfirst hbound (more.stopsBefore_productRest hrest)).product (ihMore hmore hmiddle hrest) hmiddle
  | sumEnd => exact .sumEnd hrest
  | productEnd => exact .productEnd hrest
  | sumStep op next more ihNext ihMore =>
    rw [tokens, List.cons_append, List.append_assoc] at hbound ⊢
    obtain ⟨hnext, hmore⟩ := Nat.max_le.mp hlevels
    have hbound := Nat.le_of_succ_le hbound
    have hmiddle := hbehind next.tokens (more.tokens ++ rest)
    exact .sumStep op (ihNext hnext hbound (more.stopsBefore_sumRest hrest))
      (ihMore hmore (Nat.le_trans hmiddle hbound) hrest) hmiddle
  | productStep op next more ihNext ihMore =>
    rw [tokens, List.cons_append, List.append_assoc] at hbound ⊢
    obtain ⟨hnext, hmore⟩ := Nat.max_le.mp hlevels
    have hbound := Nat.le_of_succ_le hbound
    have hmiddle := hbehind next.tokens (more.tokens ++ rest)
    exact .productStep op (ihNext hnext hbound (more.stopsBefore_productRest hrest))
      (ihMore hmore (Nat.le_trans hmiddle hbound) hrest) hmiddle
  | positive operand ih =>
    obtain ⟨levels, rfl⟩ := Nat.exists_eq_add_one_of_ne_zero (Nat.ne_zero_of_lt hlevels)
    exact (ih (Nat.le_of_succ_le_succ hlevels) (Nat.le_of_succ_le hbound) hrest).positive
  | negative operand ih =>
    obtain ⟨levels, rfl⟩ := Nat.exists_eq_add_one_of_ne_zero (Nat.ne_zero_of_lt hlevels)
    exact (ih (Nat.le_of_succ_le_succ hlevels) (Nat.le_of_succ_le hbound) hrest).negative
  | unsigned operand ih =>
    obtain ⟨levels, rfl⟩ := Nat.exists_eq_add_one_of_ne_zero (Nat.ne_zero_of_lt hlevels)
    exact (ih (Nat.le_of_succ_le_succ hlevels) hbound hrest).unsigned (fun _ => operand.power_head_ne_sign.1)
      fun _ => operand.power_head_ne_sign.2
  | bare base ih => exact (ih hlevels hbound (primary_stopsBefore rest)).bare hrest
  | raised base exponent ihBase ihExponent =>
    rw [tokens, List.append_assoc, List.cons_append] at hbound ⊢
    obtain ⟨hbase, hexponent⟩ := Nat.max_le.mp hlevels
    have hmiddle := Nat.le_trans (hbehind base.tokens (.power :: (exponent.tokens ++ rest))) hbound
    exact (ihBase hbase hbound (primary_stopsBefore _)).raised
      (ihExponent hexponent (Nat.le_of_succ_le hmiddle) hrest)
  | number x => rfl
  | group inner ih =>
    rw [tokens, List.cons_append, List.append_assoc] at hbound ⊢
    exact (ih hlevels (Nat.le_of_succ_le hbound) rfl).group
  | call f argument ih =>
    rw [tokens, List.cons_append, List.cons_append, List.append_assoc] at hbound ⊢
    exact (ih hlevels (Nat.le_of_succ_le (Nat.le_of_succ_le hbound)) rfl).call f

/-! ### Formulas -/

/-- The tokens that have a formula are those of a derivation within the allowed nesting. -/
theorem ofTokens?_eq_some_iff {tokens : List Token} {e : Expr} :
    Expr.ofTokens? tokens = some e ↔
      ∃ d : Derivation .sum, d.tokens = tokens ∧ d.signedNodes ≤ maxLevels ∧ d.tree = e := by
  constructor
  · intro h
    rw [Expr.ofTokens?] at h
    split at h
    · rename_i hsum
      cases h
      obtain ⟨d, hn, rfl, rfl⟩ := sum_derives (signed_derives _ _) hsum
      exact ⟨d, by simp, hn, rfl⟩
    · cases h
  · rintro ⟨d, rfl, hn, rfl⟩
    have hread : Reads d.tokens.length maxLevels .sum d.tree (d.tokens ++ []) [] :=
      d.reads hn (by simp) trivial
    simp only [Reads, List.append_nil] at hread
    rw [Expr.ofTokens?, hread]

/-- **Which tokens have a value, and which one**: exactly those with a derivation of at most 256 signed nodes
on every path have one, it is the number of that derivation, there is no second derivation, and all other
tokens are an invalid expression. -/
theorem valueOfTokens_iff (tokens : List Token) :
    (∀ v, valueOfTokens tokens = .ok v ↔
      ∃ d : Derivation .sum, d.tokens = tokens ∧ d.signedNodes ≤ 256 ∧ d.value = v) ∧
    (∀ d d' : Derivation .sum, d.tokens = tokens → d'.tokens = tokens → d = d') ∧
    (∀ err, valueOfTokens tokens = .error err ↔
      err = .invalidExpression ∧ ¬∃ d : Derivation .sum, d.tokens = tokens ∧ d.signedNodes ≤ 256) := by
  refine ⟨fun v => ?_, fun d d' h h' => Derivation.tokens_injective (h.trans h'.symm), fun err => ?_⟩
  · rw [valueOfTokens, orInvalid_eq_ok_iff, Option.map_eq_some_iff]
    simp only [ofTokens?_eq_some_iff]
    constructor
    · rintro ⟨_, ⟨d, htokens, hn, rfl⟩, rfl⟩
      exact ⟨d, htokens, hn, d.value_tree.symm⟩
    · rintro ⟨d, htokens, hn, rfl⟩
      exact ⟨d.tree, ⟨d, htokens, hn, rfl⟩, d.value_tree⟩
  · rw [valueOfTokens, orInvalid_eq_error_iff, Option.map_eq_none_iff, Option.eq_none_iff_forall_ne_some]
    refine and_congr_right fun _ => ⟨fun h => ?_, fun h e he => ?_⟩
    · rintro ⟨d, htokens, hn⟩
      exact h _ (ofTokens?_eq_some_iff.mpr ⟨d, htokens, hn, rfl⟩)
    · obtain ⟨d, htokens, hn, _⟩ := ofTokens?_eq_some_iff.mp he
      exact h ⟨d, htokens, hn⟩

end Reckoner.Grammar
