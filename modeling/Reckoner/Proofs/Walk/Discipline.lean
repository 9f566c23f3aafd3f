import Reckoner.Proofs.Grammar.Reading
import Reckoner.Proofs.Walk.Path

/-!
# Discipline of the procedures

Every procedure ends within the ticks that its tokens and levels ask for, and ends disciplined: it never goes back or
past the last token, never has more than 256 levels in use or fewer than it found, leaves as many in use as it found,
failed or not, and is past a token if it did not fail (`perform_disciplined`). What it comes to is the value of the tree
that the reader of its phrase reads.

Levels carry the induction. An operand fails at once where no level is left, and otherwise it is a signed operand with
one level less to spare (`operand_obeys_succ`). On one level the other procedures follow from operands one after the
other, and only the two chains go on by themselves, each time over fewer tokens (`goOn_ends`). The ticks that a procedure
needs (`Procedure.ticks`) follow the same way.
-/

open Reckoner.Expr

namespace Reckoner.Walk

variable {α : Type} {tokens : List Token} {w w' : Walk}

/-! ### What a run comes to -/

/-- A run that ends at a position comes to what a reader of trees has come to: the value of the tree that was read, with
the same tokens left over, or a failure of both. -/
inductive Agrees (tokens : List Token) : Option (Expr × List Token) → Except EvalError Float → Nat → Prop
  | read (e : Expr) (position : Nat) : Agrees tokens (some (e, tokens.drop position)) (.ok e.value) position
  | failed (position : Nat) : Agrees tokens none (.error .invalidExpression) position

theorem Agrees.exists_of_ok {reading : Option (Expr × List Token)} {v : Float} {position : Nat}
    (h : Agrees tokens reading (.ok v) position) :
    ∃ e : Expr, reading = some (e, tokens.drop position) ∧ e.value = v := by
  cases h with
  | read e => exact ⟨e, rfl, rfl⟩

theorem Agrees.of_error {reading : Option (Expr × List Token)} {e : EvalError} {position : Nat}
    (h : Agrees tokens reading (.error e) position) : reading = none ∧ e = .invalidExpression := by
  cases h with
  | failed => exact ⟨rfl, rfl⟩

/-- A run from `w` has left the walk `w'` on the level where it began and agrees with a reader. -/
structure Completes (tokens : List Token) (reading : Option (Expr × List Token)) (w : Walk)
    (outcome : Except EvalError Float) (w' : Walk) : Prop where
  trip : Trip tokens w w'
  agrees : Agrees tokens reading outcome w'.cursor.position

/-- A run that has gone past a token, unless it failed. -/
structure Advances (tokens : List Token) (reading : Option (Expr × List Token)) (w : Walk)
    (outcome : Except EvalError Float) (w' : Walk) : Prop extends Completes tokens reading w outcome w' where
  position_lt : ∀ v, outcome = .ok v → w.cursor.position < w'.cursor.position

/-- The reader of the trees that a procedure works out, with some levels to spare. -/
def Procedure.reader (bound levels : Nat) : Procedure → Reader
  | .sum => Expr.sum bound (Expr.signed bound levels)
  | .product => Expr.product bound (Expr.signed bound levels)
  | .operand => Expr.signed bound levels
  | .signed => Expr.signed bound (levels + 1)
  | .power => Expr.powered bound (Expr.signed bound levels)
  | .primary => Expr.primary bound (Expr.signed bound levels)

/-- How many ticks a procedure needs over so many tokens, with some levels to spare. -/
def Procedure.ticks (length levels : Nat) : Procedure → Nat
  | .operand => levels * (2 * length + 8) + 1
  | .product => levels * (2 * length + 8) + length + 3
  | .sum => levels * (2 * length + 8) + 2 * length + 5
  | .primary => levels * (2 * length + 8) + 2 * length + 6
  | .power => levels * (2 * length + 8) + 2 * length + 7
  | .signed => levels * (2 * length + 8) + 2 * length + 8

theorem Procedure.ticks_le (procedure : Procedure) (length levels : Nat) :
    procedure.ticks length levels ≤ (levels + 1) * (2 * length + 8) := by
  rw [Nat.succ_mul]
  cases procedure <;> rw [Procedure.ticks] <;> omega

theorem Procedure.ticks_operand_le (procedure : Procedure) (length levels : Nat) :
    Procedure.operand.ticks length levels ≤ procedure.ticks length levels := by
  cases procedure <;> simp only [Procedure.ticks, le_refl] <;> omega

theorem Procedure.ticks_operand_succ (length levels : Nat) :
    Procedure.operand.ticks length (levels + 1) = Procedure.signed.ticks length levels + 1 := by
  rw [Procedure.ticks, Procedure.ticks, Nat.succ_mul]
  omega

/-- What is asked of a procedure wherever so many levels are left. -/
def Obeys (tokens : List Token) (procedure : Procedure) (levels : Nat) : Prop :=
  ∀ w : Walk, w.cursor.depth + levels = maxLevels → w.cursor.position ≤ tokens.length →
    Ends (procedure.ticks tokens.length levels) (fun n => perform tokens n procedure) w
      (Advances tokens (procedure.reader tokens.length levels (tokens.drop w.cursor.position)) w)

theorem drop_of_getElem?_eq_some {position : Nat} {t : Token} (h : tokens[position]? = some t) :
    position < tokens.length ∧ tokens.drop position = t :: tokens.drop (position + 1) := by
  obtain ⟨hlt, rfl⟩ := List.getElem?_eq_some_iff.mp h
  exact ⟨hlt, List.drop_eq_getElem_cons hlt⟩

theorem drop_of_getElem?_eq_none {position : Nat} (h : tokens[position]? = none) : tokens.drop position = [] :=
  List.drop_eq_nil_of_le (List.getElem?_eq_none_iff.mp h)

theorem Completes.after {w₀ : Walk} {reading : Option (Expr × List Token)} {outcome : Except EvalError Float}
    (h : Completes tokens reading w outcome w') (htrip : Trip tokens w₀ w) : Completes tokens reading w₀ outcome w' :=
  ⟨htrip.trans h.trip, h.agrees⟩

section

variable {ticks levels : Nat} {post : Except EvalError α → Walk → Prop}

/-- What comes after a procedure has to be looked at only where its reader has read a tree, from behind that tree. -/
theorem Obeys.bind {procedure : Procedure} {more : Nat → Float → Walking α} (h : Obeys tokens procedure levels)
    (hticks : procedure.ticks tokens.length levels ≤ ticks) (hlevels : w.cursor.depth + levels = maxLevels)
    (hposition : w.cursor.position ≤ tokens.length)
    (hread : ∀ (e : Expr) (w₁ : Walk), Trip tokens w w₁ → w.cursor.position < w₁.cursor.position →
      w₁.cursor.position ≤ tokens.length → procedure.reader tokens.length levels (tokens.drop w.cursor.position) =
        some (e, tokens.drop w₁.cursor.position) → Ends ticks (fun n => more n e.value) w₁ post)
    (hfailed : ∀ w₁, Trip tokens w w₁ →
      procedure.reader tokens.length levels (tokens.drop w.cursor.position) = none →
        post (.error .invalidExpression) w₁) :
    Ends ticks (fun n => perform tokens n procedure >>= more n) w post := by
  refine ((h w hlevels hposition).of_le hticks).bind (fun v w₁ hok => ?_) (fun e w₁ herror => ?_)
  · obtain ⟨e, hreader, rfl⟩ := hok.agrees.exists_of_ok
    exact hread e w₁ hok.trip (hok.position_lt e.value rfl) (hok.trip.path.position_le_length hposition) hreader
  · obtain ⟨hreader, rfl⟩ := herror.agrees.of_error
    exact hfailed w₁ herror.trip hreader

end

/-! ### Chains -/

namespace Chain

/-- The tree that an operator of the rule joins two operands to. -/
def join? : Chain → Token → Option (Expr → Expr → Expr)
  | .sum => sumOperator?
  | .product => productOperator?

/-- An operator joins trees as it does their values. -/
theorem exists_operation_of_join {chain : Chain} {t : Token} {join : Expr → Expr → Expr}
    (h : chain.join? t = some join) :
    ∃ apply, chain.operation? t = some apply ∧ ∀ l r : Expr, (join l r).value = apply l.value r.value := by
  cases chain <;> cases t <;> cases h <;> exact ⟨_, rfl, fun _ _ => rfl⟩

theorem operation?_eq_none_of_join {chain : Chain} {t : Token} (h : chain.join? t = none) :
    chain.operation? t = none := by
  cases chain <;> cases t <;> first | rfl | cases h

end Chain

section

variable {ticks levels : Nat}

/-- Going on with operators ends, over ever fewer tokens. -/
theorem goOn_ends {chain : Chain} (hoperand : Obeys tokens chain.operand levels) (bound : Nat) (left : Expr)
    (hlevels : w.cursor.depth + levels = maxLevels) (hposition : w.cursor.position ≤ tokens.length)
    (hbound : tokens.length - w.cursor.position ≤ bound) :
    Ends (chain.operand.ticks tokens.length levels + bound + 1) (fun n => goOn tokens n chain left.value) w
      (Completes tokens (Expr.chain (chain.operand.reader tokens.length levels) chain.join? bound left
        (tokens.drop w.cursor.position)) w) := by
  induction bound generalizing left w with
  | zero =>
    refine Ends.tick ?_ fun n => by rw [goOn]
    apply Ends.look_bind
    rw [List.getElem?_eq_none (by omega)]
    exact Ends.pure ⟨.refl, .read left _⟩
  | succ bound ih =>
    refine Ends.tick ?_ fun n => by rw [goOn]
    apply Ends.look_bind
    cases hjoin : tokens[w.cursor.position]?.bind chain.join? with
    | none =>
      have hstop : ∀ t ∈ (tokens.drop w.cursor.position).head?, chain.join? t = none := by
        rw [List.head?_drop]
        exact Option.bind_eq_none_iff.mp hjoin
      have hnone : tokens[w.cursor.position]?.bind chain.operation? = none := by
        rw [List.head?_drop] at hstop
        exact Option.bind_eq_none_iff.mpr fun t ht => Chain.operation?_eq_none_of_join (hstop t ht)
      rw [Grammar.chain_stop hstop, hnone]
      exact Ends.pure ⟨.refl, .read left _⟩
    | some join =>
      obtain ⟨t, hlook, hjoin⟩ := Option.bind_eq_some_iff.mp hjoin
      obtain ⟨apply, hsome, hvalue⟩ := Chain.exists_operation_of_join hjoin
      obtain ⟨hlt, hdrop⟩ := drop_of_getElem?_eq_some hlook
      rw [hdrop, Expr.chain, hjoin, hlook, Option.bind_some, hsome]
      apply Ends.step_bind
      have hstep : Trip tokens w w.stepped := .stepped hlook (by omega)
      refine hoperand.bind (by omega) hlevels hlt (fun right w₁ htrip hlt₁ hle₁ hread => ?_) (fun w₁ htrip hread => ?_)
      · rw [stepped_position] at hlt₁ hread
        have hlevels₁ : w₁.cursor.depth + levels = maxLevels := htrip.depth_eq ▸ hlevels
        have hmore := ih (join left right) hlevels₁ hle₁ (by omega)
        rw [hvalue] at hmore
        simp only [hread]
        exact hmore.mono fun _ _ h => h.after (hstep.trans htrip)
      · rw [stepped_position] at hread
        simp only [hread]
        exact ⟨hstep.trans htrip, .failed _⟩

/-- A first operand and what goes on from it. -/
theorem goOn_obeys (chain : Chain) {procedure : Procedure} (hoperand : Obeys tokens chain.operand levels)
    (hticks : procedure.ticks tokens.length levels = chain.operand.ticks tokens.length levels + tokens.length + 1 + 1)
    (hperform : ∀ n, perform tokens (n + 1) procedure = perform tokens n chain.operand >>= goOn tokens n chain)
    (hreader : ∀ ts, procedure.reader tokens.length levels ts =
      match chain.operand.reader tokens.length levels ts with
      | none => none
      | some (left, rest) =>
        Expr.chain (chain.operand.reader tokens.length levels) chain.join? tokens.length left rest) :
    Obeys tokens procedure levels := by
  intro w hlevels hposition
  rw [hreader, hticks]
  refine Ends.tick ?_ hperform
  refine hoperand.bind (by omega) hlevels hposition (fun left w₁ htrip hlt hle hread => ?_) (fun w₁ htrip hread => ?_)
  · have hlevels₁ : w₁.cursor.depth + levels = maxLevels := htrip.depth_eq ▸ hlevels
    have hmore := goOn_ends hoperand tokens.length left hlevels₁ hle (by omega)
    simp only [hread]
    refine hmore.mono fun _ _ h => ⟨h.after htrip, fun _ _ => ?_⟩
    exact lt_of_lt_of_le hlt h.trip.path.position_le
  · simp only [hread]
    exact ⟨⟨htrip, .failed _⟩, by simp⟩

theorem product_obeys (h : Obeys tokens .operand levels) : Obeys tokens .product levels :=
  goOn_obeys .product h (by simp only [Chain.operand, Procedure.ticks]; omega)
    (fun n => by rw [perform, Chain.operand]) fun _ => rfl

theorem sum_obeys (h : Obeys tokens .operand levels) : Obeys tokens .sum levels :=
  goOn_obeys .sum (product_obeys h) (by simp only [Chain.operand, Procedure.ticks]; omega)
    (fun n => by rw [perform, Chain.operand]) fun _ => rfl

/-! ### Operands on one level -/

theorem Completes.advances {w₀ : Walk} {reading : Option (Expr × List Token)} {outcome : Except EvalError Float}
    (h : Completes tokens reading w outcome w') (htrip : Trip tokens w₀ w)
    (hlt : w₀.cursor.position < w.cursor.position) : Advances tokens reading w₀ outcome w' :=
  ⟨h.after htrip, fun _ _ => lt_of_lt_of_le hlt h.trip.path.position_le⟩

/-- The last of some procedures, with something done to its value. -/
theorem Obeys.map_ends {procedure : Procedure} (h : Obeys tokens procedure levels)
    (hticks : procedure.ticks tokens.length levels ≤ ticks) (f : Float → Float) (wrap : Expr → Expr)
    (hwrap : ∀ e, (wrap e).value = f e.value) (hlevels : w.cursor.depth + levels = maxLevels)
    (hposition : w.cursor.position ≤ tokens.length) :
    Ends ticks (fun n => do return f (← perform tokens n procedure)) w (Completes tokens
      ((procedure.reader tokens.length levels (tokens.drop w.cursor.position)).map fun (e, rest) => (wrap e, rest))
        w) := by
  refine h.bind hticks hlevels hposition (fun e w₁ htrip _ _ hread => ?_) (fun w₁ htrip hread => ?_)
  · rw [hread, ← hwrap]
    exact Ends.pure ⟨htrip, .read (wrap e) _⟩
  · rw [hread]
    exact ⟨htrip, .failed _⟩

/-- A sign that has to follow is gone past, or another token or the end is met. -/
theorem expect_ends (sign : Token) {isExpected : Token → Bool} {more : Nat → Unit → Walking α}
    {post : Except EvalError α → Walk → Prop} (hsign : ∀ t, isExpected t = true ↔ t = sign)
    (hmax : w.cursor.depth ≤ maxLevels)
    (hexpected : w.cursor.position < tokens.length → Trip tokens w w.stepped →
      tokens.drop w.cursor.position = sign :: tokens.drop (w.cursor.position + 1) →
        Ends ticks (fun n => more n ()) w.stepped post)
    (hother : ∀ w₁, Trip tokens w w₁ → (∀ rest, tokens.drop w.cursor.position ≠ sign :: rest) →
      post (.error .invalidExpression) w₁) :
    Ends ticks (fun n => expect tokens isExpected >>= more n) w post := by
  refine Ends.expect_bind (fun t hlook ht => ?_) (fun t hlook ht => ?_) (fun hlook => ?_)
  · obtain ⟨hlt, hdrop⟩ := drop_of_getElem?_eq_some hlook
    rw [(hsign t).mp ht] at hdrop
    exact hexpected hlt (.stepped hlook hmax) hdrop
  · obtain ⟨-, hdrop⟩ := drop_of_getElem?_eq_some hlook
    refine hother w.stepped (.stepped hlook hmax) fun rest hrest => ?_
    have htrue : isExpected t = true := (hsign t).mpr (List.cons.inj (hdrop.symm.trans hrest)).1
    exact absurd (ht.symm.trans htrue) Bool.false_ne_true
  · exact hother w .refl (by simp [drop_of_getElem?_eq_none hlook])

/-- A sum in front of anything but a closing parenthesis is not closed. -/
theorem closed_eq_none {bound : Nat} {signed : Reader} {ts rest : List Token} {inner : Expr}
    (hread : Expr.sum bound signed ts = some (inner, rest)) (hrest : ∀ more, rest ≠ .closing :: more) :
    Expr.closed bound signed ts = none := by
  rw [Expr.closed, hread]
  split
  · rename_i hclosing
    cases hclosing
    exact absurd rfl (hrest _)
  · rfl

/-- A sum up to its closing parenthesis, with something done to its value. -/
theorem closed_ends (h : Obeys tokens .sum levels)
    (hticks : Procedure.sum.ticks tokens.length levels ≤ ticks) (f : Float → Float) (wrap : Expr → Expr)
    (hwrap : ∀ e, (wrap e).value = f e.value) (hlevels : w.cursor.depth + levels = maxLevels)
    (hposition : w.cursor.position ≤ tokens.length) :
    Ends ticks (fun n => do
      let value ← perform tokens n .sum
      expect tokens (· matches .closing)
      return f value) w (Completes tokens ((Expr.closed tokens.length (Expr.signed tokens.length levels)
        (tokens.drop w.cursor.position)).map fun (e, rest) => (wrap e, rest)) w) := by
  refine h.bind hticks hlevels hposition (fun e w₁ htrip _ _ hread => ?_) (fun w₁ htrip hread => ?_)
  · rw [Procedure.reader] at hread
    have hmax : w₁.cursor.depth ≤ maxLevels := by
      have := htrip.depth_eq
      omega
    refine expect_ends .closing (fun t => by cases t <;> simp) hmax (fun _ hstep hdrop => ?_)
      (fun w₂ hstep hother => ?_)
    · rw [Expr.closed, hread, hdrop, ← hwrap]
      exact Ends.pure ⟨htrip.trans hstep, .read (wrap e) _⟩
    · rw [closed_eq_none hread hother]
      exact ⟨htrip.trans hstep, .failed _⟩
  · rw [Procedure.reader] at hread
    rw [Expr.closed, hread]
    exact ⟨htrip, .failed _⟩

/-- A function's name in front of anything but an opening parenthesis is no primary. -/
theorem primary_call_eq_none {bound : Nat} {signed : Reader} {f : Func} {ts : List Token}
    (h : ∀ rest, ts ≠ .opening :: rest) : Expr.primary bound signed (.func f :: ts) = none := by
  rw [Expr.primary]
  · simp
  · simp
  · rintro g rest hcall
    exact h rest (List.cons.inj hcall).2

theorem primary_obeys (hsum : Obeys tokens .sum levels) : Obeys tokens .primary levels := by
  intro w hlevels hposition
  have hmax : w.cursor.depth ≤ maxLevels := by omega
  refine Ends.tick ?_ fun n => by rw [perform]
  apply Ends.next_bind
  show Ends _ _ _ (Advances tokens (Expr.primary _ _ _) w)
  cases hlook : tokens[w.cursor.position]? with
  | none =>
    rw [drop_of_getElem?_eq_none hlook]
    exact Ends.fail ⟨⟨.refl, .failed _⟩, by simp⟩
  | some t =>
    obtain ⟨hlt, hdrop⟩ := drop_of_getElem?_eq_some hlook
    have hstep : Trip tokens w w.stepped := .stepped hlook hmax
    have hstepped : w.cursor.position < w.stepped.cursor.position := Nat.lt_succ_self _
    rw [hdrop]
    simp only [Option.isSome_some, if_true]
    cases t with
    | number x => exact Ends.pure ⟨⟨hstep, .read (.number x) _⟩, fun _ _ => hstepped⟩
    | opening =>
      exact (closed_ends (w := w.stepped) hsum (le_refl _) (fun v => v) .group (fun _ => rfl) hlevels hlt).mono
        fun _ _ h => h.advances hstep hstepped
    | func f =>
      refine expect_ends .opening (fun t => by cases t <;> simp) hmax (fun hlt' hstep' hdrop' => ?_)
        (fun w₁ hstep' hother => ?_)
      · rw [stepped_position] at hdrop'
        rw [hdrop']
        exact (closed_ends (w := w.stepped.stepped) hsum (le_refl _) f.apply (.call f) (fun _ => rfl) hlevels hlt').mono
          fun _ _ h => h.advances (hstep.trans hstep') (Nat.lt_succ_of_lt hstepped)
      · rw [stepped_position] at hother
        rw [primary_call_eq_none hother]
        exact ⟨⟨hstep.trans hstep', .failed _⟩, by simp⟩
    | _ => exact Ends.fail ⟨⟨hstep, .failed _⟩, by simp⟩

theorem power_obeys (h : Obeys tokens .operand levels) (hprimary : Obeys tokens .primary levels) :
    Obeys tokens .power levels := by
  intro w hlevels hposition
  refine Ends.tick ?_ fun n => by rw [perform]
  show Ends _ _ _ (Advances tokens (Expr.powered _ _ _) w)
  refine hprimary.bind (le_refl _) hlevels hposition (fun base w₁ htrip hlt hle hread => ?_) (fun w₁ htrip hread => ?_)
  · rw [Procedure.reader] at hread
    have hlevels₁ : w₁.cursor.depth + levels = maxLevels := htrip.depth_eq ▸ hlevels
    apply Ends.look_bind
    cases hlook : tokens[w₁.cursor.position]? with
    | none =>
      rw [Grammar.powered_bare hread (by simp [drop_of_getElem?_eq_none hlook])]
      exact Ends.pure ⟨⟨htrip, .read base _⟩, fun _ _ => hlt⟩
    | some t =>
      obtain ⟨hlt₁, hdrop⟩ := drop_of_getElem?_eq_some hlook
      cases t with
      | power =>
        have hmax : w₁.cursor.depth ≤ maxLevels := by omega
        rw [Expr.powered, hread, hdrop]
        have hmap := h.map_ends (w := w₁.stepped) (Procedure.primary.ticks_operand_le _ _) base.value.pow (.power base)
          (fun _ => rfl) hlevels₁ hlt₁
        exact hmap.mono fun _ _ h => h.advances (htrip.trans (.stepped hlook hmax)) (Nat.lt_succ_of_lt hlt)
      | _ =>
        rw [Grammar.powered_bare hread (by simp [hdrop])]
        exact Ends.pure ⟨⟨htrip, .read base _⟩, fun _ _ => hlt⟩
  · rw [Procedure.reader] at hread
    rw [Expr.powered, hread]
    exact ⟨⟨htrip, .failed _⟩, by simp⟩

theorem signed_obeys (h : Obeys tokens .operand levels) (hpower : Obeys tokens .power levels) :
    Obeys tokens .signed levels := by
  intro w hlevels hposition
  have hmax : w.cursor.depth ≤ maxLevels := by omega
  refine Ends.tick ?_ fun n => by rw [perform]
  apply Ends.look_bind
  show Ends _ _ _ (Advances tokens (Expr.signed _ _ _) w)
  cases hlook : tokens[w.cursor.position]? with
  | none =>
    rw [Grammar.signed_succ _ _ (by simp [drop_of_getElem?_eq_none hlook]) (by simp [drop_of_getElem?_eq_none hlook])]
    exact hpower w hlevels hposition
  | some t =>
    obtain ⟨hlt, hdrop⟩ := drop_of_getElem?_eq_some hlook
    have hstep : Trip tokens w w.stepped := .stepped hlook hmax
    have hstepped : w.cursor.position < w.stepped.cursor.position := Nat.lt_succ_self _
    cases t with
    | minus =>
      rw [hdrop]
      have hmap := h.map_ends (w := w.stepped) (Procedure.power.ticks_operand_le _ _) (fun v => -v) .negative
        (fun _ => rfl) hlevels hlt
      exact hmap.mono fun _ _ h => h.advances hstep hstepped
    | plus =>
      rw [hdrop]
      have hmap := h.map_ends (w := w.stepped) (Procedure.power.ticks_operand_le _ _) (fun v => v) .positive
        (fun _ => rfl) hlevels hlt
      simp only [bind_pure] at hmap
      exact hmap.mono fun _ _ h => h.advances hstep hstepped
    | _ =>
      rw [Grammar.signed_succ _ _ (by simp [hdrop]) (by simp [hdrop])]
      exact hpower w hlevels hposition

/-- An operand on one more level than the signed operand in it. -/
theorem operand_obeys_succ (hsigned : Obeys tokens .signed levels) : Obeys tokens .operand (levels + 1) := by
  intro w hlevels hposition
  have hlt : w.cursor.depth < maxLevels := by omega
  have hraised : w.raised.cursor.depth + levels = maxLevels := by
    rw [raised_depth]
    omega
  obtain ⟨outcome, w', hrun, hadvances⟩ := hsigned w.raised hraised hposition
  have hrun : ∀ n, Procedure.signed.ticks tokens.length levels ≤ n →
      perform tokens n .signed w.raised = some (outcome, w') := hrun
  obtain ⟨w'', hlowered, hsame, htrip⟩ := hadvances.trip.raised hlt hposition
  rw [Procedure.ticks_operand_succ]
  refine Ends.tick ⟨outcome, w'', fun n hn => ?_, ⟨htrip, hsame ▸ hadvances.agrees⟩, fun v hv =>
    hsame ▸ hadvances.position_lt v hv⟩ fun n => by rw [perform]
  show (takeLevel w).bind _ = _
  rw [takeLevel, if_pos hlt]
  show ((perform tokens n .signed w.raised).bind fun run => run.2.lowered?.bind fun w'' => some (run.1, w'')) = _
  rw [hrun n hn, Option.bind_some, hlowered]
  rfl

/-- No operand where all levels are in use. -/
theorem operand_obeys_zero : Obeys tokens .operand 0 := by
  intro w hlevels _
  refine Ends.tick (Ends.of_eq (fun n => ?_) ⟨⟨.refl, .failed _⟩, by simp⟩) fun n => by rw [perform]
  show (takeLevel w).bind _ = _
  rw [takeLevel, if_neg (by omega)]
  rfl

end

/-! ### All procedures -/

theorem operand_obeys (tokens : List Token) (levels : Nat) : Obeys tokens .operand levels := by
  induction levels with
  | zero => exact operand_obeys_zero
  | succ levels ih => exact operand_obeys_succ (signed_obeys ih (power_obeys ih (primary_obeys (sum_obeys ih))))

theorem perform_obeys (tokens : List Token) (procedure : Procedure) (levels : Nat) : Obeys tokens procedure levels := by
  have hoperand := operand_obeys tokens levels
  have hprimary := primary_obeys (sum_obeys hoperand)
  have hpower := power_obeys hoperand hprimary
  cases procedure with
  | sum => exact sum_obeys hoperand
  | product => exact product_obeys hoperand
  | operand => exact hoperand
  | signed => exact signed_obeys hoperand hpower
  | power => exact hpower
  | primary => exact hprimary

/-- A walk over all tokens comes to their value. -/
theorem exists_valueOfAll_eq (tokens : List Token) :
    ∃ w, valueOfAll tokens (start ⟨0, 0⟩) = some (valueOfTokens tokens, w) := by
  have hends : Ends (enoughTicks tokens 0) (fun n => perform tokens n .sum >>= finish tokens) (start ⟨0, 0⟩)
      fun outcome _ => outcome = valueOfTokens tokens := by
    rw [valueOfTokens, ofTokens?]
    refine (perform_obeys tokens .sum maxLevels).bind (Procedure.ticks_le _ _ _) rfl (Nat.zero_le _)
      (fun e w _ _ _ hread => ?_) (fun w _ hread => ?_)
    · have hread : Expr.sum tokens.length (Expr.signed tokens.length maxLevels) tokens = some (e, _) := hread
      rw [hread]
      apply Ends.look_bind
      cases hlook : tokens[w.cursor.position]? with
      | none =>
        rw [drop_of_getElem?_eq_none hlook]
        exact Ends.pure rfl
      | some t =>
        rw [(drop_of_getElem?_eq_some hlook).2]
        exact Ends.fail rfl
    · have hread : Expr.sum tokens.length (Expr.signed tokens.length maxLevels) tokens = none := hread
      rw [hread]
      rfl
  obtain ⟨outcome, w, hrun, rfl⟩ := hends
  exact ⟨w, hrun _ (le_refl _)⟩

/-- **Every procedure keeps to its tokens and levels**: from any place up to the end of the tokens, with any number of
the 256 levels in use, it ends, given enough ticks, and given more of them in the same way: failed or not, with as many
levels in use as before and its position neither reduced nor behind the last token, and if it did not fail, past one
token at least. On all of the way the position does not go back and at least the levels from the beginning and
at most 256 are in use. What it comes to is what the reader of its phrase comes to. -/
theorem perform_disciplined (tokens : List Token) (procedure : Procedure) (c : Cursor)
    (hposition : c.position ≤ tokens.length) (hdepth : c.depth ≤ 256) :
    ∃ outcome w, (∀ n, enoughTicks tokens c.depth ≤ n → perform tokens n procedure (start c) = some (outcome, w)) ∧
      w.cursor.depth = c.depth ∧ c.position ≤ w.cursor.position ∧ w.cursor.position ≤ tokens.length ∧
      (∀ v, outcome = .ok v → c.position < w.cursor.position) ∧
      (∀ place ∈ w.places, c.depth ≤ place.depth ∧ place.depth ≤ 256 ∧ place.position ≤ tokens.length) ∧
      (w.places.IsChain fun later earlier => earlier.position ≤ later.position) ∧
      Agrees tokens (procedure.reader tokens.length (256 - c.depth) (tokens.drop c.position)) outcome
        w.cursor.position := by
  have hlevels : c.depth + (256 - c.depth) = maxLevels := by
    show _ = 256
    omega
  have hticks : procedure.ticks tokens.length (256 - c.depth) ≤ enoughTicks tokens c.depth := by
    have hle := procedure.ticks_le tokens.length (256 - c.depth)
    rwa [show 256 - c.depth + 1 = maxLevels + 1 - c.depth from by omega] at hle
  obtain ⟨outcome, w, hrun, hadvances⟩ :=
    perform_obeys tokens procedure (256 - c.depth) (start c) hlevels hposition
  have hpath : Path tokens c.depth (start c) w := hadvances.trip.path
  have hplaces : ∀ place ∈ (start c).places,
      c.depth ≤ place.depth ∧ place.depth ≤ maxLevels ∧ place.position ≤ tokens.length :=
    List.forall_mem_singleton.mpr ⟨le_refl _, hdepth, hposition⟩
  refine ⟨outcome, w, fun n hn => hrun n (hticks.trans hn), hadvances.trip.depth_eq, hpath.position_le,
    hpath.position_le_length hposition, hadvances.position_lt, hpath.forall_places hplaces, ?_, hadvances.agrees⟩
  exact hpath.isChain_places (List.isChain_singleton c)

/-- The sign in these parentheses finds all levels in use, and the two that were taken are given back. -/
theorem perform_disciplined_on_last_levels :
    let tokens : List Token := [.number 2, .times, .opening, .minus, .number 4, .closing]
    2 ≤ tokens.length ∧ 254 ≤ 256 ∧
      ∃ w, perform tokens (enoughTicks tokens 254) .sum (start ⟨2, 254⟩) = some (.error .invalidExpression, w) ∧
        w.cursor.depth = 254 ∧ w.cursor.position ≤ 6 ∧ ∀ place ∈ w.places, 254 ≤ place.depth ∧ place.depth ≤ 256 := by
  intro tokens
  obtain ⟨outcome, w, hrun, hdepth, -, hposition, -, hplaces, -, hagrees⟩ :=
    perform_disciplined tokens .sum ⟨2, 254⟩ (by decide) (by decide)
  have hreader : Procedure.reader tokens.length 2 .sum (tokens.drop 2) = none := rfl
  cases outcome with
  | ok v =>
    obtain ⟨e, hread, -⟩ := hagrees.exists_of_ok
    exact absurd (hreader.symm.trans hread) (by simp)
  | error e =>
    obtain ⟨-, rfl⟩ := hagrees.of_error
    exact ⟨by decide, by decide, w, hrun _ (le_refl _), hdepth, hposition,
      fun place h => ⟨(hplaces place h).1, (hplaces place h).2.1⟩⟩

end Reckoner.Walk
