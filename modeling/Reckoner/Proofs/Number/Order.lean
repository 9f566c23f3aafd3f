import Mathlib.Data.Rat.Cast.Order
import Mathlib.Order.WithBot
import Reckoner.Proofs.Number.Encoding
import Reckoner.Proofs.Number.Rank

/-!
# The order of floating-point numbers

Floating-point numbers are compared by their exponents first and then by their mantissas. The rank of a number is its
exponent with its mantissa behind it (`Parts`), so that this is the order of the ranks, and with it that of the
numbers themselves (`exists_number_le`). What is not a number is not compared at all.
-/

namespace Reckoner

/-- The rational numbers with an infinity on either side. -/
abbrev Extended := WithBot (WithTop Rat)

namespace Extended

/-- The infinity with a given sign. -/
def infinite (negative : Bool) : Extended :=
  if negative then ⊥ else ⊤

/-- The rational number with a given sign and size. -/
def finite (negative : Bool) (size : Rat) : Extended :=
  ((Binary64.signed negative size : Rat) : WithTop Rat)

theorem finite_le_finite {negative negative' : Bool} {size size' : Rat}
    (h : Binary64.signed negative size ≤ Binary64.signed negative' size') :
    finite negative size ≤ finite negative' size' :=
  WithBot.coe_le_coe.mpr (WithTop.coe_le_coe.mpr h)

/-- What a function makes of a rational number; it leaves the infinities where they are. -/
def map (f : Rat → Rat) : Extended → Extended :=
  WithBot.map (WithTop.map f)

theorem map_infinite (f : Rat → Rat) (negative : Bool) : map f (infinite negative) = infinite negative := by
  cases negative <;> rfl

theorem map_finite {f : Rat → Rat} {negative negative' : Bool} {size size' : Rat}
    (h : f (Binary64.signed negative size) = Binary64.signed negative' size') :
    map f (finite negative size) = finite negative' size' := by
  rw [finite, finite, ← h]
  rfl

theorem map_mono {f : Rat → Rat} (h : Monotone f) : Monotone (map f) :=
  h.withTop_map.withBot_map

end Extended

namespace Binary64

open Float.Model Float.Model.UnpackedFloat

/-! ### Numbers of any kind -/

/-- The number that a floating-point number is, if it is one. -/
def number? : Binary64 → Option Extended
  | .notANumber => none
  | .infinite negative => some (.infinite negative)
  | .finite negative rank => some (.finite negative (value rank))

theorem rank_lt_infinityRank {x : Float} {negative : Bool} {rank : Nat} (h : ofFloat x = .finite negative rank) :
    rank < infinityRank := by
  rw [ofFloat, ofBits] at h
  split_ifs at h with hfinite
  obtain ⟨-, rfl⟩ := Binary64.finite.inj h
  exact hfinite

/-- A floating-point number is unpacked into the parts of its sign and its rank. -/
theorem parts_toModel (x : Float) : Parts x.toModel.unpack (ofFloat x) :=
  parts_unpack x.toBits.toBitVec

theorem ofFloat_eq_notANumber_iff (x : Float) : ofFloat x = .notANumber ↔ x.isNaN = true := by
  have hparts := parts_toModel x
  change _ ↔ x.toModel.unpack.isNaN = true
  generalize x.toModel.unpack = u, ofFloat x = v at *
  cases hparts <;> simp [UnpackedFloat.isNaN]

theorem exists_finite_of_isFinite {x : Float} (hx : x.isFinite = true) :
    ∃ negative rank, ofFloat x = .finite negative rank := by
  have hparts := parts_toModel x
  change x.toModel.unpack.isFinite = true at hx
  generalize x.toModel.unpack = u, ofFloat x = v at *
  cases hparts with
  | notANumber => cases hx
  | infinite s => cases hx
  | zero s => exact ⟨_, _, rfl⟩
  | finite s binade hpos he hrank hm hlow => exact ⟨_, _, rfl⟩

theorem ofFloat_of_isFinite {x : Float} (hx : x.isFinite = true) (hsign : x.toBits.toNat < 2 ^ 63) :
    ∃ rank, ofFloat x = .finite false rank := by
  obtain ⟨negative, rank, hfinite⟩ := exists_finite_of_isFinite hx
  rw [ofFloat, ofBits] at hfinite
  split_ifs at hfinite with hsmall
  refine ⟨x.toBits.toNat % 2 ^ 63, ?_⟩
  rw [ofFloat, ofBits_of_lt hsmall, decide_eq_false (Nat.not_le.mpr hsign)]

/-! ### Comparing -/

/-- Comparing exponents and then mantissas compares ranks. -/
theorem rank_le_of_compare {binade binade' m m' : Nat} {e e' : Int} (he : e = binade - 1074) (he' : e' = binade' - 1074)
    (hm : m < 2 ^ 53) (hlow' : binade' = 0 ∨ 2 ^ 52 ≤ m')
    (h : ((compare e e').then (compare m m')).isLE = true) : binade * 2 ^ 52 + m ≤ binade' * 2 ^ 52 + m' := by
  rw [Ordering.isLE_then_iff_and] at h
  obtain ⟨hexp, hlt | hle⟩ := h
  · rw [compare_lt_iff_lt] at hlt
    omega
  · rw [Int.isLE_compare] at hexp
    rw [Nat.isLE_compare] at hle
    omega

theorem signed_true (q : Rat) : signed true q = -q :=
  rfl

theorem signed_false (q : Rat) : signed false q = q :=
  rfl

theorem signed_value_zero (negative : Bool) : signed negative (value 0) = 0 := by
  cases negative <;> simp [signed, value_zero]

theorem isNegative_negative : isNegative .negative = true :=
  rfl

theorem isNegative_positive : isNegative .positive = false :=
  rfl

theorem signed_true_nonpos (rank : Nat) : signed true (value rank) ≤ 0 := by
  rw [signed_true]
  exact neg_nonpos.mpr (value_nonneg rank)

theorem signed_false_nonneg (rank : Nat) : 0 ≤ signed false (value rank) := by
  rw [signed_false]
  exact value_nonneg rank

/-- Of two numbers with parts, the larger negative one is the one of the smaller rank. -/
theorem signed_value_le_of_le {u v : UnpackedFloat} {negative negative' : Bool} {rank rank' : Nat}
    (hu : Parts u (.finite negative rank)) (hv : Parts v (.finite negative' rank')) (h : UnpackedFloat.le u v = true) :
    signed negative (value rank) ≤ signed negative' (value rank') := by
  cases hu with
  | zero s =>
    rw [signed_value_zero]
    cases hv with
    | zero s' => rw [signed_value_zero]
    | finite s' =>
      cases s' with
      | negative => cases h
      | positive => exact signed_false_nonneg rank'
  | finite s binade hpos he hrank hm hlow =>
    cases hv with
    | zero s' =>
      rw [signed_value_zero]
      cases s with
      | negative => exact signed_true_nonpos rank
      | positive => cases h
    | finite s' binade' hpos' he' hrank' hm' hlow' =>
      cases s with
      | negative =>
        cases s' with
        | negative =>
          have hswapped : ((compare _ _).then (compare _ _)).swap.isLE = true := h
          rw [Ordering.swap_then, ← Std.OrientedOrd.eq_swap, ← Std.OrientedOrd.eq_swap] at hswapped
          have hle := rank_le_of_compare he' he hm' hlow hswapped
          rw [← hrank, ← hrank'] at hle
          rw [isNegative_negative, signed_true, signed_true]
          exact neg_le_neg (value_strictMono.monotone hle)
        | positive => exact (signed_true_nonpos rank).trans (signed_false_nonneg rank')
      | positive =>
        cases s' with
        | negative => cases h
        | positive =>
          have hle := rank_le_of_compare he he' hm hlow' h
          rw [← hrank, ← hrank'] at hle
          rw [isNegative_positive, signed_false, signed_false]
          exact value_strictMono.monotone hle

/-- A comparison of unpacked numbers compares what they are. -/
theorem number?_le_of_parts {u v : UnpackedFloat} {x y : Binary64} (hu : Parts u x) (hv : Parts v y)
    (h : UnpackedFloat.le u v = true) : ∃ a b, x.number? = some a ∧ y.number? = some b ∧ a ≤ b := by
  cases x with
  | notANumber =>
    cases hu
    cases h
  | infinite negative =>
    cases hu with
    | infinite s =>
      cases s with
      | negative =>
        cases hv with
        | notANumber => cases h
        | _ => exact ⟨_, _, rfl, rfl, bot_le⟩
      | positive =>
        cases hv with
        | infinite s' =>
          cases s' with
          | negative => cases h
          | positive => exact ⟨_, _, rfl, rfl, le_rfl⟩
        | _ => cases h
  | finite negative rank =>
    cases y with
    | notANumber =>
      cases hv
      cases hu <;> cases h
    | infinite negative' =>
      cases hv with
      | infinite s' =>
        cases s' with
        | negative =>
          cases hu with
          | zero => cases h
          | finite s => cases s <;> cases h
        | positive => exact ⟨_, _, rfl, rfl, le_top⟩
    | finite negative' rank' =>
      exact ⟨_, _, rfl, rfl, Extended.finite_le_finite (signed_value_le_of_le hu hv h)⟩

/-- **Floating-point numbers are in the order of the numbers that they are.** -/
theorem exists_number_le {x y : Float} (h : x ≤ y) :
    ∃ a b, (ofFloat x).number? = some a ∧ (ofFloat y).number? = some b ∧ a ≤ b :=
  number?_le_of_parts (parts_toModel x) (parts_toModel y) (of_decide_eq_true h)

end Binary64
end Reckoner
