import Mathlib.Data.Rat.Cast.Order
import Mathlib.Order.Monotone.Basic
import Mathlib.Tactic.Linarith
import Mathlib.Tactic.NormNum
import Mathlib.Tactic.Ring
import Reckoner.Number.Binary64

/-!
# The numbers by rank

How large the number of some rank is. In the binade `s` every rank is `s * 2^52 + k` and stands for `k * 2^s`
units, with `k` between `2^52` and `2^53` unless the binade is the lowest one (`units_add`). So the numbers grow
with their ranks (`units_strictMono`), a large number is a multiple of a large power of two
(`two_pow_dvd_units`), and conversely few leading places make a number (`exists_units_eq`).
-/

namespace Reckoner.Binary64

theorem units_of_lt {r : Nat} (h : r < 2 ^ 52) : units r = r := by
  rw [units, if_pos h]

theorem units_succ_add (s : Nat) {m : Nat} (hm : m < 2 ^ 52) :
    units ((s + 1) * 2 ^ 52 + m) = (2 ^ 52 + m) * 2 ^ s := by
  have hge : ¬(s + 1) * 2 ^ 52 + m < 2 ^ 52 := by omega
  have hmod : ((s + 1) * 2 ^ 52 + m) % 2 ^ 52 = m := by omega
  have hdiv : ((s + 1) * 2 ^ 52 + m) / 2 ^ 52 - 1 = s := by omega
  rw [units, if_neg hge, hmod, hdiv]

/-- The number of a rank by its binade and its leading places; the carry out of a binade is the first number
of the next one. -/
theorem units_add {s k : Nat} (hk : k ≤ 2 ^ 53) (hs : s = 0 ∨ 2 ^ 52 ≤ k) :
    units (s * 2 ^ 52 + k) = k * 2 ^ s := by
  by_cases hlow : k < 2 ^ 52
  · obtain rfl : s = 0 := hs.resolve_right (by omega)
    rw [Nat.zero_mul, Nat.zero_add, units_of_lt hlow, Nat.pow_zero, Nat.mul_one]
  · by_cases htop : k = 2 ^ 53
    · have hrank : s * 2 ^ 52 + k = (s + 1 + 1) * 2 ^ 52 + 0 := by omega
      rw [hrank, units_succ_add (s + 1) (by norm_num), htop]
      ring
    · have hrank : s * 2 ^ 52 + k = (s + 1) * 2 ^ 52 + (k - 2 ^ 52) := by omega
      rw [hrank, units_succ_add s (by omega), Nat.add_sub_cancel' (by omega)]

/-- Every rank has a binade and leading places. -/
theorem exists_binade (r : Nat) : ∃ s k, r = s * 2 ^ 52 + k ∧ k < 2 ^ 53 ∧ (s = 0 ∨ 2 ^ 52 ≤ k) := by
  by_cases hlow : r < 2 ^ 52
  · exact ⟨0, r, by omega, by omega, Or.inl rfl⟩
  · refine ⟨r / 2 ^ 52 - 1, 2 ^ 52 + r % 2 ^ 52, ?_, ?_, Or.inr (Nat.le_add_right _ _)⟩ <;> omega

theorem units_strictMono : StrictMono units := by
  refine strictMono_nat_of_lt_succ fun r => ?_
  obtain ⟨s, k, rfl, hk, hs⟩ := exists_binade r
  rw [Nat.add_assoc, units_add (Nat.le_of_lt hk) hs, units_add hk (by omega)]
  exact Nat.mul_lt_mul_of_pos_right (Nat.lt_succ_self k) (Nat.two_pow_pos s)

/-- A number from the binade `s` on is a multiple of `2^s` units. -/
theorem two_pow_dvd_units {s r : Nat} (h : 2 ^ (52 + s) ≤ units r) : 2 ^ s ∣ units r := by
  obtain ⟨s', k, rfl, hk, hs⟩ := exists_binade r
  rw [units_add (Nat.le_of_lt hk) hs] at h ⊢
  have hlt : 2 ^ (52 + s) < 2 ^ (53 + s') := by
    calc 2 ^ (52 + s) ≤ k * 2 ^ s' := h
      _ < 2 ^ 53 * 2 ^ s' := Nat.mul_lt_mul_of_pos_right hk (Nat.two_pow_pos s')
      _ = 2 ^ (53 + s') := (Nat.pow_add 2 53 s').symm
  have hle : s ≤ s' := by
    have := (Nat.pow_lt_pow_iff_right (by norm_num : 1 < 2)).mp hlt
    omega
  exact Dvd.dvd.mul_left (pow_dvd_pow 2 hle) k

/-- Up to 53 leading places and any number of zeros behind them make a number. -/
theorem exists_units_eq (s : Nat) {k : Nat} (hk : k < 2 ^ 53) : ∃ r ≤ s * 2 ^ 52 + k, units r = k * 2 ^ s := by
  induction s generalizing k with
  | zero =>
    exact ⟨0 * 2 ^ 52 + k, le_rfl, units_add (Nat.le_of_lt hk) (Or.inl rfl)⟩
  | succ s ih =>
    by_cases hlow : k < 2 ^ 52
    · have hle : s * 2 ^ 52 + 2 * k ≤ (s + 1) * 2 ^ 52 + k := by omega
      obtain ⟨r, hr, hunits⟩ := ih (k := 2 * k) (by omega)
      exact ⟨r, hr.trans hle, hunits.trans (by ring)⟩
    · exact ⟨(s + 1) * 2 ^ 52 + k, le_rfl, units_add (Nat.le_of_lt hk) (Or.inr (by omega))⟩

/-! ### Values -/

theorem two_pow_pos_rat (n : Nat) : (0 : Rat) < 2 ^ n :=
  pow_pos two_pos n

theorem value_eq (r : Nat) : value r = units r / 2 ^ 1074 := by
  simp only [value, Rat.mkRat_eq_div, Int.cast_natCast, Nat.cast_pow, Nat.cast_ofNat]

theorem value_strictMono : StrictMono value := by
  intro r r' h
  have hunits : (units r : Rat) < units r' := Nat.cast_lt.mpr (units_strictMono h)
  simpa only [value_eq] using div_lt_div_of_pos_right hunits (two_pow_pos_rat 1074)

theorem value_zero : value 0 = 0 := by
  rw [value_eq, units_of_lt (by norm_num), Nat.cast_zero, zero_div]

theorem value_nonneg (r : Nat) : 0 ≤ value r := by
  rw [value_eq]
  exact div_nonneg (Nat.cast_nonneg _) (two_pow_pos_rat 1074).le

end Reckoner.Binary64
