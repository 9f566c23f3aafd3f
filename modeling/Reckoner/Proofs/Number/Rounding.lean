import Mathlib.Algebra.Order.Field.Basic
import Mathlib.Tactic.FieldSimp
import Mathlib.Tactic.Positivity
import Reckoner.Proofs.Number.Rank

/-!
# Rounding to a number

What `nearest` and `round` do to a rational. A quotient of units is rounded to the grid of its binade
(`RoundsTo`, `nearestToUnits_roundsTo`). From that alone rounding keeps the order (`nearest_mono`), leaves
numbers where they are (`nearest_value`), and moves a rational by at most half a step of the grid
(`abs_units_sub_le`), which is at most `2^-53` of its size (`abs_value_nearest_sub_le`).
-/

namespace Reckoner

theorem roundQuotient_spec (dividend : Nat) {divisor : Nat} (hpos : 0 < divisor) :
    2 * (roundQuotient dividend divisor * divisor) ≤ 2 * dividend + divisor ∧
      2 * dividend ≤ 2 * (roundQuotient dividend divisor * divisor) + divisor := by
  have hdiv := Nat.div_add_mod dividend divisor
  have hmod := Nat.mod_lt dividend hpos
  rw [roundQuotient]
  rw [Nat.mul_comm] at hdiv
  split
  · rename_i hbelow
    generalize dividend / divisor * divisor = p at *
    omega
  · rename_i habove
    rw [Nat.add_mul, Nat.one_mul]
    generalize dividend / divisor * divisor = p at *
    omega

/-- What is below a natural number is rounded to it at most. -/
theorem roundQuotient_le {dividend divisor n : Nat} (hpos : 0 < divisor) (h : dividend < n * divisor) :
    roundQuotient dividend divisor ≤ n := by
  obtain ⟨hle, -⟩ := roundQuotient_spec dividend hpos
  by_contra hlt
  have hmul : (n + 1) * divisor ≤ roundQuotient dividend divisor * divisor :=
    Nat.mul_le_mul_right _ (Nat.not_le.mp hlt)
  rw [Nat.succ_mul] at hmul
  omega

/-- What is not below a natural number is rounded to it at least. -/
theorem le_roundQuotient {dividend divisor n : Nat} (hpos : 0 < divisor) (h : n * divisor ≤ dividend) :
    n ≤ roundQuotient dividend divisor := by
  obtain ⟨-, hle⟩ := roundQuotient_spec dividend hpos
  by_contra hlt
  have hmul : (roundQuotient dividend divisor + 1) * divisor ≤ n * divisor :=
    Nat.mul_le_mul_right _ (Nat.not_le.mp hlt)
  rw [Nat.succ_mul] at hmul
  omega

namespace Binary64

/-- A quotient of units rounds to `k` steps of the grid of the binade `s`. -/
structure RoundsTo (q : Rat) (s k : Nat) : Prop where
  le_top : k ≤ 2 ^ 53
  low_or : s = 0 ∨ 2 ^ 52 ≤ k
  low_or_le : s = 0 ∨ 2 ^ (52 + s) ≤ q
  lt_top : q < 2 ^ (53 + s)
  close : |k * 2 ^ s - q| ≤ 2 ^ s / 2

theorem abs_roundQuotient_sub_le (dividend : Nat) {divisor : Nat} (hpos : 0 < divisor) :
    |(roundQuotient dividend divisor : Rat) - dividend / divisor| ≤ 1 / 2 := by
  obtain ⟨h₁, h₂⟩ := roundQuotient_spec dividend hpos
  have hd : (0 : Rat) < divisor := by exact_mod_cast hpos
  have h₁' : (2 : Rat) * (roundQuotient dividend divisor * divisor) ≤ 2 * dividend + divisor := by
    exact_mod_cast h₁
  have h₂' : (2 : Rat) * dividend ≤ 2 * (roundQuotient dividend divisor * divisor) + divisor := by
    exact_mod_cast h₂
  rw [abs_le]
  constructor
  · rw [neg_le_sub_iff_le_add, div_le_iff₀ hd]
    linarith
  · rw [sub_le_iff_le_add, ← sub_le_iff_le_add', le_div_iff₀ hd]
    linarith

/-- The grid of a quotient leaves it at most 53 leading places. -/
theorem exists_grid (a : Nat) {b : Nat} (hb : 0 < b) :
    a < 2 ^ (53 + ((a / b).log2 - 52)) * b ∧
      ((a / b).log2 - 52 = 0 ∨ 2 ^ (52 + ((a / b).log2 - 52)) * b ≤ a) := by
  constructor
  · rw [← Nat.div_lt_iff_lt_mul hb]
    exact lt_of_lt_of_le Nat.lt_log2_self (Nat.pow_le_pow_right (by norm_num) (by omega))
  · by_cases hlog : (a / b).log2 ≤ 52
    · exact Or.inl (by omega)
    · right
      have hne : a / b ≠ 0 := by
        intro h
        rw [h, Nat.log2_zero] at hlog
        omega
      rw [← Nat.le_div_iff_mul_le hb, Nat.add_sub_cancel' (by omega)]
      exact Nat.log2_self_le hne

theorem nearestToUnits_roundsTo {a b : Nat} (hb : 0 < b) {q : Rat} (hq : (a : Rat) / b = q) :
    ∃ s k, RoundsTo q s k ∧ nearestToUnits a b = min infinityRank (s * 2 ^ 52 + k) := by
  subst hq
  obtain ⟨htop, hlow⟩ := exists_grid a hb
  refine ⟨(a / b).log2 - 52, roundQuotient a (b * 2 ^ ((a / b).log2 - 52)), ?_, rfl⟩
  generalize (a / b).log2 - 52 = s at *
  have hd : 0 < b * 2 ^ s := Nat.mul_pos hb (Nat.two_pow_pos s)
  have hb' : (0 : Rat) < b := by exact_mod_cast hb
  have htop' : a < 2 ^ 53 * (b * 2 ^ s) := by
    calc a < 2 ^ (53 + s) * b := htop
      _ = 2 ^ 53 * (b * 2 ^ s) := by rw [pow_add]; ring
  refine ⟨roundQuotient_le hd htop', ?_, ?_, ?_, ?_⟩
  · refine hlow.imp id fun hlow => le_roundQuotient hd ?_
    calc 2 ^ 52 * (b * 2 ^ s) = 2 ^ (52 + s) * b := by rw [pow_add]; ring
      _ ≤ a := hlow
  · refine hlow.imp id fun hlow => ?_
    rw [le_div_iff₀ hb']
    exact_mod_cast hlow
  · rw [div_lt_iff₀ hb']
    exact_mod_cast htop
  · have hclose := abs_roundQuotient_sub_le a hd
    generalize roundQuotient a (b * 2 ^ s) = k at *
    have hscale : (k : Rat) * 2 ^ s - a / b = 2 ^ s * (k - a / ((b * 2 ^ s : Nat) : Rat)) := by
      push_cast
      field_simp
    rw [hscale, abs_mul, abs_of_pos (two_pow_pos_rat s)]
    calc 2 ^ s * |(k : Rat) - a / ((b * 2 ^ s : Nat) : Rat)|
        ≤ 2 ^ s * (1 / 2) := mul_le_mul_of_nonneg_left hclose (two_pow_pos_rat s).le
      _ = 2 ^ s / 2 := by ring

/-! ### What rounding does to a quotient of units -/

namespace RoundsTo

variable {q q' : Rat} {s k s' k' : Nat}

theorem units_eq (h : RoundsTo q s k) : units (s * 2 ^ 52 + k) = k * 2 ^ s :=
  units_add h.le_top h.low_or

theorem grid_le (h : RoundsTo q s k) (hq : q < 2 ^ (53 + s')) : s ≤ s' := by
  rcases h.low_or_le with rfl | hle
  · exact Nat.zero_le _
  · have := (pow_lt_pow_iff_right₀ (by norm_num : (1 : Rat) < 2)).mp (hle.trans_lt hq)
    omega

theorem rank_mono (h : RoundsTo q s k) (h' : RoundsTo q' s' k') (hq : q < q') :
    s * 2 ^ 52 + k ≤ s' * 2 ^ 52 + k' := by
  have htop := h.le_top
  have hlow := h'.low_or
  have hgrid : s ≤ s' := h.grid_le (hq.trans h'.lt_top)
  rcases hgrid.lt_or_eq with hlt | rfl
  · omega
  · suffices k ≤ k' by omega
    by_contra hk
    have hstep : ((k' : Rat) + 1) * 2 ^ s ≤ k * 2 ^ s :=
      mul_le_mul_of_nonneg_right (by exact_mod_cast Nat.lt_of_not_le hk) (two_pow_pos_rat s).le
    have hclose := (abs_le.mp h.close).2
    have hclose' := (abs_le.mp h'.close).1
    linarith

/-- Half a step of a coarser grid is an upper bound for how far rounding goes. -/
theorem close_of_lt (h : RoundsTo q s k) (hq : q < 2 ^ (53 + s')) : |k * 2 ^ s - q| ≤ 2 ^ s' / 2 := by
  have hpow : (2 : Rat) ^ s ≤ 2 ^ s' := pow_le_pow_right₀ (by norm_num) (h.grid_le hq)
  have hclose := h.close
  linarith

theorem close_of_le (h : RoundsTo q s k) (hq : 2 ^ 52 ≤ q) : |k * 2 ^ s - q| ≤ q / 2 ^ 53 := by
  refine h.close.trans ?_
  have hle : (2 : Rat) ^ (52 + s) ≤ q := by
    rcases h.low_or_le with rfl | hle
    · exact hq
    · exact hle
  rw [pow_add] at hle
  linarith

/-- A number of units is left where it is. -/
theorem eq_of_units {r : Nat} (h : RoundsTo (units r) s k) : s * 2 ^ 52 + k = r := by
  refine units_strictMono.injective (h.units_eq.trans ?_)
  have hdvd : 2 ^ s ∣ units r := by
    rcases h.low_or_le with rfl | hle
    · exact one_dvd _
    · exact two_pow_dvd_units (by exact_mod_cast hle)
  obtain ⟨m, hm⟩ := hdvd
  rw [hm, Nat.mul_comm]
  congr 1
  have hclose := h.close
  have hpos := two_pow_pos_rat s
  rw [hm, Nat.cast_mul, Nat.cast_pow, Nat.cast_ofNat, mul_comm, ← mul_sub, abs_mul, abs_of_pos hpos,
    div_eq_mul_one_div] at hclose
  have hhalf : |(k : Rat) - m| ≤ 1 / 2 := le_of_mul_le_mul_left hclose hpos
  have hint : |(k : Int) - m| < 1 := by
    have : |(k : Rat) - m| < 1 := hhalf.trans_lt (by norm_num)
    exact_mod_cast this
  have := Int.abs_lt_one_iff.mp hint
  omega

end RoundsTo

/-! ### Rounding a rational -/

theorem nearest_roundsTo {x : Rat} (hx : 0 ≤ x) :
    ∃ s k, RoundsTo (x * 2 ^ 1074) s k ∧ nearest x = min infinityRank (s * 2 ^ 52 + k) := by
  have hnum : ((x.num.toNat : Nat) : Rat) = x.num := by
    exact_mod_cast Int.toNat_of_nonneg (Rat.num_nonneg.mpr hx)
  refine nearestToUnits_roundsTo x.den_pos ?_
  simp only [Nat.cast_mul, Nat.cast_pow, Nat.cast_ofNat, hnum]
  rw [mul_div_right_comm, Rat.num_div_den]

theorem nearest_le_infinityRank (x : Rat) : nearest x ≤ infinityRank :=
  Nat.min_le_left _ _

/-- **Rounding keeps the order.** -/
theorem nearest_mono {x y : Rat} (hx : 0 ≤ x) (hxy : x ≤ y) : nearest x ≤ nearest y := by
  rcases hxy.lt_or_eq with hlt | rfl
  · obtain ⟨s, k, h, hnearest⟩ := nearest_roundsTo hx
    obtain ⟨s', k', h', hnearest'⟩ := nearest_roundsTo (hx.trans hxy)
    rw [hnearest, hnearest']
    exact min_le_min_left _ (h.rank_mono h' (mul_lt_mul_of_pos_right hlt (two_pow_pos_rat 1074)))
  · exact le_rfl

/-- **Numbers are left where they are.** -/
theorem nearest_value {r : Nat} (hr : r ≤ infinityRank) : nearest (value r) = r := by
  obtain ⟨s, k, h, hnearest⟩ := nearest_roundsTo (value_nonneg r)
  have hunits : value r * 2 ^ 1074 = units r := by
    rw [value_eq]
    exact div_mul_cancel₀ _ (two_pow_pos_rat 1074).ne'
  rw [hunits] at h
  rw [hnearest, h.eq_of_units, Nat.min_eq_right hr]

/-- What has at most 53 leading binary places is a number. -/
theorem value_nearest_div_two_pow {k s : Nat} (hk : k < 2 ^ 53) (hs : s ≤ 1074) :
    value (nearest (k / 2 ^ s)) = k / 2 ^ s := by
  obtain ⟨r, hr, hunits⟩ := exists_units_eq (1074 - s) hk
  have hvalue : value r = k / 2 ^ s := by
    have hsplit : (2 : Rat) ^ 1074 = 2 ^ (1074 - s) * 2 ^ s := by
      rw [← pow_add, Nat.sub_add_cancel (by omega)]
    have hpos := two_pow_pos_rat (1074 - s)
    rw [value_eq, hunits, Nat.cast_mul, Nat.cast_pow, Nat.cast_ofNat, hsplit, mul_comm (k : Rat),
      mul_div_mul_left _ _ hpos.ne']
  have hle : r ≤ infinityRank := by
    rw [infinityRank]
    omega
  rw [← hvalue, nearest_value hle]

/-- Below `2^1023` nothing is rounded to infinity. -/
theorem nearest_roundsTo_of_lt {x : Rat} (hx : 0 ≤ x) (hlt : x < 2 ^ 1023) :
    ∃ s k, RoundsTo (x * 2 ^ 1074) s k ∧ nearest x = s * 2 ^ 52 + k ∧ nearest x < infinityRank := by
  obtain ⟨s, k, h, hnearest⟩ := nearest_roundsTo hx
  have hq : x * 2 ^ 1074 < 2 ^ (53 + 2044) := by
    calc x * 2 ^ 1074 < 2 ^ 1023 * 2 ^ 1074 := mul_lt_mul_of_pos_right hlt (two_pow_pos_rat 1074)
      _ = 2 ^ (53 + 2044) := by rw [show 53 + 2044 = 1023 + 1074 from rfl, pow_add]
  have hgrid := h.grid_le hq
  have htop := h.le_top
  have hrank : s * 2 ^ 52 + k < infinityRank := by
    rw [infinityRank]
    omega
  rw [Nat.min_eq_right hrank.le] at hnearest
  exact ⟨s, k, h, hnearest, hnearest ▸ hrank⟩

theorem abs_value_nearest_sub {x : Rat} {s k : Nat} (h : RoundsTo (x * 2 ^ 1074) s k)
    (hnearest : nearest x = s * 2 ^ 52 + k) :
    |value (nearest x) - x| = |(k : Rat) * 2 ^ s - x * 2 ^ 1074| / 2 ^ 1074 := by
  have hunits := h.units_eq
  have hpos := two_pow_pos_rat 1074
  rw [hnearest, value_eq, hunits, Nat.cast_mul, Nat.cast_pow, Nat.cast_ofNat]
  generalize (2 : Rat) ^ 1074 = u at *
  rw [← abs_of_pos hpos, ← abs_div, abs_of_pos hpos, sub_div, mul_div_cancel_right₀ x hpos.ne']

/-- Rounding moves a number of ordinary size by at most `2^-53` of its size. -/
theorem abs_value_nearest_sub_le {x : Rat} (hlow : 1 ≤ x * 2 ^ 1022) (hhigh : x < 2 ^ 1023) :
    |value (nearest x) - x| ≤ x / 2 ^ 53 := by
  have hx : 0 ≤ x := by
    by_contra hneg
    have hlt := mul_neg_of_neg_of_pos (not_le.mp hneg) (two_pow_pos_rat 1022)
    exact absurd (hlow.trans_lt hlt) (by norm_num)
  obtain ⟨s, k, h, hnearest, _⟩ := nearest_roundsTo_of_lt hx hhigh
  have hq : 2 ^ 52 ≤ x * 2 ^ 1074 := by
    calc (2 : Rat) ^ 52 = 1 * 2 ^ 52 := (one_mul _).symm
      _ ≤ x * 2 ^ 1022 * 2 ^ 52 := mul_le_mul_of_nonneg_right hlow (two_pow_pos_rat 52).le
      _ = x * 2 ^ 1074 := by rw [show 1074 = 1022 + 52 from rfl, pow_add, mul_assoc]
  rw [abs_value_nearest_sub h hnearest, div_le_iff₀ (two_pow_pos_rat 1074), div_mul_eq_mul_div]
  exact h.close_of_le hq

/-- Below `2^n` rounding moves a number by at most `2^(n-54)`. -/
theorem abs_value_nearest_sub_le_of_lt {x : Rat} {n : Nat} (hx : 0 ≤ x) (hn : n ≤ 1023) (hlt : x < 2 ^ n) :
    |value (nearest x) - x| ≤ 2 ^ n / 2 ^ 54 := by
  obtain ⟨s, k, h, hnearest, _⟩ := nearest_roundsTo_of_lt hx
    (hlt.trans_le (pow_le_pow_right₀ (by norm_num) hn))
  have hq : x * 2 ^ 1074 < 2 ^ (53 + (n + 1021)) := by
    calc x * 2 ^ 1074 < 2 ^ n * 2 ^ 1074 := mul_lt_mul_of_pos_right hlt (two_pow_pos_rat 1074)
      _ = 2 ^ (53 + (n + 1021)) := by rw [show 53 + (n + 1021) = n + 1074 by omega, pow_add]
  rw [abs_value_nearest_sub h hnearest, div_le_iff₀ (two_pow_pos_rat 1074)]
  refine (h.close_of_lt hq).trans_eq ?_
  rw [show 1074 = 54 + 1020 from rfl, pow_add 2 54 1020, pow_add 2 n 1021, pow_succ 2 1020]
  generalize (2 : Rat) ^ 1020 = u
  ring

end Binary64
end Reckoner
