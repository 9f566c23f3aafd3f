import Reckoner.Number.Answer
import Reckoner.Proofs.Number.Rounding

/-!
# Rounding to places

Scaling a number up, adding a half and rounding down are each rounded themselves. For a number close to a count
of units of the last place this still finds the count (`inPlaces_eq`), as long as the numbers of the size of
the count are at most half a unit apart: below `2^51` a quarter of a unit is left over, and from there on the
scaled number has one binary place (`exists_round_eq_div`) and cannot lie above the count at all.
Whatever the size, the count keeps the order of the numbers (`inPlaces_mono`).
-/

namespace Reckoner

namespace Binary64

/-! ### Rounding with its sign -/

theorem round_of_nonneg {x : Rat} (hx : 0 ≤ x) : round x = value (nearest x) := by
  rw [round, if_neg (not_lt.mpr hx)]

theorem round_nonneg {x : Rat} (hx : 0 ≤ x) : 0 ≤ round x := by
  rw [round_of_nonneg hx]
  exact value_nonneg _

/-- What keeps the order of sizes keeps the order of numbers, if it treats a sign as a sign. -/
theorem monotone_signed {f : Rat → Rat} (hnonneg : ∀ x, 0 ≤ f x) (hmono : ∀ x y, 0 ≤ x → x ≤ y → f x ≤ f y) :
    Monotone fun x => if x < 0 then -f (-x) else f x := by
  intro x y hxy
  dsimp only
  split_ifs with hx hy hy
  · exact neg_le_neg (hmono _ _ (neg_nonneg.mpr hy.le) (neg_le_neg hxy))
  · exact (neg_nonpos.mpr (hnonneg _)).trans (hnonneg _)
  · exact absurd (hxy.trans_lt hy) hx
  · exact hmono _ _ (not_lt.mp hx) hxy

theorem round_mono : Monotone round := by
  have hmono : Monotone fun x => if x < 0 then -value (nearest (-x)) else value (nearest x) :=
    monotone_signed (f := fun x => value (nearest x)) (fun _ => value_nonneg _) fun _ _ hx hxy =>
      value_strictMono.monotone (nearest_mono hx hxy)
  intro x y hxy
  rw [round, round]
  exact hmono hxy

theorem round_div_two_pow {k s : Nat} (hk : k < 2 ^ 53) (hs : s ≤ 1074) : round (k / 2 ^ s) = k / 2 ^ s := by
  rw [round_of_nonneg (by positivity), value_nearest_div_two_pow hk hs]

/-- A large number has few binary places. -/
theorem exists_round_eq_div {x : Rat} {s : Nat} (hx : 0 ≤ x) (hs : s ≤ 1074) (h : 2 ^ 52 ≤ round x * 2 ^ s) :
    ∃ m : Nat, round x = m / 2 ^ s := by
  rw [round_of_nonneg hx] at h ⊢
  have hsplit : (2 : Rat) ^ 1074 = 2 ^ (1074 - s) * 2 ^ s := by
    rw [← pow_add, Nat.sub_add_cancel hs]
  have hpos := two_pow_pos_rat (1074 - s)
  have hpos' := two_pow_pos_rat s
  rw [value_eq, hsplit] at h ⊢
  have hunits : 2 ^ (52 + (1074 - s)) ≤ units (nearest x) := by
    rw [div_mul_eq_mul_div, mul_div_mul_right _ _ hpos'.ne', le_div_iff₀ hpos, ← pow_add] at h
    exact_mod_cast h
  obtain ⟨m, hm⟩ := two_pow_dvd_units hunits
  refine ⟨m, ?_⟩
  rw [hm, Nat.cast_mul, Nat.cast_pow, Nat.cast_ofNat, mul_div_mul_left _ _ hpos.ne']

end Binary64

namespace Answer

open Binary64

/-! ### Answers by size -/

theorem roundingLimit_lt_exponentLimit : roundingLimit < exponentLimit := by
  decide +kernel

section

variable {r : Nat} (negative : Bool)

theorem ofRank_of_exponentLimit_le (h : exponentLimit ≤ value r) :
    ofRank negative r = .scientific negative (Decimal.shortest r) := by
  simp only [ofRank]
  rw [if_pos h]

theorem ofRank_of_roundingLimit_le (h : roundingLimit ≤ value r) (hlt : value r < exponentLimit) :
    ofRank negative r = .inPlace negative (Decimal.shortest r) := by
  simp only [ofRank]
  rw [if_neg (not_le.mpr hlt), if_pos h]

theorem ofRank_of_lt_roundingLimit (h : value r < roundingLimit) :
    ofRank negative r = .inPlace (decide (inPlaces (signed negative (value r)) < 0))
      (Decimal.shortest (nearest (mkRat (inPlaces (signed negative (value r))).natAbs (10 ^ places)))) := by
  simp only [ofRank]
  rw [if_neg (not_le.mpr (h.trans roundingLimit_lt_exponentLimit)), if_neg (not_le.mpr h)]

end

/-! ### Counting places -/

variable {q y : Rat} {n : Nat}

/-- Scaling a number of few places leads close to its count of units of the last place, and not above the count
where the numbers are half a unit apart. -/
theorem round_near (hq : 0 ≤ q) (hn : n < 2 ^ 52) (hclose : |q - n| < 3 / 20) :
    (n : Rat) ≤ Binary64.round q + 1 / 2 ∧
      (n < 2 ^ 51 ∧ Binary64.round q ≤ n + 1 / 4 ∨ Binary64.round q ≤ n) := by
  have hn' : (n : Rat) + 1 ≤ 2 ^ 52 := by exact_mod_cast hn
  obtain ⟨hbelow, habove⟩ := abs_lt.mp hclose
  have hround := abs_value_nearest_sub_le_of_lt (n := 52) hq (by norm_num) (by linarith)
  rw [← round_of_nonneg hq] at hround
  obtain ⟨hbelow', habove'⟩ := abs_le.mp hround
  refine ⟨by linarith, ?_⟩
  by_cases hsmall : n < 2 ^ 51
  · left
    have hquarter := round_div_two_pow (k := 4 * n + 1) (s := 2) (by omega) (by norm_num)
    have hmono : Binary64.round q ≤ Binary64.round (((4 * n + 1 : Nat) : Rat) / 2 ^ 2) := by
      refine round_mono ?_
      push_cast
      linarith
    rw [hquarter] at hmono
    push_cast at hmono
    exact ⟨hsmall, by linarith⟩
  · right
    by_contra hgt
    have hge : (2 : Rat) ^ 51 ≤ n := by exact_mod_cast Nat.le_of_not_lt hsmall
    obtain ⟨m, hm⟩ := exists_round_eq_div (s := 1) hq (by norm_num) (by linarith)
    rw [hm] at hgt habove'
    have hlt : 2 * n < m := by
      have : (2 : Rat) * n < m := by linarith
      exact_mod_cast this
    have hge' : (2 : Rat) * n + 1 ≤ m := by exact_mod_cast hlt
    linarith

/-- Half a unit more does not reach the next count. -/
theorem floor_round_add_half (hn : n < 2 ^ 52) (hlow : (n : Rat) ≤ y + 1 / 2)
    (hhigh : n < 2 ^ 51 ∧ y ≤ n + 1 / 4 ∨ y ≤ n) : (Binary64.round (y + 1 / 2)).floor = n := by
  have hcount := round_div_two_pow (k := n) (s := 0) (by omega) (by norm_num)
  rw [pow_zero, div_one] at hcount
  have hpos : (0 : Rat) ≤ n := Nat.cast_nonneg n
  have hge : (n : Rat) ≤ Binary64.round (y + 1 / 2) := by
    rw [← hcount]
    exact round_mono hlow
  have hlt : Binary64.round (y + 1 / 2) < n + 1 := by
    rcases hhigh with ⟨hsmall, hy⟩ | hy
    · have hbound := round_div_two_pow (k := 4 * n + 3) (s := 2) (by omega) (by norm_num)
      have hmono : Binary64.round (y + 1 / 2) ≤ Binary64.round (((4 * n + 3 : Nat) : Rat) / 2 ^ 2) := by
        refine round_mono ?_
        push_cast
        linarith
      rw [hbound] at hmono
      push_cast at hmono
      linarith
    · have hbound := round_div_two_pow (k := 2 * n + 1) (s := 1) (by omega) (by norm_num)
      have hmono : Binary64.round (y + 1 / 2) ≤ Binary64.round (((2 * n + 1 : Nat) : Rat) / 2 ^ 1) := by
        refine round_mono ?_
        push_cast
        linarith
      rw [hbound] at hmono
      push_cast at hmono
      linarith
  refine le_antisymm (Int.lt_add_one_iff.mp (Rat.floor_lt_iff.mpr ?_)) (Rat.le_floor_iff.mpr ?_)
  · exact_mod_cast hlt
  · exact_mod_cast hge

/-- A number close enough to a count of units of the last place has that many of them. -/
theorem inPlaces_eq {x : Rat} (hx : 0 ≤ x) (hn : n < 2 ^ 52)
    (hclose : |x * ((10 ^ places : Nat) : Rat) - n| < 3 / 20) : inPlaces x = n := by
  have hq : 0 ≤ x * ((10 ^ places : Nat) : Rat) := mul_nonneg hx (Nat.cast_nonneg _)
  obtain ⟨hlow, hhigh⟩ := round_near hq hn hclose
  have hhalf : mkRat 1 2 = 1 / 2 := by norm_num [Rat.mkRat_eq_div]
  rw [inPlaces, hhalf, floor_round_add_half hn hlow hhigh]

theorem inPlaces_zero : inPlaces 0 = 0 :=
  inPlaces_eq (n := 0) le_rfl (by norm_num) (by norm_num)

theorem inPlaces_nonneg {x : Rat} (hx : 0 ≤ x) : 0 ≤ inPlaces x := by
  have hhalf : (0 : Rat) ≤ mkRat 1 2 := by norm_num [Rat.mkRat_eq_div]
  have hscaled : 0 ≤ Binary64.round (x * ((10 ^ places : Nat) : Rat)) := round_nonneg (mul_nonneg hx (Nat.cast_nonneg _))
  rw [inPlaces, Rat.le_floor_iff, Int.cast_zero]
  exact round_nonneg (add_nonneg hscaled hhalf)

theorem inPlaces_mono {x y : Rat} (hxy : x ≤ y) : inPlaces x ≤ inPlaces y := by
  have hscaled : x * ((10 ^ places : Nat) : Rat) ≤ y * ((10 ^ places : Nat) : Rat) :=
    mul_le_mul_of_nonneg_right hxy (Nat.cast_nonneg _)
  have hhalf := add_le_add_left (Binary64.round_mono hscaled) (mkRat 1 2)
  exact Rat.le_floor_iff.mpr ((Rat.floor_le _).trans (Binary64.round_mono hhalf))

/-- The number from which on nothing is rounded to places has the count that it should have. -/
theorem inPlaces_roundingLimit : inPlaces roundingLimit = 10 ^ 22 ∧ inPlaces (-roundingLimit) = -10 ^ 22 := by
  decide +kernel

/-- **Below `2^28` the places of a number that was read are the places that were written.** -/
theorem inPlaces_value_nearest (h : (n : Rat) / ((10 ^ places : Nat) : Rat) < 2 ^ 28) :
    inPlaces (value (nearest (n / ((10 ^ places : Nat) : Rat)))) = n := by
  have hten : ((10 ^ places : Nat) : Rat) = 10 ^ 7 := by
    rw [places]
    norm_num
  have hpos : (0 : Rat) ≤ n / ((10 ^ places : Nat) : Rat) := div_nonneg (Nat.cast_nonneg _) (Nat.cast_nonneg _)
  have hread := abs_le.mp (abs_value_nearest_sub_le_of_lt (n := 28) hpos (by norm_num) h)
  have hsize : n < 2 ^ 52 := by
    rw [hten, div_lt_iff₀ (by norm_num)] at h
    have hlt : (n : Rat) < 2 ^ 52 := h.trans (by norm_num)
    exact_mod_cast hlt
  refine inPlaces_eq (value_nonneg _) hsize ?_
  rw [hten] at *
  generalize value (nearest ((n : Rat) / 10 ^ 7)) = x at *
  rw [abs_lt]
  constructor <;> linarith

end Answer
end Reckoner
