import Mathlib.Data.Nat.Factorization.Basic
import Reckoner.Number.Shortest
import Reckoner.Proofs.Number.Numeral
import Reckoner.Proofs.Number.Rounding

/-!
# The shortest decimal

On each grid of powers of ten the search looks at the two neighbours of a number, and that is enough: if any
multiple of the step reads back as the number, one of the neighbours does (`exists_onGrid?`). On the finest grid
one does (`rank_finest`), so the shortest decimal always reads back (`rank_shortest`) and lies on the coarsest
grid that can have it (`shortest_spec`). Rounding keeps counts of up to fifteen digits apart
(`rank_lt_rank_succ`), so there the shortest decimal is the only one on its grid, and a decimal of up to fifteen
digits comes back as it was (`shortest_rank`).

Of any number, however many digits it takes, the shortest decimal does not end in a zero (`digits_shortest_mod`), and
shortest decimals are in the order of their numbers (`value_shortest_mono`).
-/

namespace Reckoner.Decimal

open Binary64

/-! ### One grid -/

theorem rank_mono {m n : Nat} (e : Int) (h : m ≤ n) : rank ⟨m, e⟩ ≤ rank ⟨n, e⟩ :=
  nearest_mono (value_nonneg _) (value_mono e h)

theorem rank_le_infinityRank (d : Decimal) : d.rank ≤ infinityRank :=
  nearest_le_infinityRank _

theorem onGrid?_cases (r : Nat) (e : Int) :
    (∃ n ≤ (Binary64.value r / powerOfTen e).floor.toNat + 1, onGrid? r e = some ⟨n, e⟩ ∧ rank ⟨n, e⟩ = r) ∨
      onGrid? r e = none ∧ rank ⟨(Binary64.value r / powerOfTen e).floor.toNat, e⟩ ≠ r ∧
        rank ⟨(Binary64.value r / powerOfTen e).floor.toNat + 1, e⟩ ≠ r := by
  -- opened before it is applied, and with its ranks as variables, or the kernel evaluates them to decide the match
  have hdef : onGrid? = onGrid? := rfl
  conv at hdef => rhs; delta onGrid?
  rw [hdef]
  generalize rank = f
  beta_reduce
  generalize Binary64.value r / powerOfTen e = steps
  extract_lets _ below above
  cases hbelow : (f below == r) <;> cases habove : (f above == r)
  · exact Or.inr ⟨rfl, beq_eq_false_iff_ne.mp hbelow, beq_eq_false_iff_ne.mp habove⟩
  · exact Or.inl ⟨_, le_rfl, rfl, beq_iff_eq.mp habove⟩
  · exact Or.inl ⟨_, Nat.le_succ _, rfl, beq_iff_eq.mp hbelow⟩
  · by_cases hhalf : steps - below.digits < mkRat 1 2
    · exact Or.inl ⟨_, Nat.le_succ _, if_pos hhalf, beq_iff_eq.mp hbelow⟩
    · exact Or.inl ⟨_, le_rfl, if_neg hhalf, beq_iff_eq.mp habove⟩

theorem eq_of_onGrid? {r : Nat} {e : Int} {d : Decimal} (h : onGrid? r e = some d) :
    d.rank = r ∧ d.exponent = e ∧ d.digits ≤ (Binary64.value r / powerOfTen e).floor.toNat + 1 := by
  rcases onGrid?_cases r e with ⟨n, hle, hn, hr⟩ | ⟨hnone, _, _⟩
  · rw [hn, Option.some.injEq] at h
    rw [← h]
    exact ⟨hr, rfl, hle⟩
  · rw [hnone] at h
    cases h

theorem cast_toNat_floor {x : Rat} (hx : 0 ≤ x) : ((x.floor.toNat : Nat) : Rat) = (x.floor : Rat) := by
  exact_mod_cast Int.toNat_of_nonneg (Rat.le_floor_iff.mpr (by exact_mod_cast hx))

/-- The two neighbours of a number on a grid. -/
theorem neighbours (r : Nat) (e : Int) :
    value ⟨(Binary64.value r / powerOfTen e).floor.toNat, e⟩ ≤ Binary64.value r ∧
      Binary64.value r ≤ value ⟨(Binary64.value r / powerOfTen e).floor.toNat + 1, e⟩ := by
  have hpos := powerOfTen_pos e
  have hsteps : 0 ≤ Binary64.value r / powerOfTen e := div_nonneg (Binary64.value_nonneg r) hpos.le
  have hfloor := cast_toNat_floor hsteps
  constructor
  · rw [value, ← le_div_iff₀ hpos, hfloor]
    exact Rat.floor_le _
  · rw [value, ← div_le_iff₀ hpos, Nat.cast_add, Nat.cast_one, hfloor]
    exact_mod_cast (Rat.lt_floor_add_one _).le

/-- A grid has a decimal for a number as soon as any multiple of its step reads back as it. -/
theorem exists_onGrid? {r n : Nat} {e : Int} (h : rank ⟨n, e⟩ = r) :
    ∃ m, onGrid? r e = some ⟨m, e⟩ ∧ rank ⟨m, e⟩ = r := by
  rcases onGrid?_cases r e with ⟨m, _, hsome⟩ | ⟨_, hbelow, habove⟩
  · exact ⟨m, hsome⟩
  · exfalso
    obtain ⟨hle, hge⟩ := neighbours r e
    have hr : nearest (Binary64.value r) = r := nearest_value (h ▸ rank_le_infinityRank _)
    have hle := (nearest_mono (value_nonneg _) hle).trans_eq hr
    have hge := hr.symm.trans_le (nearest_mono (Binary64.value_nonneg r) hge)
    generalize (Binary64.value r / powerOfTen e).floor.toNat = b at *
    by_cases hn : n ≤ b
    · exact hbelow (hle.antisymm (h.symm.trans_le (rank_mono e hn)))
    · exact habove (((rank_mono e (Nat.lt_of_not_le hn)).trans_eq h).antisymm hge)

/-- The finest grid has every number on it: a power of two is a product of powers of ten and five. -/
theorem rank_finest {r : Nat} (hr : r ≤ infinityRank) : rank ⟨units r * 5 ^ 1074, finest⟩ = r := by
  have hvalue : value ⟨units r * 5 ^ 1074, finest⟩ = Binary64.value r := by
    have hten : (10 : Rat) ^ 1074 = 5 ^ 1074 * 2 ^ 1074 := by
      rw [← mul_pow]
      norm_num only
    have hfive : (5 : Rat) ^ 1074 ≠ 0 := pow_ne_zero _ (by norm_num)
    rw [value, powerOfTen_eq, Binary64.value_eq, finest, zpow_neg, Nat.cast_mul, Nat.cast_pow, Nat.cast_ofNat,
      zpow_ofNat, hten, ← div_eq_mul_inv, mul_comm (units r : Rat), mul_div_mul_left _ _ hfive]
  rw [rank, hvalue, nearest_value hr]

/-! ### From coarse to fine -/

theorem findSome?_range {α : Type} {f : Nat → Option α} {m i : Nat} {a : α} (hi : i < m) (ha : f i = some a)
    (hnone : ∀ j < i, f j = none) : (List.range m).findSome? f = some a := by
  induction m with
  | zero => cases hi
  | succ m ih =>
    rw [List.range_succ, List.findSome?_append]
    rcases Nat.lt_succ_iff_lt_or_eq.mp hi with hlt | rfl
    · rw [ih hlt]
      rfl
    · have hrange : (List.range i).findSome? f = none := by
        rw [List.findSome?_eq_none_iff]
        intro j hj
        exact hnone j (List.mem_range.mp hj)
      rw [hrange, List.findSome?_singleton, ha]
      rfl

theorem coarsest_nonneg (r : Nat) : 0 ≤ coarsest r := by
  rw [coarsest]
  split
  · exact le_rfl
  · exact Int.natCast_nonneg _

/-- The shortest decimal is on the coarsest grid that has one. -/
theorem shortest_spec {r : Nat} (hr : r ≤ infinityRank) :
    ∃ e ≤ coarsest r, onGrid? r e = some (shortest r) ∧
      ∀ e', e < e' → e' ≤ coarsest r → onGrid? r e' = none := by
  have hfinest : finest ≤ coarsest r := le_trans (by decide) (coarsest_nonneg r)
  have hshortest : ∀ i < (coarsest r - finest).toNat + 1, ∀ d, onGrid? r (coarsest r - (i : Nat)) = some d →
      (∀ j < i, onGrid? r (coarsest r - (j : Nat)) = none) → shortest r = d := by
    intro i hi d hd hnone
    have hfirst := findSome?_range (f := fun i : Nat => onGrid? r (coarsest r - i)) hi hd hnone
    simp only [shortest]
    rw [hfirst, Option.getD_some]
  generalize coarsest r = c at *
  have hlast : ∃ d, onGrid? r (c - ((c - finest).toNat : Nat)) = some d := by
    obtain ⟨m, hm, _⟩ := exists_onGrid? (rank_finest hr)
    rw [Int.toNat_of_nonneg (Int.sub_nonneg_of_le hfinest), Int.sub_sub_self]
    exact ⟨_, hm⟩
  classical
  have hex : ∃ i : Nat, ∃ d, onGrid? r (c - (i : Nat)) = some d := ⟨_, hlast⟩
  have hi : Nat.find hex ≤ (c - finest).toNat := Nat.find_min' hex hlast
  obtain ⟨d, hd⟩ := Nat.find_spec hex
  have hnone : ∀ j < Nat.find hex, onGrid? r (c - (j : Nat)) = none := by
    intro j hj
    exact Option.eq_none_iff_forall_ne_some.mpr fun d hd => Nat.find_min hex hj ⟨d, hd⟩
  generalize Nat.find hex = i at *
  refine ⟨c - i, Int.sub_le_self _ (Int.natCast_nonneg i), ?_, fun e' hlt hle => ?_⟩
  · rw [hshortest i (Nat.lt_succ_of_le hi) d hd hnone, hd]
  · have hj : c - ((c - e').toNat : Nat) = e' := by omega
    rw [← hj]
    exact hnone _ (by omega)

theorem rank_shortest {r : Nat} (hr : r ≤ infinityRank) : (shortest r).rank = r := by
  obtain ⟨e, _, h, _⟩ := shortest_spec hr
  exact (eq_of_onGrid? h).1

/-- No decimal that reads back is on a coarser grid, as far as the grids go. -/
theorem le_exponent_shortest {d : Decimal} (h : d.exponent ≤ coarsest d.rank) :
    d.exponent ≤ (shortest d.rank).exponent := by
  obtain ⟨e, _, hshortest, hnone⟩ := shortest_spec (rank_le_infinityRank d)
  rw [(eq_of_onGrid? hshortest).2.1]
  by_contra hlt
  obtain ⟨m, hm, _⟩ := exists_onGrid? (Eq.refl d.rank)
  rw [hnone d.exponent (not_le.mp hlt) h] at hm
  cases hm

theorem exponent_le_exponent_shortest {d : Decimal} (h : d.exponent ≤ 0) :
    d.exponent ≤ (shortest d.rank).exponent :=
  le_exponent_shortest (h.trans (coarsest_nonneg _))

theorem exponent_shortest_le {r : Nat} (hr : r ≤ infinityRank) : (shortest r).exponent ≤ coarsest r := by
  obtain ⟨e, hle, hshortest, _⟩ := shortest_spec hr
  rw [(eq_of_onGrid? hshortest).2.1]
  exact hle

/-! ### Fifteen digits -/

section OrdinarySize

variable {n : Nat} {e : Int} (hlow : -300 ≤ e) (hhigh : e ≤ 15)
include hlow hhigh

/-- Counts of up to fifteen digits are of ordinary size: rounding moves them by at most `2^-53` of it. -/
theorem abs_value_rank_sub_le (hpos : 0 < n) (hn : n ≤ 10 ^ 15) :
    |Binary64.value (rank ⟨n, e⟩) - value ⟨n, e⟩| ≤ value ⟨n, e⟩ / 2 ^ 53 := by
  have hkilo : (10 : Rat) ^ 3 ≤ 2 ^ 10 := by norm_num
  have hone : (1 : Rat) ≤ n := by exact_mod_cast hpos
  have htop : (n : Rat) ≤ 10 ^ 15 := by exact_mod_cast hn
  have hten : ∀ a b : Int, a ≤ b → (10 : Rat) ^ a ≤ 10 ^ b := fun a b h =>
    zpow_le_zpow_right₀ (by norm_num) h
  refine abs_value_nearest_sub_le ?_ ?_
  · have hvalue : (10 : Rat) ^ (-300 : Int) ≤ value ⟨n, e⟩ := by
      rw [value, powerOfTen_eq]
      calc (10 : Rat) ^ (-300 : Int) ≤ 10 ^ e := hten _ _ hlow
        _ = 1 * 10 ^ e := (one_mul _).symm
        _ ≤ n * 10 ^ e := mul_le_mul_of_nonneg_right hone (by positivity)
    have hscale : ((10 : Rat) ^ 3) ^ 100 ≤ 2 ^ 1022 := by
      calc ((10 : Rat) ^ 3) ^ 100 ≤ (2 ^ 10) ^ 100 := pow_le_pow_left₀ (by norm_num) hkilo 100
        _ = 2 ^ 1000 := by rw [← pow_mul]
        _ ≤ 2 ^ 1022 := pow_le_pow_right₀ (by norm_num) (by norm_num)
    calc (1 : Rat) = 10 ^ (-300 : Int) * (10 ^ 3) ^ 100 := by
          rw [← pow_mul, zpow_neg, zpow_ofNat]
          exact (inv_mul_cancel₀ (by positivity)).symm
      _ ≤ value ⟨n, e⟩ * 2 ^ 1022 := mul_le_mul hvalue hscale (by positivity) (value_nonneg _)
  · calc value ⟨n, e⟩ ≤ 10 ^ 15 * 10 ^ (15 : Int) := by
          rw [value, powerOfTen_eq]
          exact mul_le_mul htop (hten _ _ hhigh) (by positivity) (by positivity)
      _ = (10 ^ 3) ^ 10 := by norm_num
      _ ≤ (2 ^ 10) ^ 10 := pow_le_pow_left₀ (by norm_num) hkilo 10
      _ < 2 ^ 1023 := by
          rw [← pow_mul]
          exact pow_lt_pow_right₀ (by norm_num) (by norm_num)

omit hlow hhigh in
theorem rank_zero : rank ⟨0, e⟩ = 0 := by
  have hzero : value ⟨0, e⟩ = Binary64.value 0 := by
    rw [value, Nat.cast_zero, zero_mul, Binary64.value_zero]
  rw [rank, hzero, nearest_value (Nat.zero_le _)]

theorem rank_lt_rank_succ (hn : n < 10 ^ 15) : rank ⟨n, e⟩ < rank ⟨n + 1, e⟩ := by
  by_contra hge
  have hle := Binary64.value_strictMono.monotone (Nat.le_of_not_lt hge)
  have habove := (abs_le.mp (abs_value_rank_sub_le hlow hhigh (Nat.succ_pos n) hn)).1
  have hbelow : Binary64.value (rank ⟨n, e⟩) ≤ value ⟨n, e⟩ + value ⟨n, e⟩ / 2 ^ 53 := by
    rcases Nat.eq_zero_or_pos n with rfl | hpos
    · rw [rank_zero, Binary64.value_zero, value, Nat.cast_zero, zero_mul, zero_div, add_zero]
    · have := (abs_le.mp (abs_value_rank_sub_le hlow hhigh hpos hn.le)).2
      linarith
  have hn' : (n : Rat) + 1 ≤ 10 ^ 15 := by exact_mod_cast hn
  have hpos := powerOfTen_pos e
  have hmul := mul_le_mul_of_nonneg_right hn' hpos.le
  simp only [value, Nat.cast_succ, add_mul, one_mul] at habove hbelow hmul
  linarith

theorem eq_of_rank_eq {m : Nat} (hn : n < 10 ^ 15) (h : rank ⟨m, e⟩ = rank ⟨n, e⟩) : m = n := by
  rcases Nat.lt_trichotomy m n with hlt | heq | hgt
  · obtain ⟨k, rfl⟩ := Nat.exists_eq_add_of_lt hlt
    have hstep := rank_lt_rank_succ hlow hhigh (n := m + k) (by omega)
    exact absurd h ((rank_mono e (Nat.le_add_right m k)).trans_lt hstep).ne
  · exact heq
  · have hstep := rank_lt_rank_succ hlow hhigh hn
    exact absurd h (hstep.trans_le (rank_mono e hgt)).ne'

end OrdinarySize

/-- **Up to fifteen digits survive**: a decimal of so many digits, none of them a needless zero at its end, is
the shortest one of the number that it reads as. -/
theorem shortest_rank {d : Decimal} (hdigits : d.digits < 10 ^ 15) (hlow : -300 ≤ d.exponent)
    (hhigh : d.exponent ≤ 15) (hcoarsest : d.exponent ≤ coarsest d.rank)
    (hlast : d.digits % 10 ≠ 0 ∨ coarsest d.rank = d.exponent) : shortest d.rank = d := by
  have hle := le_exponent_shortest hcoarsest
  have hle' := exponent_shortest_le (rank_le_infinityRank d)
  have hrank := rank_shortest (rank_le_infinityRank d)
  obtain ⟨n, e⟩ := d
  generalize shortest (rank ⟨n, e⟩) = s at *
  obtain ⟨m, e'⟩ := s
  obtain ⟨j, rfl⟩ := Int.exists_add_of_le hle
  have hshift : 10 ^ j * m = n := by
    refine eq_of_rank_eq hlow hhigh hdigits ?_
    rw [← hrank, rank, rank, value_shift]
  have hj : j = 0 := by
    rcases hlast with hlast | hcoarsest
    · by_contra hne
      obtain ⟨i, rfl⟩ := Nat.exists_eq_succ_of_ne_zero hne
      rw [← hshift, Nat.pow_succ', Nat.mul_assoc, Nat.mul_mod_right] at hlast
      exact hlast rfl
    · have hle : e + (j : Int) ≤ e := hle'.trans_eq hcoarsest
      omega
  rw [hj, Nat.pow_zero, Nat.one_mul] at hshift
  rw [hj, hshift, Nat.cast_zero, Int.add_zero]

/-! ### Shown as written -/

theorem value_natCast (n k : Nat) : value ⟨n, k⟩ = ((10 ^ k * n : Nat) : Rat) := by
  rw [value, powerOfTen_eq, zpow_natCast, Nat.cast_mul, Nat.cast_pow, Nat.cast_ofNat, mul_comm]

theorem natCast_le_coarsest {n k : Nat} (hpos : 0 < n) (h : 10 ^ k * n < 2 ^ 53) :
    (k : Int) ≤ coarsest (rank ⟨n, k⟩) := by
  have hvalue : Binary64.value (rank ⟨n, k⟩) = ((10 ^ k * n : Nat) : Rat) := by
    have hread := value_nearest_div_two_pow (s := 0) h (Nat.zero_le _)
    rw [pow_zero, div_one] at hread
    rw [rank, value_natCast, hread]
  have hfloor : (Binary64.value (rank ⟨n, k⟩)).floor.toNat = 10 ^ k * n := by
    rw [hvalue, ← Int.cast_natCast, Rat.floor_intCast, Int.toNat_natCast]
  have hge : 10 ^ k * 1 ≤ 10 ^ k * n := Nat.mul_le_mul_left _ hpos
  have hpow : 0 < 10 ^ k := Nat.pow_pos (by norm_num)
  simp only [coarsest]
  rw [hfloor, if_neg (by omega), Nat.cast_le]
  by_contra hlt
  have hk : 0 < k := by omega
  have := (Nat.length_toDigits_le_iff (b := 10) (by norm_num) hk).mp (Nat.le_of_not_le hlt)
  omega

theorem coarsest_zero : coarsest 0 = 0 := by
  simp only [coarsest]
  rw [Binary64.value_zero, ← Int.cast_zero, Rat.floor_intCast]
  rfl

theorem shortest_zero : shortest 0 = ⟨0, 0⟩ := by
  have hcoarsest : coarsest (rank ⟨0, 0⟩) = 0 := by rw [rank_zero, coarsest_zero]
  have hshortest := shortest_rank (d := ⟨0, 0⟩) (by norm_num) (by norm_num) (by norm_num) hcoarsest.ge
    (Or.inr hcoarsest)
  rwa [rank_zero] at hshortest

/-- **A decimal of up to fifteen digits is shown as it is written**, unless it ends in a needless zero. -/
theorem inPlace_shortest_rank {n k : Nat} (hn : n < 10 ^ 15) (hk : k ≤ 300) (hlast : k = 0 ∨ n % 10 ≠ 0) :
    (shortest (rank ⟨n, -(k : Int)⟩)).inPlace = inPlace ⟨n, -(k : Int)⟩ := by
  by_cases hmod : n % 10 = 0
  · obtain rfl : k = 0 := hlast.resolve_right (not_not_intro hmod)
    rw [Nat.cast_zero, neg_zero]
    rcases Nat.eq_zero_or_pos n with rfl | hpos
    · rw [rank_zero, shortest_zero]
    · obtain ⟨j, m, hm, rfl⟩ := Nat.exists_eq_pow_mul_and_not_dvd hpos.ne' 10 (by norm_num)
      have hmpos : 0 < m := Nat.pos_of_ne_zero fun h => hm (h ▸ dvd_zero 10)
      have hpow : 10 ^ j < 10 ^ 15 := (Nat.le_mul_of_pos_right _ hmpos).trans_lt hn
      have hj : j < 15 := (Nat.pow_lt_pow_iff_right (by norm_num)).mp hpow
      have hm' : m < 10 ^ 15 := (Nat.le_mul_of_pos_left m (Nat.pow_pos (by norm_num))).trans_lt hn
      have hrank : rank ⟨10 ^ j * m, 0⟩ = rank ⟨m, j⟩ := by
        rw [rank, rank, value_shift, zero_add]
      rw [hrank, shortest_rank (d := ⟨m, j⟩) hm' (by dsimp only; omega) (by dsimp only; omega)
        (natCast_le_coarsest hmpos (hn.trans (by norm_num))) (Or.inl (by dsimp only; omega)), ← inPlace_shift hmpos]
      rfl
  · have hcoarsest : -(k : Int) ≤ coarsest (rank ⟨n, -(k : Int)⟩) :=
      (neg_nonpos.mpr (Int.natCast_nonneg k)).trans (coarsest_nonneg _)
    rw [shortest_rank (d := ⟨n, -(k : Int)⟩) hn (by dsimp only; omega) (by dsimp only; omega) hcoarsest
      (Or.inl hmod)]

/-! ### Any number of digits -/

theorem digits_shortest_pos {r : Nat} (hpos : 0 < r) (hr : r ≤ infinityRank) : 0 < (shortest r).digits := by
  by_contra hzero
  have hrank := rank_shortest hr
  have hshortest : shortest r = ⟨0, (shortest r).exponent⟩ := by
    rw [← Nat.eq_zero_of_not_pos hzero]
  rw [hshortest, rank_zero] at hrank
  omega

theorem value_lt_powerOfTen_coarsest (r : Nat) : Binary64.value r < powerOfTen (coarsest r) := by
  have hlt : Binary64.value r < (((Binary64.value r).floor.toNat + 1 : Nat) : Rat) := by
    rw [Nat.cast_succ, cast_toNat_floor (Binary64.value_nonneg r)]
    exact_mod_cast Rat.lt_floor_add_one (Binary64.value r)
  rw [coarsest, powerOfTen_eq]
  generalize (Binary64.value r).floor.toNat = whole at *
  split_ifs with hzero
  · rw [hzero] at hlt
    rw [zpow_zero]
    exact hlt.trans_eq (by norm_num)
  · rw [zpow_natCast]
    exact hlt.trans_le (by exact_mod_cast Nat.succ_le_of_lt (lt_ten_pow_length_toDigits whole))

/-- The last digit of a shortest decimal is not zero: without it the decimal would be on a coarser grid. -/
theorem digits_shortest_mod {r : Nat} (hpos : 0 < r) (hr : r ≤ infinityRank) : (shortest r).digits % 10 ≠ 0 := by
  intro hmod
  have hdigits := digits_shortest_pos hpos hr
  rcases (exponent_shortest_le hr).lt_or_eq with hlt | heq
  · -- the same decimal on the next coarser grid
    have hvalue : value ⟨(shortest r).digits / 10, (shortest r).exponent + 1⟩ = (shortest r).value := by
      rw [← Nat.cast_one, ← value_shift, pow_one, Nat.mul_div_cancel' (Nat.dvd_of_mod_eq_zero hmod)]
    have hrank : rank ⟨(shortest r).digits / 10, (shortest r).exponent + 1⟩ = r := by
      rw [rank, hvalue]
      exact rank_shortest hr
    have hle := le_exponent_shortest (d := ⟨(shortest r).digits / 10, (shortest r).exponent + 1⟩)
      (by rw [hrank]; exact hlt)
    rw [hrank] at hle
    exact absurd hle (not_le.mpr (Int.lt_succ _))
  · -- on the coarsest grid a number lies below the first step
    obtain ⟨e, _, hshortest, _⟩ := shortest_spec hr
    obtain ⟨_, hexp, hone⟩ := eq_of_onGrid? hshortest
    have hsteps : (Binary64.value r / powerOfTen e).floor.toNat = 0 := by
      rw [← hexp, heq]
      have hlt := (div_lt_one (powerOfTen_pos _)).mpr (value_lt_powerOfTen_coarsest r)
      have hfloor : (Binary64.value r / powerOfTen (coarsest r)).floor < 1 := Rat.floor_lt_iff.mpr (by exact_mod_cast hlt)
      omega
    rw [hsteps] at hone
    omega

/-- A number that is not below a power of ten is not named by a decimal below it. -/
theorem powerOfTen_le_value_shortest {r : Nat} {e : Int} (hr : r ≤ infinityRank)
    (h : powerOfTen e ≤ Binary64.value r) : powerOfTen e ≤ (shortest r).value := by
  by_contra hlt
  have hone : value ⟨1, e⟩ = powerOfTen e := by rw [value, Nat.cast_one, one_mul]
  -- the power of ten itself reads as the number then, and there is no finer grid to go to
  have hle : r ≤ rank ⟨1, e⟩ := by
    rw [← rank_shortest hr, rank, rank, hone]
    exact nearest_mono (value_nonneg _) (not_le.mp hlt).le
  have hge : rank ⟨1, e⟩ ≤ r := by
    rw [← nearest_value hr, rank, hone]
    exact nearest_mono (powerOfTen_pos e).le h
  have hrank : rank ⟨1, e⟩ = r := hge.antisymm hle
  have hpos : 0 < r := by
    by_contra hzero
    rw [Nat.eq_zero_of_not_pos hzero, Binary64.value_zero] at h
    exact absurd (powerOfTen_pos e) (not_lt.mpr h)
  have hcoarsest : e ≤ coarsest r := by
    have hpow := h.trans_lt (value_lt_powerOfTen_coarsest r)
    rw [powerOfTen_eq, powerOfTen_eq] at hpow
    exact ((zpow_lt_zpow_iff_right₀ (by norm_num)).mp hpow).le
  have hexp : e ≤ (shortest r).exponent := by
    have hexp := le_exponent_shortest (d := ⟨1, e⟩) (by rw [hrank]; exact hcoarsest)
    rwa [hrank] at hexp
  refine hlt ?_
  calc powerOfTen e ≤ powerOfTen (shortest r).exponent := by
        rw [powerOfTen_eq, powerOfTen_eq]
        exact zpow_le_zpow_right₀ (by norm_num) hexp
    _ = 1 * powerOfTen (shortest r).exponent := (one_mul _).symm
    _ ≤ (shortest r).value :=
        mul_le_mul_of_nonneg_right (by exact_mod_cast digits_shortest_pos hpos hr) (powerOfTen_pos _).le

/-- **Shortest decimals are in the order of the numbers that they name.** -/
theorem value_shortest_mono {r r' : Nat} (h : r ≤ r') (hr' : r' ≤ infinityRank) :
    (shortest r).value ≤ (shortest r').value := by
  by_contra hlt
  have hrank := rank_shortest (h.trans hr')
  have hrank' := rank_shortest hr'
  have hmono : (shortest r').rank ≤ (shortest r).rank := nearest_mono (value_nonneg _) (not_le.mp hlt).le
  obtain rfl : r = r' := by omega
  exact hlt le_rfl

end Reckoner.Decimal
