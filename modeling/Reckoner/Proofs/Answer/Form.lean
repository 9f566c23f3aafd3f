import Reckoner.Proofs.Evaluation.AnswerText
import Reckoner.Proofs.Number.Order
import Reckoner.Proofs.Number.Places
import Reckoner.Proofs.Number.Shortest

/-!
# What answers look like

The answer to a number names infinity, or has one digit in front of the point and an exponent from `10^21` on, or is
written in place with at most seven places (`exists_answerText_form`). No digit is needless: neither a zero in front
of a whole number nor one at the end of the places, and zero has no sign.

The last digit of a shortest decimal is not zero (`Decimal.digits_shortest_mod`), and its grid is not finer than any
grid that has the number. A number that was rounded to places is on the grid of `10^-7`, and a number from `10^15` on,
which is not rounded, on that of `10^-3`, since it is a number of eighths (`neg_three_le_exponent`).
-/

namespace Reckoner

/-! ### Written digits -/

/-- The digits of a whole number, with no needless zero in front. -/
structure IsWhole (digits : List Char) : Prop where
  ne_nil : digits ≠ []
  isDigit : ∀ c ∈ digits, c.isDigit = true
  eq_zero_of_head : digits.head? = some '0' → digits = ['0']

/-- The digits behind a point, the last of them not zero. -/
structure IsPlaces (digits : List Char) : Prop where
  isDigit : ∀ c ∈ digits, c.isDigit = true
  getLast_ne_zero : digits.getLast? ≠ some '0'

/-- A point and the digits behind it, or nothing if there are none. -/
def pointed (digits : List Char) : List Char :=
  if digits = [] then [] else '.' :: digits

/-- A size written in place: a whole number and at most seven places, not all of them zero. -/
structure InPlaceForm (size : List Char) : Prop where
  exists_parts : ∃ whole digits, size = whole ++ pointed digits ∧ IsWhole whole ∧ IsPlaces digits ∧
    digits.length ≤ Answer.places
  exists_nonzero : ∃ c ∈ size, c.isDigit = true ∧ c ≠ '0'

/-- A size written with an exponent: one digit that is not zero, places, and an exponent of at least 21. -/
def ScientificForm (size : List Char) : Prop :=
  ∃ first digits exponent, size = first :: pointed digits ++ 'e' :: '+' :: Nat.toDigits 10 exponent ∧
    first.isDigit = true ∧ first ≠ '0' ∧ IsPlaces digits ∧ 21 ≤ exponent

theorem pointed_of_ne_nil {digits : List Char} (h : digits ≠ []) : pointed digits = '.' :: digits :=
  if_neg h

theorem isPlaces_nil : IsPlaces [] :=
  ⟨fun _ h => (nomatch h), nofun⟩

theorem IsPlaces.of_append {front digits : List Char} (h : IsPlaces (front ++ digits)) : IsPlaces digits where
  isDigit c hc := h.isDigit c (List.mem_append_right front hc)
  getLast_ne_zero hlast := by
    have hne : digits ≠ [] := by
      rintro rfl
      cases hlast
    exact h.getLast_ne_zero (by rw [List.getLast?_append_of_ne_nil front hne, hlast])

theorem isPlaces_toDigits {n : Nat} (hmod : n % 10 ≠ 0) : IsPlaces (Nat.toDigits 10 n) where
  isDigit _ hc := Decimal.isDigit_of_mem_toDigits hc
  getLast_ne_zero := Decimal.getLast?_toDigits_ne_zero hmod

theorem isPlaces_leftpad {n w : Nat} (hmod : n % 10 ≠ 0) : IsPlaces ((Nat.toDigits 10 n).leftpad w '0') where
  isDigit _ hc := Decimal.isDigit_of_mem_leftpad hc
  getLast_ne_zero := by
    rw [List.leftpad, List.getLast?_append_of_ne_nil _ Nat.toDigits_ne_nil]
    exact Decimal.getLast?_toDigits_ne_zero hmod

/-- Digits that do not end in zero are not all zero. -/
theorem IsPlaces.exists_nonzero {digits : List Char} (h : IsPlaces digits) (hne : digits ≠ []) :
    ∃ c ∈ digits, c.isDigit = true ∧ c ≠ '0' := by
  refine ⟨digits.getLast hne, List.getLast_mem hne, h.isDigit _ (List.getLast_mem hne), fun hzero => ?_⟩
  exact h.getLast_ne_zero (by rw [List.getLast?_eq_some_getLast hne, hzero])

namespace Decimal

variable {d : Decimal}

/-! ### Decimals in place -/

/-- What is left of padded digits in front of `k` places is a whole number: padding makes it a single zero. -/
theorem isWhole_take_leftpad {n : Nat} (hpos : 0 < n) (k : Nat) :
    IsWhole (((Nat.toDigits 10 n).leftpad (k + 1) '0').take (((Nat.toDigits 10 n).leftpad (k + 1) '0').length - k)) where
  ne_nil := by
    rw [← List.length_pos_iff, List.length_take, List.length_leftpad]
    omega
  isDigit _ hc := isDigit_of_mem_leftpad (List.mem_of_mem_take hc)
  eq_zero_of_head hhead := by
    have hpadded : k + 1 - (Nat.toDigits 10 n).length ≠ 0 := by
      intro hnone
      rw [List.leftpad, hnone, List.replicate_zero, List.nil_append, List.head?_take, if_neg (by omega)] at hhead
      exact head?_toDigits_ne_zero hpos hhead
    have hlength : ((Nat.toDigits 10 n).leftpad (k + 1) '0').length - k = 1 := by
      rw [List.length_leftpad]
      omega
    rw [hlength] at hhead ⊢
    cases hdigits : (Nat.toDigits 10 n).leftpad (k + 1) '0' with
    | nil => rw [hdigits] at hhead; cases hhead
    | cons c cs =>
      rw [hdigits] at hhead
      obtain rfl : c = '0' := Option.some.inj hhead
      rfl

theorem inPlaceForm_natCast {n : Nat} (hmod : n % 10 ≠ 0) (k : Nat) : InPlaceForm (inPlace ⟨n, k⟩) := by
  have hhead : (Nat.toDigits 10 n ++ List.replicate k '0').head? ≠ some '0' := by
    rw [List.head?_append_of_ne_nil _ Nat.toDigits_ne_nil]
    exact head?_toDigits_ne_zero (by omega)
  have hwhole : IsWhole (Nat.toDigits 10 n ++ List.replicate k '0') :=
    ⟨List.append_ne_nil_of_left_ne_nil Nat.toDigits_ne_nil _, fun _ => isDigit_of_mem_append_zeros,
      fun h => absurd h hhead⟩
  obtain ⟨c, hc, hnonzero⟩ := (isPlaces_toDigits hmod).exists_nonzero Nat.toDigits_ne_nil
  rw [inPlace_natCast]
  exact ⟨⟨_, [], (List.append_nil _).symm, hwhole, isPlaces_nil, Nat.zero_le _⟩, c, List.mem_append_left _ hc, hnonzero⟩

theorem inPlaceForm_neg_succ {n k : Nat} (hmod : n % 10 ≠ 0) (hk : k + 1 ≤ Answer.places) :
    InPlaceForm (inPlace ⟨n, -((k + 1 : Nat) : Int)⟩) := by
  have hplaces := isPlaces_leftpad (w := k + 2) hmod
  have hwhole := isWhole_take_leftpad (n := n) (by omega) (k + 1)
  have hlength : k + 2 ≤ ((Nat.toDigits 10 n).leftpad (k + 2) '0').length := by
    rw [List.length_leftpad]
    exact Nat.le_max_left _ _
  rw [inPlace_neg_succ]
  generalize (Nat.toDigits 10 n).leftpad (k + 2) '0' = padded at *
  rw [← List.take_append_drop (padded.length - (k + 1)) padded] at hplaces
  have hdropped : (padded.drop (padded.length - (k + 1))).length = k + 1 := by
    rw [List.length_drop]
    omega
  have hne : padded.drop (padded.length - (k + 1)) ≠ [] := by
    rw [← List.length_pos_iff, hdropped]
    exact Nat.succ_pos k
  obtain ⟨c, hc, hnonzero⟩ := hplaces.of_append.exists_nonzero hne
  rw [← pointed_of_ne_nil hne]
  refine ⟨⟨_, _, rfl, hwhole, hplaces.of_append, hdropped.trans_le hk⟩, c, List.mem_append_right _ ?_, hnonzero⟩
  rw [pointed_of_ne_nil hne]
  exact List.mem_cons_of_mem _ hc

theorem inPlaceForm_inPlace (hmod : d.digits % 10 ≠ 0) (hexp : -(Answer.places : Int) ≤ d.exponent) :
    InPlaceForm d.inPlace := by
  obtain ⟨n, e⟩ := d
  cases e with
  | ofNat k => exact inPlaceForm_natCast hmod k
  | negSucc k =>
    rw [Int.negSucc_eq, ← Nat.cast_succ] at hexp ⊢
    exact inPlaceForm_neg_succ hmod (Int.ofNat_le.mp (neg_le_neg_iff.mp hexp))

/-! ### Decimals with an exponent -/

theorem scientificForm_scientific (hmod : d.digits % 10 ≠ 0) (hvalue : powerOfTen 21 ≤ d.value) :
    ScientificForm d.scientific := by
  have hpos : 0 < d.digits := by omega
  have hlarge : 21 < d.exponent + (Nat.toDigits 10 d.digits).length := by
    have hlt := hvalue.trans_lt (value_lt_powerOfTen d)
    rw [powerOfTen_eq, powerOfTen_eq] at hlt
    exact (zpow_lt_zpow_iff_right₀ (by norm_num)).mp hlt
  have hhead := head?_toDigits_ne_zero hpos
  have hplaces := isPlaces_toDigits hmod
  cases hdigits : Nat.toDigits 10 d.digits with
  | nil => exact absurd hdigits Nat.toDigits_ne_nil
  | cons first digits =>
    rw [hdigits] at hlarge hhead hplaces
    rw [List.length_cons] at hlarge
    have hfirst := hplaces.isDigit first List.mem_cons_self
    have hrest : IsPlaces ([first] ++ digits) := hplaces
    have hexp : ¬d.exponent + (digits.length : Nat) < 0 := by omega
    refine ⟨first, digits, (d.exponent + (digits.length : Nat)).natAbs, ?_, hfirst, fun hzero => ?_,
      hrest.of_append, by omega⟩
    · simp only [scientific, hdigits, List.length_cons, Nat.add_sub_cancel, exponentText]
      rw [if_neg hexp]
      cases digits <;> rfl
    · rw [hzero] at hhead
      exact hhead rfl

end Decimal

/-! ### Answers by size -/

/-- The texts that a number may have: what is shown of it depends on its kind and on its size. -/
inductive Answer.TextFor : Binary64 → List Char → Prop
  | infinite (negative : Bool) : TextFor (.infinite negative) (sign negative ++ "Infinity".toList)
  | scientific (negative : Bool) {rank : Nat} {size : List Char} (hlarge : exponentLimit ≤ Binary64.value rank)
      (hform : ScientificForm size) : TextFor (.finite negative rank) (sign negative ++ size)
  | zero (negative : Bool) {rank : Nat} (hsmall : Binary64.value rank < exponentLimit) :
      TextFor (.finite negative rank) ['0']
  | inPlace (negative : Bool) {rank : Nat} {size : List Char} (hsmall : Binary64.value rank < exponentLimit)
      (hform : InPlaceForm size) : TextFor (.finite negative rank) (sign negative ++ size)

namespace Answer

open Binary64

variable {r : Nat}

theorem pos_of_roundingLimit_le (h : roundingLimit ≤ value r) : 0 < r := by
  by_contra hzero
  rw [Nat.eq_zero_of_not_pos hzero, value_zero, roundingLimit] at h
  norm_num at h

/-- A number that is too large to be rounded to places is a number of eighths. -/
theorem neg_three_le_exponent (hr : r ≤ infinityRank) (h : roundingLimit ≤ value r) :
    -3 ≤ (Decimal.shortest r).exponent := by
  have hround : Binary64.round (value r) = value r := by
    rw [round_of_nonneg (value_nonneg r), nearest_value hr]
  have hlimit : (2 : Rat) ^ 52 ≤ value r * 2 ^ 3 := by
    rw [roundingLimit] at h
    push_cast at h
    linarith
  obtain ⟨m, hm⟩ := exists_round_eq_div (s := 3) (value_nonneg r) (by norm_num) (by rwa [hround])
  have hvalue : Decimal.value ⟨125 * m, -3⟩ = value r := by
    rw [← hround, hm, Decimal.value, Decimal.powerOfTen_eq]
    push_cast
    norm_num
    ring
  have hrank : Decimal.rank ⟨125 * m, -3⟩ = r := by
    rw [Decimal.rank, hvalue, nearest_value hr]
  have hle := Decimal.exponent_le_exponent_shortest (d := ⟨125 * m, -3⟩) (by norm_num)
  rwa [hrank] at hle

theorem powerOfTen_exponentLimit : Decimal.powerOfTen 21 = exponentLimit := by
  rw [Decimal.powerOfTen_eq, exponentLimit]
  norm_num

/-- A count of units of the last place kept, as a decimal. -/
theorem nearest_mkRat (count : Nat) :
    nearest (mkRat count (10 ^ places)) = Decimal.rank ⟨count, -(places : Int)⟩ := by
  rw [Decimal.rank, Decimal.value, Decimal.powerOfTen_eq, Rat.mkRat_eq_div, zpow_neg, zpow_natCast, div_eq_mul_inv]
  push_cast
  rfl

theorem rank_pos_of_count {count : Nat} (h : 0 < count) : 0 < Decimal.rank ⟨count, -(places : Int)⟩ := by
  have hstep := Decimal.rank_lt_rank_succ (n := 0) (e := -(places : Int)) (by decide) (by decide) (by norm_num)
  exact (Nat.zero_le _).trans_lt (hstep.trans_le (Decimal.rank_mono _ h))

/-- A number that is not rounded to zero keeps its sign. -/
theorem decide_inPlaces_neg {negative : Bool} (h : inPlaces (signed negative (value r)) ≠ 0) :
    decide (inPlaces (signed negative (value r)) < 0) = negative := by
  cases negative with
  | false =>
    rw [signed_false] at h ⊢
    exact decide_eq_false (not_lt.mpr (inPlaces_nonneg (value_nonneg r)))
  | true =>
    have hle := inPlaces_mono (signed_true_nonpos r)
    rw [inPlaces_zero] at hle
    exact decide_eq_true (lt_of_le_of_ne hle h)

theorem inPlaceForm_rounded {count : Nat} (h : 0 < count) :
    InPlaceForm (Decimal.shortest (Decimal.rank ⟨count, -(places : Int)⟩)).inPlace :=
  Decimal.inPlaceForm_inPlace
    (Decimal.digits_shortest_mod (rank_pos_of_count h) (Decimal.rank_le_infinityRank _))
    (Decimal.exponent_le_exponent_shortest (d := ⟨count, -(places : Int)⟩)
      (neg_nonpos.mpr (Int.natCast_nonneg places)))

theorem textFor_ofRank (negative : Bool) (hr : r < infinityRank) :
    TextFor (.finite negative r) (ofRank negative r).chars := by
  by_cases hlarge : exponentLimit ≤ value r
  · have hpos : 0 < r := pos_of_roundingLimit_le (roundingLimit_lt_exponentLimit.le.trans hlarge)
    have hvalue : Decimal.powerOfTen 21 ≤ value r := powerOfTen_exponentLimit.trans_le hlarge
    rw [ofRank_of_exponentLimit_le negative hlarge]
    exact .scientific negative hlarge (Decimal.scientificForm_scientific (Decimal.digits_shortest_mod hpos hr.le)
      (Decimal.powerOfTen_le_value_shortest hr.le hvalue))
  have hsmall := not_le.mp hlarge
  by_cases hround : roundingLimit ≤ value r
  · have hpos : 0 < r := pos_of_roundingLimit_le hround
    have hexp : -(places : Int) ≤ (Decimal.shortest r).exponent :=
      le_trans (by decide) (neg_three_le_exponent hr.le hround)
    rw [ofRank_of_roundingLimit_le negative hround hsmall]
    exact .inPlace negative hsmall (Decimal.inPlaceForm_inPlace (Decimal.digits_shortest_mod hpos hr.le) hexp)
  · rw [ofRank_of_lt_roundingLimit negative (not_le.mp hround), chars, nearest_mkRat]
    by_cases hzero : inPlaces (signed negative (value r)) = 0
    · rw [hzero, Int.natAbs_zero, Decimal.rank_zero, Decimal.shortest_zero]
      exact .zero negative hsmall
    · rw [decide_inPlaces_neg hzero]
      exact .inPlace negative hsmall (inPlaceForm_rounded (Int.natAbs_pos.mpr hzero))

end Answer

/-- **What answers look like.** -/
theorem exists_answerText_form {x : Float} (hx : x.isNaN = false) :
    ∃ text, answerText x = .ok text ∧ Answer.TextFor (Binary64.ofFloat x) text.toList := by
  cases h : Binary64.ofFloat x with
  | notANumber =>
    rw [Binary64.ofFloat_eq_notANumber_iff, hx] at h
    cases h
  | infinite negative =>
    refine ⟨_, answerText_of_answer (Answer.ofFloat?_of_infinite h), ?_⟩
    rw [Answer.toList_text]
    exact .infinite negative
  | finite negative rank =>
    refine ⟨_, answerText_of_answer (Answer.ofFloat?_of_finite h), ?_⟩
    rw [Answer.toList_text]
    exact Answer.textFor_ofRank negative (Binary64.rank_lt_infinityRank h)

theorem exists_answerText_form_one_tenth : (0.1 : Float).isNaN = false ∧
    ∃ text, answerText 0.1 = .ok text ∧ Answer.TextFor (Binary64.ofFloat 0.1) text.toList :=
  ⟨by decide, exists_answerText_form (by decide)⟩

example : (answerText (-1e-8)).toOption = some "0" := by
  decide +kernel

end Reckoner
