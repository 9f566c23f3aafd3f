import Reckoner.Proofs.Evaluation.AnswerText
import Reckoner.Proofs.Expression.Concatenation
import Reckoner.Proofs.Number.Encoding
import Reckoner.Proofs.Number.Places
import Reckoner.Proofs.Number.Shortest

/-!
# Typed numbers

A number typed by itself is read, rounded to places and shown. Up to fifteen digits survive the reading and the
showing, so all depends on the rounding in between: the number is shown as it was typed exactly if the rounding
gives back the number that was read (`evaluate_text_iff`). It does below `2^28`. From there on it does not
always: the scaling is rounded itself, and what it loses can show in the seventh place.
-/

namespace Reckoner

/-! ### A numeral by itself -/

section Numeral

variable {numeral : List Char} {d : Decimal}

theorem evaluateTokens_number (x : Float) : evaluateTokens [.number x] = answerText x :=
  rfl

theorem evaluate_numeral (h : Decimal.ofNumeral? numeral = some d) :
    evaluate (String.ofList numeral) = answerText d.toFloat := by
  rw [← evaluateTokens_number]
  refine evaluate_of_tokens ?_ rfl
  rw [String.toList_ofList, PlainForm.plain_numeral h, Token.ofText?_numeral h]

end Numeral

/-! ### The answer for a number -/

/-- The number that is left of a number once it is rounded to places. -/
def Answer.roundedRank (rank : Nat) : Nat :=
  Binary64.nearest (mkRat (Answer.inPlaces (Binary64.value rank)).natAbs (10 ^ Answer.places))

theorem Answer.roundedRank_le_infinityRank (rank : Nat) : Answer.roundedRank rank ≤ Binary64.infinityRank :=
  Binary64.nearest_le_infinityRank _

theorem Answer.ofRank_false {r : Nat} (hsize : Binary64.value r < 10 ^ 15) :
    Answer.ofRank false r = .inPlace false (Decimal.shortest (Answer.roundedRank r)) := by
  have hlimit : Binary64.value r < Answer.roundingLimit := by
    rw [Answer.roundingLimit]
    exact hsize.trans_eq (by norm_num)
  have hsigned : Binary64.signed false (Binary64.value r) = Binary64.value r := by
    rw [Binary64.signed, if_neg Bool.false_ne_true]
  have hcount : decide (Answer.inPlaces (Binary64.value r) < 0) = false :=
    decide_eq_false (not_lt.mpr (Answer.inPlaces_nonneg (Binary64.value_nonneg r)))
  rw [Answer.ofRank_of_lt_roundingLimit false hlimit, hsigned, hcount, Answer.roundedRank]

theorem Answer.text_inPlace_false (size : Decimal) : (Answer.inPlace false size).text = String.ofList size.inPlace :=
  rfl

theorem answerText_of_finite {x : Float} {r : Nat} (hx : Binary64.ofFloat x = .finite false r)
    (hsize : Binary64.value r < 10 ^ 15) :
    answerText x = .ok (String.ofList (Decimal.shortest (Answer.roundedRank r)).inPlace) := by
  have h := Answer.ofFloat?_of_finite hx
  rw [Answer.ofRank_false hsize] at h
  rw [answerText_of_answer h, Answer.text_inPlace_false]

/-! ### Typed numbers -/

/-- A number as it is typed: digits with no needless zero in front, and up to seven places that do not end in
zero, up to fifteen digits in all. -/
structure TypedNumber where
  whole : List Char
  places : List Char
  all_isDigit : (whole ++ places).all Char.isDigit = true
  whole_ne_nil : whole ≠ []
  eq_zero_of_head : whole.head? = some '0' → whole = ['0']
  getLast_ne_zero : places.getLast? ≠ some '0'
  length_places_le : places.length ≤ Answer.places
  length_le : (whole ++ places).length ≤ 15

namespace TypedNumber

variable (d : TypedNumber)

def chars : List Char :=
  d.whole ++ if d.places = [] then [] else '.' :: d.places

def text : String :=
  String.ofList d.chars

/-- What the digits count, places and all. -/
def count : Nat :=
  Nat.ofDigitChars 10 (d.whole ++ d.places) 0

def decimal : Decimal :=
  ⟨d.count, -(d.places.length : Int)⟩

theorem isDigit : ∀ c ∈ d.whole ++ d.places, c.isDigit = true :=
  List.all_eq_true.mp d.all_isDigit

theorem ofNumeral?_chars : Decimal.ofNumeral? d.chars = some d.decimal := by
  by_cases hplaces : d.places = []
  · have hdigits := d.isDigit
    rw [hplaces] at hdigits
    have hread := @Decimal.ofNumeral?_append d.whole [] d.whole_ne_nil rfl hdigits
    rw [chars, if_pos hplaces, hread, decimal, count, hplaces]
    rfl
  · have hread := @Decimal.ofNumeral?_append d.whole ('.' :: d.places) d.whole_ne_nil rfl d.isDigit
    rw [chars, if_neg hplaces, hread, decimal, count]
    rfl

theorem leftpad_count : (Nat.toDigits 10 d.count).leftpad (d.places.length + 1) '0' = d.whole ++ d.places := by
  have hpos : 0 < d.whole.length := List.length_pos_iff.mpr d.whole_ne_nil
  refine Decimal.leftpad_toDigits d.isDigit ?_ ?_ ?_
  · rw [List.length_append]
    omega
  · rw [List.length_append]
    omega
  · obtain ⟨c, cs, hwhole⟩ := List.exists_cons_of_ne_nil d.whole_ne_nil
    by_cases hzero : c = '0'
    · have hone := d.eq_zero_of_head (by rw [hwhole, hzero]; rfl)
      rw [hone]
      exact Nat.le_max_left _ _
    · have hdigit := d.isDigit c (by rw [hwhole]; exact List.mem_cons_self)
      have hle := @Decimal.length_le_length_toDigits c (cs ++ d.places) hdigit hzero
      rw [hwhole]
      exact hle.trans (Nat.le_max_right _ _)

theorem inPlace_decimal : d.decimal.inPlace = d.chars := by
  have hpadded := d.leftpad_count
  rw [decimal, chars]
  cases hplaces : d.places with
  | nil =>
    rw [hplaces, List.leftpad, List.length_nil, Nat.sub_eq_zero_of_le Nat.length_toDigits_pos, List.replicate_zero,
      List.nil_append] at hpadded
    rw [List.length_nil, Nat.cast_zero, neg_zero, if_pos rfl, ← hpadded]
    exact List.append_nil _
  | cons c cs =>
    rw [hplaces, List.length_cons] at hpadded
    have hlength : (d.whole ++ c :: cs).length - (cs.length + 1) = d.whole.length := by
      rw [List.length_append, List.length_cons, Nat.add_sub_cancel]
    rw [List.length_cons, Decimal.inPlace_neg_succ, hpadded, hlength, List.take_left, List.drop_left,
      if_neg (List.cons_ne_nil c cs)]

/-! ### From the text to the answer -/

theorem count_lt : d.count < 10 ^ 15 :=
  (Decimal.ofDigitChars_lt d.isDigit).trans_le (Nat.pow_le_pow_right (by norm_num) d.length_le)

theorem value_decimal : d.decimal.value = d.count / 10 ^ d.places.length := by
  rw [decimal, Decimal.value, Decimal.powerOfTen_eq, zpow_neg, zpow_natCast, div_eq_mul_inv]

theorem value_decimal_le : d.decimal.value ≤ ((10 ^ 15 - 1 : Nat) : Rat) := by
  have hcount := d.count_lt
  rw [value_decimal]
  calc (d.count : Rat) / 10 ^ d.places.length ≤ d.count :=
        div_le_self (Nat.cast_nonneg _) (one_le_pow₀ (by norm_num))
    _ ≤ ((10 ^ 15 - 1 : Nat) : Rat) := by
        rw [Nat.cast_le]
        omega

theorem value_rank_lt : Binary64.value d.decimal.rank < 10 ^ 15 := by
  have hmono := Binary64.value_strictMono.monotone
    (Binary64.nearest_mono d.decimal.value_nonneg d.value_decimal_le)
  have htop := Binary64.value_nearest_div_two_pow (k := 10 ^ 15 - 1) (s := 0) (by norm_num) (by norm_num)
  rw [pow_zero, div_one] at htop
  rw [htop] at hmono
  exact hmono.trans_lt (by norm_num)

theorem rank_lt_infinityRank : d.decimal.rank < Binary64.infinityRank := by
  have hsize : d.decimal.value < 2 ^ 1023 := by
    calc d.decimal.value ≤ ((10 ^ 15 - 1 : Nat) : Rat) := d.value_decimal_le
      _ < 2 ^ 50 := by norm_num
      _ ≤ 2 ^ 1023 := pow_le_pow_right₀ (by norm_num) (by norm_num)
  obtain ⟨s, k, _, _, hlt⟩ := Binary64.nearest_roundsTo_of_lt d.decimal.value_nonneg hsize
  exact hlt

theorem evaluate_text :
    evaluate d.text = .ok (String.ofList (Decimal.shortest (Answer.roundedRank d.decimal.rank)).inPlace) := by
  rw [text, evaluate_numeral d.ofNumeral?_chars, Decimal.toFloat]
  exact answerText_of_finite (Binary64.ofFloat_toFloat d.rank_lt_infinityRank) d.value_rank_lt

theorem length_eq_zero_or_count_mod : d.places.length = 0 ∨ d.count % 10 ≠ 0 := by
  rcases List.eq_nil_or_concat d.places with hnil | ⟨init, c, hconcat⟩
  · exact Or.inl (List.length_eq_zero_iff.mpr hnil)
  · right
    rw [List.concat_eq_append] at hconcat
    have hdigit : 48 ≤ c.toNat ∧ c.toNat ≤ 57 := by
      refine Char.isDigit_iff_toNat.mp (d.isDigit c (List.mem_append_right _ ?_))
      rw [hconcat]
      exact List.mem_append_right _ (List.mem_singleton_self c)
    have hne : c.toNat ≠ 48 := by
      intro h
      obtain rfl : c = '0' := Char.toNat_inj.mp h
      exact d.getLast_ne_zero (by rw [hconcat, List.getLast?_concat])
    rw [count, hconcat, ← List.append_assoc, Nat.ofDigitChars_append, Nat.ofDigitChars_cons,
      Nat.ofDigitChars_nil, Nat.mul_add_mod]
    change (c.toNat - 48) % 10 ≠ 0
    omega

/-- What was read is shown as it was typed. -/
theorem inPlace_shortest_rank : (Decimal.shortest d.decimal.rank).inPlace = d.chars := by
  have hplaces : d.places.length ≤ 300 := d.length_places_le.trans (by decide)
  rw [← d.inPlace_decimal]
  exact Decimal.inPlace_shortest_rank d.count_lt hplaces d.length_eq_zero_or_count_mod

theorem evaluate_text_of_roundedRank (h : Answer.roundedRank d.decimal.rank = d.decimal.rank) :
    evaluate d.text = .ok d.text := by
  rw [evaluate_text, h, inPlace_shortest_rank, text]

theorem roundedRank_of_evaluate_text (h : evaluate d.text = .ok d.text) :
    Answer.roundedRank d.decimal.rank = d.decimal.rank := by
  rw [evaluate_text, Except.ok.injEq, text] at h
  have hchars := String.ofList_injective h
  obtain ⟨s, hread, hvalue⟩ := Decimal.ofNumeral?_inPlace (Decimal.shortest (Answer.roundedRank d.decimal.rank))
  rw [hchars, d.ofNumeral?_chars, Option.some.injEq] at hread
  calc Answer.roundedRank d.decimal.rank
      = (Decimal.shortest (Answer.roundedRank d.decimal.rank)).rank :=
        (Decimal.rank_shortest (Answer.roundedRank_le_infinityRank _)).symm
    _ = d.decimal.rank := congrArg Binary64.nearest (hvalue.symm.trans (congrArg Decimal.value hread.symm))

theorem roundedRank_of_lt (h : d.decimal.value < 2 ^ 28) : Answer.roundedRank d.decimal.rank = d.decimal.rank := by
  obtain ⟨j, hj⟩ := Nat.exists_eq_add_of_le d.length_places_le
  have hvalue : d.decimal.value = ((10 ^ j * d.count : Nat) : Rat) / ((10 ^ Answer.places : Nat) : Rat) := by
    rw [value_decimal, hj]
    push_cast
    rw [pow_add, mul_comm (10 ^ d.places.length : Rat), mul_div_mul_left _ _ (by positivity)]
  rw [hvalue] at h
  have hcount := Answer.inPlaces_value_nearest h
  rw [Answer.roundedRank, Decimal.rank, hvalue, hcount, Int.natAbs_natCast, Rat.mkRat_eq_div, Int.cast_natCast]

/-- **A typed number is shown as it was typed** exactly if rounding it to places gives back the number that was
read, and so it does below `2^28`. -/
theorem evaluate_text_iff :
    (evaluate d.text = .ok d.text ↔ Answer.roundedRank d.decimal.rank = d.decimal.rank) ∧
      (d.decimal.value < 2 ^ 28 → evaluate d.text = .ok d.text) :=
  ⟨⟨d.roundedRank_of_evaluate_text, d.evaluate_text_of_roundedRank⟩,
    fun h => d.evaluate_text_of_roundedRank (d.roundedRank_of_lt h)⟩

omit d in
theorem evaluate_one_tenth : evaluate "0.1" = .ok "0.1" := by
  refine (evaluate_text_iff ⟨['0'], ['1'], by decide, by decide, by decide, by decide, by decide, by decide⟩).2 ?_
  rw [value_decimal]
  change (1 : Rat) / 10 ^ 1 < 2 ^ 28
  norm_num

omit d in
/-- From `2^28` on the last place can come out wrong. -/
theorem not_forall_evaluate_text : ¬∀ d : TypedNumber, evaluate d.text = .ok d.text := by
  intro h
  have htyped : evaluate "268435456.16" = .ok "268435456.16" :=
    h ⟨"268435456".toList, "16".toList, by decide, by decide, by decide, by decide, by decide, by decide⟩
  have hshown : evaluateToText "268435456.16" = "268435456.1600001" := by decide +kernel
  rw [evaluateToText, htyped] at hshown
  exact absurd hshown (by decide)

end TypedNumber

end Reckoner
