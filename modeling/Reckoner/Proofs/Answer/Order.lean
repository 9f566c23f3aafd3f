import Reckoner.Proofs.Evaluation.AnswerText
import Reckoner.Proofs.Number.Order
import Reckoner.Proofs.Number.Places
import Reckoner.Proofs.Number.Shortest

/-!
# The order of answers

Answers are in the order of the numbers that they are the answers to (`answerText_mono`), each read as the number that
its text denotes (`Answer.number?`).

What an answer denotes depends on the number alone and not on the form it is written in: the number is rounded to
places if it is small enough (`kept`), and named by a shortest decimal (`shown`, `number_ofRank`). Both keep the order.
For the first one this is a matter of the limit from which on nothing is rounded to places any more: the scaling is
exact there, so that what lies below the limit is not rounded to a number above it (`kept_mono`).
-/

namespace Reckoner

/-! ### Reading answers -/

namespace Decimal

/-- Reads a count. -/
def ofDigits? (digits : List Char) : Option Nat :=
  if !digits.isEmpty && digits.all Char.isDigit then some (Nat.ofDigitChars 10 digits 0) else none

/-- Reads an exponent with its sign. -/
def exponent? : List Char → Option Int
  | '+' :: digits => (ofDigits? digits).map fun n : Nat => (n : Int)
  | '-' :: digits => (ofDigits? digits).map fun n : Nat => -(n : Int)
  | _ => none

/-- Reads a decimal in either form: a numeral, with an exponent behind an `e` if there is one. -/
def ofText? (text : List Char) : Option Decimal :=
  match text.dropWhile (· != 'e') with
  | [] => ofNumeral? text
  | _ :: exponent => do
    let mantissa ← ofNumeral? (text.takeWhile (· != 'e'))
    let e ← exponent? exponent
    some ⟨mantissa.digits, mantissa.exponent + e⟩

theorem ofDigits?_toDigits (n : Nat) : ofDigits? (Nat.toDigits 10 n) = some n := by
  have hdigits : (Nat.toDigits 10 n).all Char.isDigit = true :=
    List.all_eq_true.mpr fun c hc => isDigit_of_mem_toDigits hc
  have hne : (Nat.toDigits 10 n).isEmpty = false := List.isEmpty_eq_false_iff.mpr Nat.toDigits_ne_nil
  rw [ofDigits?, hne, hdigits, Nat.ofDigitChars_ten_toDigits]
  rfl

theorem exponent?_exponentText (e : Int) : exponent? (exponentText e) = some e := by
  rw [exponentText]
  split_ifs with hneg
  · rw [exponent?, ofDigits?_toDigits, Option.map_some, Int.ofNat_natAbs_of_nonpos hneg.le, neg_neg]
  · rw [exponent?, ofDigits?_toDigits, Option.map_some, Int.natAbs_of_nonneg (not_lt.mp hneg)]

theorem ne_e_of_isNumeralChar {c : Char} (h : isNumeralChar c = true) : (c != 'e') = true := by
  rw [bne_iff_ne]
  rintro rfl
  cases h

theorem ofText?_numeral {numeral : List Char} (h : ∀ c ∈ numeral, isNumeralChar c = true) :
    ofText? numeral = ofNumeral? numeral := by
  have hdrop : numeral.dropWhile (· != 'e') = [] :=
    List.dropWhile_eq_nil_iff.mpr fun c hc => ne_e_of_isNumeralChar (h c hc)
  rw [ofText?, hdrop]

theorem ofText?_append {numeral exponent : List Char} {d : Decimal} {e : Int} (hnumeral : ofNumeral? numeral = some d)
    (hexponent : exponent? exponent = some e) :
    ofText? (numeral ++ 'e' :: exponent) = some ⟨d.digits, d.exponent + e⟩ := by
  have hchars : ∀ c ∈ numeral, (c != 'e') = true := fun c hc =>
    ne_e_of_isNumeralChar ((ofNumeral?_eq_some hnumeral).2 c hc)
  rw [ofText?, List.dropWhile_append_of_pos hchars, List.takeWhile_append_of_pos hchars]
  simp [hnumeral, hexponent]

/-- A decimal in scientific form is read as it was. -/
theorem ofText?_scientific (d : Decimal) : ofText? d.scientific = some d := by
  have hcount := Nat.ofDigitChars_ten_toDigits (n := d.digits)
  have hdigits := fun c => isDigit_of_mem_toDigits (n := d.digits) (c := c)
  have hmantissa : ofNumeral? ((Nat.toDigits 10 d.digits).take 1 ++
      if (Nat.toDigits 10 d.digits).length = 1 then [] else '.' :: (Nat.toDigits 10 d.digits).drop 1) =
      some ⟨d.digits, -(((Nat.toDigits 10 d.digits).length - 1 : Nat) : Int)⟩ := by
    cases hwritten : Nat.toDigits 10 d.digits with
    | nil => exact absurd hwritten Nat.toDigits_ne_nil
    | cons first rest =>
      rw [hwritten] at hcount hdigits
      cases rest with
      | nil =>
        have hread := @ofNumeral?_append [first] [] (List.cons_ne_nil _ _) rfl hdigits
        exact hread.trans (by rw [List.drop_nil, List.append_nil, hcount]; rfl)
      | cons second rest =>
        have hread := @ofNumeral?_append [first] ('.' :: second :: rest) (List.cons_ne_nil _ _) rfl hdigits
        exact hread.trans (by rw [List.drop_one, List.tail_cons, List.singleton_append, hcount]; rfl)
  rw [scientific, ofText?_append hmantissa (exponent?_exponentText _)]
  simp

theorem ofText?_inPlace (d : Decimal) : ∃ d', ofText? d.inPlace = some d' ∧ d'.value = d.value := by
  obtain ⟨d', hread, hvalue⟩ := ofNumeral?_inPlace d
  exact ⟨d', (ofText?_numeral (ofNumeral?_eq_some hread).2).trans hread, hvalue⟩

/-- A decimal begins with a digit or a point. -/
theorem isNumeralChar_of_ofText? {c : Char} {cs : List Char} {d : Decimal} (h : ofText? (c :: cs) = some d) :
    isNumeralChar c = true := by
  by_cases hc : c = 'e'
  · subst hc
    cases h
  · have hpos : (c != 'e') = true := bne_iff_ne.mpr hc
    rw [ofText?] at h
    split at h
    · exact (ofNumeral?_eq_some h).2 c List.mem_cons_self
    · obtain ⟨mantissa, hmantissa, -⟩ := Option.bind_eq_some_iff.mp h
      refine (ofNumeral?_eq_some hmantissa).2 c ?_
      rw [@List.takeWhile_cons_of_pos _ (· != 'e') _ _ hpos]
      exact List.mem_cons_self

end Decimal

namespace Answer

open Binary64

/-- The number that the text of an answer denotes. -/
def number? (text : List Char) : Option Extended :=
  let negative := text.head? == some '-'
  let size := if negative then text.tail else text
  if size = "Infinity".toList then some (.infinite negative)
  else (Decimal.ofText? size).map fun d => .finite negative d.value

/-- The number that an answer denotes. -/
def number : Answer → Extended
  | .infinite negative => .infinite negative
  | .scientific negative size => .finite negative size.value
  | .inPlace negative size => .finite negative size.value

theorem number?_of_size (negative : Bool) {size : List Char} {d : Decimal} (h : Decimal.ofText? size = some d) :
    number? (sign negative ++ size) = some (.finite negative d.value) := by
  have hinfinity : size ≠ "Infinity".toList := by
    rintro rfl
    exact absurd (Decimal.isNumeralChar_of_ofText? h) (by decide)
  cases negative with
  | false =>
    have hhead : (size.head? == some '-') = false := by
      rw [beq_eq_false_iff_ne]
      intro hhead
      obtain ⟨cs, rfl⟩ := List.head?_eq_some_iff.mp hhead
      exact absurd (Decimal.isNumeralChar_of_ofText? h) (by decide)
    simp only [number?, sign, Bool.false_eq_true, if_false, List.nil_append, hhead, if_neg hinfinity, h, Option.map_some]
  | true =>
    simp only [number?, sign, if_true, List.singleton_append, List.head?_cons, List.tail_cons, beq_self_eq_true,
      if_neg hinfinity, h, Option.map_some]

/-- The text of an answer denotes what the answer does. -/
theorem number?_chars (a : Answer) : number? a.chars = some a.number := by
  cases a with
  | infinite negative => cases negative <;> rfl
  | scientific negative size => exact number?_of_size negative size.ofText?_scientific
  | inPlace negative size =>
    obtain ⟨d, hread, hvalue⟩ := size.ofText?_inPlace
    rw [chars, number?_of_size negative hread, hvalue, number]

example : number? "-1.5e+21".toList = some (.finite true (15 * 10 ^ 20)) := by
  decide +kernel

/-! ### What answers denote -/

/-- What is left of a number once it is rounded to places. -/
def kept (x : Rat) : Rat :=
  if roundingLimit ≤ |x| then x else inPlaces x / (10 ^ places : Nat)

/-- The number that the shortest decimal of a number names. -/
def shown (x : Rat) : Rat :=
  if x < 0 then -(Decimal.shortest (nearest (-x))).value else (Decimal.shortest (nearest x)).value

theorem kept_mono : Monotone kept := by
  intro x y hxy
  have hscale : (0 : Rat) < (10 ^ places : Nat) := by norm_num
  have hlimit : roundingLimit * (10 ^ places : Nat) = 10 ^ 22 := by
    rw [roundingLimit, places]
    norm_num
  obtain ⟨hcount, hcount'⟩ := inPlaces_roundingLimit
  rw [kept, kept]
  split_ifs with hx hy hy
  · exact hxy
  · -- only the smaller number is kept as it is, so it lies below the negative limit
    have hbelow : x ≤ -roundingLimit := by
      rcases le_abs.mp hx with hle | hle
      · exact absurd ((hle.trans hxy).trans (le_abs_self y)) hy
      · exact le_neg_of_le_neg hle
    have hle := inPlaces_mono (neg_lt.mp ((neg_le_abs y).trans_lt (not_le.mp hy))).le
    rw [hcount'] at hle
    rw [le_div_iff₀ hscale]
    calc x * (10 ^ places : Nat) ≤ -roundingLimit * (10 ^ places : Nat) := mul_le_mul_of_nonneg_right hbelow hscale.le
      _ = ((-10 ^ 22 : Int) : Rat) := by rw [neg_mul, hlimit]; norm_num
      _ ≤ inPlaces y := Int.cast_le.mpr hle
  · have habove : roundingLimit ≤ y := by
      rcases le_abs.mp hy with hle | hle
      · exact hle
      · exact absurd ((hle.trans (neg_le_neg hxy)).trans (neg_le_abs x)) hx
    have hle := inPlaces_mono ((le_abs_self x).trans_lt (not_le.mp hx)).le
    rw [hcount] at hle
    rw [div_le_iff₀ hscale]
    calc (inPlaces x : Rat) ≤ ((10 ^ 22 : Int) : Rat) := Int.cast_le.mpr hle
      _ = roundingLimit * (10 ^ places : Nat) := by rw [hlimit]; norm_num
      _ ≤ y * (10 ^ places : Nat) := mul_le_mul_of_nonneg_right habove hscale.le
  · exact div_le_div_of_nonneg_right (Int.cast_le.mpr (inPlaces_mono hxy)) hscale.le

theorem shown_mono : Monotone shown :=
  monotone_signed (f := fun x => (Decimal.shortest (nearest x)).value) (fun _ => Decimal.value_nonneg _)
    fun _ _ hx hxy => Decimal.value_shortest_mono (nearest_mono hx hxy) (nearest_le_infinityRank _)

/-- Numbers by rank are shown with their own signs. -/
theorem shown_signed (negative : Bool) {r : Nat} (hr : r ≤ infinityRank) :
    shown (signed negative (value r)) = signed negative (Decimal.shortest r).value := by
  cases negative with
  | false => rw [signed_false, signed_false, shown, if_neg (not_lt.mpr (value_nonneg r)), nearest_value hr]
  | true =>
    rw [signed_true, signed_true, shown, neg_neg, nearest_value hr]
    rcases (value_nonneg r).eq_or_lt with hzero | hpos
    · have hr : r = 0 := value_strictMono.injective (hzero.symm.trans value_zero.symm)
      have hnearest : nearest 0 = 0 := by rw [← value_zero, nearest_value (Nat.zero_le _)]
      have hshortest : (Decimal.shortest 0).value = 0 := by
        rw [Decimal.shortest_zero, Decimal.value, Nat.cast_zero, zero_mul]
      rw [hr, value_zero, neg_zero, if_neg (lt_irrefl _), hnearest, hshortest, neg_zero]
    · rw [if_pos (neg_neg_of_pos hpos)]

/-- A count of units of the last place is shown with its own sign. -/
theorem shown_div (count : Int) :
    shown (count / (10 ^ places : Nat)) =
      signed (decide (count < 0)) (Decimal.shortest (nearest (mkRat count.natAbs (10 ^ places)))).value := by
  have hscale : (0 : Rat) < (10 ^ places : Nat) := by norm_num
  by_cases hneg : count < 0
  · have habs : ((count.natAbs : Int) : Rat) = -count := by
      rw [Int.ofNat_natAbs_of_nonpos hneg.le, Int.cast_neg]
    rw [shown, if_pos (div_neg_of_neg_of_pos (Int.cast_lt_zero.mpr hneg) hscale), decide_eq_true hneg, signed_true,
      Rat.mkRat_eq_div, habs, neg_div]
  · have habs : ((count.natAbs : Int) : Rat) = count := by
      rw [Int.natAbs_of_nonneg (not_lt.mp hneg)]
    have hnonneg : (0 : Rat) ≤ count / (10 ^ places : Nat) :=
      div_nonneg (Int.cast_nonneg (not_lt.mp hneg)) hscale.le
    rw [shown, if_neg (not_lt.mpr hnonneg), decide_eq_false hneg, signed_false, Rat.mkRat_eq_div, habs]

theorem abs_signed_value (negative : Bool) (r : Nat) : |signed negative (value r)| = value r := by
  cases negative with
  | false => rw [signed_false, abs_of_nonneg (value_nonneg r)]
  | true => rw [signed_true, abs_neg, abs_of_nonneg (value_nonneg r)]

/-- The answer to a number denotes what is shown of what is kept of it. -/
theorem number_ofRank (negative : Bool) {r : Nat} (hr : r ≤ infinityRank) :
    (ofRank negative r).number = Extended.map (shown ∘ kept) (.finite negative (value r)) := by
  have habs := abs_signed_value negative r
  by_cases hround : roundingLimit ≤ value r
  · have hshown : (shown ∘ kept) (signed negative (value r)) = signed negative (Decimal.shortest r).value := by
      rw [Function.comp_apply, kept, habs, if_pos hround, shown_signed negative hr]
    rw [Extended.map_finite hshown]
    by_cases hlarge : exponentLimit ≤ value r
    · rw [ofRank_of_exponentLimit_le negative hlarge, number]
    · rw [ofRank_of_roundingLimit_le negative hround (not_le.mp hlarge), number]
  · rw [ofRank_of_lt_roundingLimit negative (not_le.mp hround), number]
    refine (Extended.map_finite ?_).symm
    rw [Function.comp_apply, kept, habs, if_neg hround, shown_div]

/-- An answer denotes what is shown of what is kept of its number. -/
theorem exists_answerText_number {x : Float} {a : Extended} (h : (ofFloat x).number? = some a) :
    ∃ text, answerText x = .ok text ∧ number? text.toList = some (Extended.map (shown ∘ kept) a) := by
  suffices ∃ answer, ofFloat? x = some answer ∧ answer.number = Extended.map (shown ∘ kept) a by
    obtain ⟨answer, hanswer, hnumber⟩ := this
    exact ⟨answer.text, answerText_of_answer hanswer, by rw [toList_text, number?_chars, hnumber]⟩
  cases hx : ofFloat x with
  | notANumber =>
    rw [hx] at h
    cases h
  | infinite negative =>
    rw [hx] at h
    obtain rfl := Option.some.inj h
    exact ⟨_, ofFloat?_of_infinite hx, (Extended.map_infinite _ negative).symm⟩
  | finite negative rank =>
    rw [hx] at h
    obtain rfl := Option.some.inj h
    exact ⟨_, ofFloat?_of_finite hx, number_ofRank negative (rank_lt_infinityRank hx).le⟩

end Answer

/-- **Answers are in the order of the numbers that they are the answers to.** -/
theorem answerText_mono {x y : Float} (h : x ≤ y) :
    ∃ text text' a b, answerText x = .ok text ∧ answerText y = .ok text' ∧
      Answer.number? text.toList = some a ∧ Answer.number? text'.toList = some b ∧ a ≤ b := by
  obtain ⟨a, b, ha, hb, hle⟩ := Binary64.exists_number_le h
  obtain ⟨text, htext, hnumber⟩ := Answer.exists_answerText_number ha
  obtain ⟨text', htext', hnumber'⟩ := Answer.exists_answerText_number hb
  have hmono := Extended.map_mono (Answer.shown_mono.comp Answer.kept_mono)
  exact ⟨text, text', _, _, htext, htext', hnumber, hnumber', hmono hle⟩

theorem answerText_mono_one_tenth : (0.1 : Float) ≤ 1e21 ∧
    ∃ text text' a b, answerText 0.1 = .ok text ∧ answerText 1e21 = .ok text' ∧
      Answer.number? text.toList = some a ∧ Answer.number? text'.toList = some b ∧ a ≤ b :=
  ⟨by decide +kernel, answerText_mono (by decide +kernel)⟩

end Reckoner
