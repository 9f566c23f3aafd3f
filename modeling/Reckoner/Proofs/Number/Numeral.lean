import Mathlib.Algebra.Order.Field.Power
import Mathlib.Tactic.NormNum
import Mathlib.Tactic.Positivity
import Reckoner.Number.Decimal

/-!
# Decimals and their texts

The value of a decimal and the two ways between decimals and texts. Digits are determined by how many they are
and what they count (`eq_of_ofDigitChars_eq`), so written digits come back when their count is written again
(`leftpad_toDigits`), and a decimal written in place is read as what it was (`ofNumeral?_inPlace`).
-/

namespace Reckoner.Decimal

/-! ### Values -/

theorem powerOfTen_eq (e : Int) : powerOfTen e = 10 ^ e := by
  cases e with
  | ofNat n => rw [powerOfTen, Int.ofNat_eq_natCast, zpow_natCast, Nat.cast_pow, Nat.cast_ofNat]
  | negSucc n =>
    rw [powerOfTen, zpow_negSucc, Rat.mkRat_eq_div, Nat.cast_pow, Nat.cast_ofNat, Int.cast_one, one_div]

theorem powerOfTen_pos (e : Int) : 0 < powerOfTen e := by
  rw [powerOfTen_eq]
  positivity

theorem value_nonneg (d : Decimal) : 0 ≤ d.value :=
  mul_nonneg (Nat.cast_nonneg _) (powerOfTen_pos _).le

theorem value_mono {m n : Nat} (e : Int) (h : m ≤ n) : value ⟨m, e⟩ ≤ value ⟨n, e⟩ :=
  mul_le_mul_of_nonneg_right (Nat.cast_le.mpr h) (powerOfTen_pos e).le

theorem value_shift (m j : Nat) (e : Int) : value ⟨10 ^ j * m, e⟩ = value ⟨m, e + j⟩ := by
  rw [value, value, powerOfTen_eq, powerOfTen_eq, zpow_add₀ (by norm_num), zpow_natCast, Nat.cast_mul,
    Nat.cast_pow, Nat.cast_ofNat, mul_comm (10 ^ j : Rat), mul_assoc, mul_comm (10 ^ j : Rat)]

/-! ### Counts and their digits -/

theorem ofDigitChars_cons_zero (c : Char) (cs : List Char) :
    Nat.ofDigitChars 10 (c :: cs) 0 = 10 ^ cs.length * (c.toNat - 48) + Nat.ofDigitChars 10 cs 0 := by
  rw [Nat.ofDigitChars_cons, Nat.mul_zero, Nat.zero_add, Nat.ofDigitChars_eq_ofDigitChars_zero]
  rfl

theorem ofDigitChars_lt {l : List Char} (hl : ∀ c ∈ l, c.isDigit = true) :
    Nat.ofDigitChars 10 l 0 < 10 ^ l.length := by
  induction l with
  | nil => decide
  | cons c cs ih =>
    obtain ⟨hc, hcs⟩ := List.forall_mem_cons.mp hl
    have hdigit : 48 ≤ c.toNat ∧ c.toNat ≤ 57 := Char.isDigit_iff_toNat.mp hc
    have hle : 10 ^ cs.length * (c.toNat - 48) ≤ 10 ^ cs.length * 9 := Nat.mul_le_mul_left _ (by omega)
    have hlt := ih hcs
    rw [ofDigitChars_cons_zero, List.length_cons, Nat.pow_succ]
    omega

/-- Digits are determined by how many they are and what they count. -/
theorem eq_of_ofDigitChars_eq {l l' : List Char} (hl : ∀ c ∈ l, c.isDigit = true)
    (hl' : ∀ c ∈ l', c.isDigit = true) (hlength : l.length = l'.length)
    (h : Nat.ofDigitChars 10 l 0 = Nat.ofDigitChars 10 l' 0) : l = l' := by
  induction l generalizing l' with
  | nil => exact (List.length_eq_zero_iff.mp hlength.symm).symm
  | cons c cs ih =>
    cases l' with
    | nil => cases hlength
    | cons c' cs' =>
      obtain ⟨hc, hcs⟩ := List.forall_mem_cons.mp hl
      obtain ⟨hc', hcs'⟩ := List.forall_mem_cons.mp hl'
      have hlength' : cs.length = cs'.length := Nat.succ.inj hlength
      have hlt := ofDigitChars_lt hcs
      have hlt' := ofDigitChars_lt hcs'
      rw [ofDigitChars_cons_zero, ofDigitChars_cons_zero] at h
      rw [← hlength'] at h hlt'
      have hquot := congrArg (· / 10 ^ cs.length) h
      have hmod := congrArg (· % 10 ^ cs.length) h
      simp only [Nat.mul_add_mod, Nat.mod_eq_of_lt hlt, Nat.mod_eq_of_lt hlt'] at hmod
      simp only [Nat.mul_add_div (Nat.pow_pos (by norm_num : 0 < 10)), Nat.div_eq_of_lt hlt,
        Nat.div_eq_of_lt hlt', Nat.add_zero] at hquot
      have hdigit : 48 ≤ c.toNat ∧ c.toNat ≤ 57 := Char.isDigit_iff_toNat.mp hc
      have hdigit' : 48 ≤ c'.toNat ∧ c'.toNat ≤ 57 := Char.isDigit_iff_toNat.mp hc'
      have hchar : c = c' := by
        apply Char.toNat_inj.mp
        omega
      rw [hchar, ih hcs hcs' hlength' hmod]

theorem isDigit_of_mem_toDigits {n : Nat} {c : Char} (h : c ∈ Nat.toDigits 10 n) : c.isDigit = true :=
  Nat.isDigit_of_mem_toDigits (by norm_num) le_rfl h

theorem isDigit_of_mem_leftpad {n w : Nat} {c : Char} (h : c ∈ (Nat.toDigits 10 n).leftpad w '0') :
    c.isDigit = true := by
  rw [List.leftpad, List.mem_append] at h
  rcases h with h | h
  · rw [List.eq_of_mem_replicate h]
    rfl
  · exact isDigit_of_mem_toDigits h

theorem isDigit_of_mem_append_zeros {n k : Nat} {c : Char} (h : c ∈ Nat.toDigits 10 n ++ List.replicate k '0') :
    c.isDigit = true := by
  rcases List.mem_append.mp h with h | h
  · exact isDigit_of_mem_toDigits h
  · rw [List.eq_of_mem_replicate h]
    rfl

theorem ofDigitChars_leftpad (n w : Nat) :
    Nat.ofDigitChars 10 ((Nat.toDigits 10 n).leftpad w '0') 0 = n := by
  rw [List.leftpad, Nat.ofDigitChars_append, Nat.ofDigitChars_replicate_zero, Nat.mul_zero,
    Nat.ofDigitChars_ten_toDigits]

/-- Written digits are the digits of what they count, with zeros in front to make them as many. -/
theorem leftpad_toDigits {l : List Char} {w : Nat} (hl : ∀ c ∈ l, c.isDigit = true) (hpos : 0 < l.length)
    (hw : w ≤ l.length) (hlength : l.length ≤ max w (Nat.toDigits 10 (Nat.ofDigitChars 10 l 0)).length) :
    (Nat.toDigits 10 (Nat.ofDigitChars 10 l 0)).leftpad w '0' = l := by
  have hle := (Nat.length_toDigits_le_iff (by norm_num) hpos).mpr (ofDigitChars_lt hl)
  refine eq_of_ofDigitChars_eq (fun c hc => isDigit_of_mem_leftpad hc) hl ?_ (ofDigitChars_leftpad _ _)
  rw [List.length_leftpad]
  omega

theorem length_le_length_toDigits {c : Char} {cs : List Char} (hc : c.isDigit = true) (hzero : c ≠ '0') :
    (c :: cs).length ≤ (Nat.toDigits 10 (Nat.ofDigitChars 10 (c :: cs) 0)).length := by
  have hdigit : 48 ≤ c.toNat ∧ c.toNat ≤ 57 := Char.isDigit_iff_toNat.mp hc
  have hne : c.toNat ≠ 48 := fun h => hzero (Char.toNat_inj.mp h)
  have hge : 10 ^ cs.length * 1 ≤ 10 ^ cs.length * (c.toNat - 48) := Nat.mul_le_mul_left _ (by omega)
  rw [List.length_cons, Nat.succ_le_iff]
  rcases Nat.eq_zero_or_pos cs.length with hnil | hpos
  · rw [hnil]
    exact Nat.length_toDigits_pos
  · rw [← not_le, Nat.length_toDigits_le_iff (by norm_num) hpos, ofDigitChars_cons_zero]
    omega

theorem head?_toDigits_ne_zero {n : Nat} (hn : 0 < n) : (Nat.toDigits 10 n).head? ≠ some '0' := by
  intro hhead
  obtain ⟨cs, hdigits⟩ := List.head?_eq_some_iff.mp hhead
  have hcount := Nat.ofDigitChars_ten_toDigits (n := n)
  have hcs : ∀ c ∈ cs, c.isDigit = true := fun c hc =>
    isDigit_of_mem_toDigits (n := n) (by rw [hdigits]; exact List.mem_cons_of_mem _ hc)
  have hlt := ofDigitChars_lt hcs
  rw [hdigits, ofDigitChars_cons_zero] at hcount
  have hzero : '0'.toNat = 48 := rfl
  rw [hzero, Nat.sub_self, Nat.mul_zero, Nat.zero_add] at hcount
  rw [hcount] at hlt
  rcases Nat.eq_zero_or_pos cs.length with hnil | hpos
  · rw [hnil, Nat.pow_zero] at hlt
    omega
  · have hlength := (Nat.length_toDigits_le_iff (b := 10) (by norm_num) hpos).mpr hlt
    rw [hdigits, List.length_cons] at hlength
    omega

theorem getLast?_toDigits_ne_zero {n : Nat} (hn : n % 10 ≠ 0) : (Nat.toDigits 10 n).getLast? ≠ some '0' := by
  intro hlast
  obtain ⟨init, hdigits⟩ := List.getLast?_eq_some_iff.mp hlast
  have hcount := Nat.ofDigitChars_ten_toDigits (n := n)
  rw [hdigits, Nat.ofDigitChars_append, Nat.ofDigitChars_cons, Nat.ofDigitChars_nil] at hcount
  have hzero : '0'.toNat - '0'.toNat = 0 := rfl
  rw [hzero, Nat.add_zero] at hcount
  omega

theorem toDigits_shift {n : Nat} (hn : 0 < n) (j : Nat) :
    Nat.toDigits 10 (10 ^ j * n) = Nat.toDigits 10 n ++ List.replicate j '0' := by
  induction j with
  | zero => rw [Nat.pow_zero, Nat.one_mul, List.replicate_zero, List.append_nil]
  | succ j ih =>
    have hpos : 0 < 10 ^ j * n := Nat.mul_pos (Nat.pow_pos (by norm_num)) hn
    have hstep := Nat.toDigits_append_toDigits (b := 10) (by norm_num) hpos (by norm_num : 0 < 10)
    rw [List.replicate_succ', ← List.append_assoc, ← ih, Nat.pow_succ']
    rw [Nat.add_zero, Nat.toDigits_zero, ← Nat.mul_assoc] at hstep
    exact hstep.symm

theorem lt_ten_pow_length_toDigits (n : Nat) : n < 10 ^ (Nat.toDigits 10 n).length :=
  (Nat.length_toDigits_le_iff (by norm_num) Nat.length_toDigits_pos).mp le_rfl

theorem value_lt_powerOfTen (d : Decimal) :
    d.value < powerOfTen (d.exponent + (Nat.toDigits 10 d.digits).length) := by
  have hdigits : (d.digits : Rat) < 10 ^ (Nat.toDigits 10 d.digits).length := by
    exact_mod_cast lt_ten_pow_length_toDigits d.digits
  calc d.value < 10 ^ (Nat.toDigits 10 d.digits).length * powerOfTen d.exponent :=
        mul_lt_mul_of_pos_right hdigits (powerOfTen_pos _)
    _ = powerOfTen (d.exponent + (Nat.toDigits 10 d.digits).length) := by
        rw [powerOfTen_eq, powerOfTen_eq, zpow_add₀ (by norm_num), zpow_natCast, mul_comm]

/-! ### Written in place -/

theorem inPlace_natCast (n k : Nat) : inPlace ⟨n, k⟩ = Nat.toDigits 10 n ++ List.replicate k '0' :=
  rfl

theorem inPlace_neg_succ (n k : Nat) : inPlace ⟨n, -((k + 1 : Nat) : Int)⟩ =
    ((Nat.toDigits 10 n).leftpad (k + 2) '0').take (((Nat.toDigits 10 n).leftpad (k + 2) '0').length - (k + 1)) ++
      '.' :: ((Nat.toDigits 10 n).leftpad (k + 2) '0').drop
        (((Nat.toDigits 10 n).leftpad (k + 2) '0').length - (k + 1)) :=
  rfl

/-- Zeros at the end of a whole number may be counted or not. -/
theorem inPlace_shift {n : Nat} (hn : 0 < n) (j : Nat) : inPlace ⟨10 ^ j * n, (0 : Nat)⟩ = inPlace ⟨n, j⟩ := by
  rw [inPlace_natCast, inPlace_natCast, toDigits_shift hn, List.replicate_zero, List.append_nil]

/-! ### Reading back -/

theorem ofNumeral?_append {whole rest : List Char} (hne : whole ≠ [])
    (hrest : rest.takeWhile (· != '.') = [])
    (hdigits : ∀ c ∈ whole ++ rest.drop 1, c.isDigit = true) :
    ofNumeral? (whole ++ rest) =
      some ⟨Nat.ofDigitChars 10 (whole ++ rest.drop 1) 0, -((rest.drop 1).length : Int)⟩ := by
  have hwhole : ∀ c ∈ whole, (c != '.') = true := by
    intro c hc
    rw [bne_iff_ne]
    rintro rfl
    exact absurd (hdigits '.' (List.mem_append_left _ hc)) (by decide)
  have hdrop : rest.dropWhile (· != '.') = rest := by
    have happend := List.takeWhile_append_dropWhile (p := (· != '.')) (l := rest)
    rwa [hrest, List.nil_append] at happend
  have hall : (!(whole ++ rest.drop 1).isEmpty && (whole ++ rest.drop 1).all Char.isDigit) = true := by
    rw [Bool.and_eq_true, List.all_eq_true]
    refine ⟨?_, hdigits⟩
    cases whole with
    | nil => exact absurd rfl hne
    | cons c cs => rfl
  simp only [ofNumeral?]
  rw [List.takeWhile_append_of_pos hwhole, List.dropWhile_append_of_pos hwhole, hrest, hdrop,
    List.append_nil, if_pos hall]

/-- A decimal written in place is read as it was. -/
theorem ofNumeral?_inPlace (d : Decimal) : ∃ d', ofNumeral? d.inPlace = some d' ∧ d'.value = d.value := by
  obtain ⟨n, e⟩ := d
  cases e with
  | ofNat k =>
    have hdigits := fun c => isDigit_of_mem_append_zeros (n := n) (k := k) (c := c)
    have hne : Nat.toDigits 10 n ++ List.replicate k '0' ≠ [] :=
      List.append_ne_nil_of_left_ne_nil Nat.toDigits_ne_nil _
    have hread := @ofNumeral?_append _ [] hne rfl (by rwa [List.drop_nil, List.append_nil])
    rw [List.append_nil] at hread
    refine ⟨_, hread, ?_⟩
    rw [List.drop_nil, List.append_nil, Nat.ofDigitChars_append, Nat.ofDigitChars_ten_toDigits,
      Nat.ofDigitChars_replicate_zero, value_shift, List.length_nil, Nat.cast_zero, neg_zero, zero_add]
    rfl
  | negSucc k =>
    have hlength : k + 2 ≤ ((Nat.toDigits 10 n).leftpad (k + 2) '0').length := by
      rw [List.length_leftpad]
      exact Nat.le_max_left _ _
    have hdigits := fun c => isDigit_of_mem_leftpad (n := n) (w := k + 2) (c := c)
    have hcount := ofDigitChars_leftpad n (k + 2)
    rw [Int.negSucc_eq, ← Nat.cast_succ, inPlace_neg_succ]
    generalize (Nat.toDigits 10 n).leftpad (k + 2) '0' = padded at *
    rw [← List.take_append_drop (padded.length - (k + 1)) padded] at hdigits hcount
    refine ⟨_, ofNumeral?_append ?_ rfl hdigits, ?_⟩
    · rw [← List.length_pos_iff, List.length_take]
      omega
    · rw [List.drop_one, List.tail_cons, hcount, List.length_drop,
        show padded.length - (padded.length - (k + 1)) = k + 1 by omega]

end Reckoner.Decimal
