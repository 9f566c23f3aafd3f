import Mathlib
import Reckoner.Number.Binary64

/-!
# Numbers and their encodings

A floating-point number is kept by its encoding, except that all encodings of what is not a number are made
one. An encoding is taken apart into sign, exponent and mantissa, which say what its rank is (`parts_unpack`), and
put together again from them (`Parts.toNat_pack`). So the number made from a rank is the one of that rank
(`ofFloat_toFloat`).
-/

namespace Reckoner.Binary64

open Float.Model Float.Model.UnpackedFloat

/-! ### The parts of an encoding -/

theorem toNat_unpackExponent (b : BitVec 64) :
    (@unpackExponent Format.binary64 b).toNat = b.toNat / 2 ^ 52 % 2 ^ 11 := by
  simp [unpackExponent, BitVec.extractLsb, BitVec.extractLsb', Nat.shiftRight_eq_div_pow]

theorem toNat_unpackMantissa (b : BitVec 64) :
    (@unpackMantissa Format.binary64 b).toNat = b.toNat % 2 ^ 52 := by
  simp [unpackMantissa, BitVec.extractLsb, BitVec.extractLsb']

theorem toNat_unpackSign (b : BitVec 64) : (@unpackSign Format.binary64 b).toNat = b.toNat / 2 ^ 63 := by
  have hb := b.isLt
  simp [unpackSign, BitVec.extractLsb, BitVec.extractLsb', Nat.shiftRight_eq_div_pow]
  omega

theorem toNat_append_eq {n k : Nat} (x : BitVec n) (y : BitVec k) : (x ++ y).toNat = x.toNat * 2 ^ k + y.toNat := by
  rw [BitVec.toNat_append, ← Nat.shiftLeft_add_eq_or_of_lt y.isLt, Nat.shiftLeft_eq]

/-- A normal mantissa has its leading one put in front. -/
theorem toNat_one_append_unpackMantissa (b : BitVec 64) :
    (1#1 ++ @unpackMantissa Format.binary64 b).toNat = 2 ^ 52 + b.toNat % 2 ^ 52 := by
  rw [toNat_append_eq, toNat_unpackMantissa]
  rfl

theorem exponentBias_eq : Format.binary64.exponentBias = 1023 :=
  rfl

/-- Whether a sign is a minus. -/
def isNegative : Sign → Bool
  | .negative => true
  | .positive => false

/-- What the parts of an unpacked number say about its sign and its rank. -/
inductive Parts : UnpackedFloat → Binary64 → Prop
  | notANumber : Parts .notANumber .notANumber
  | infinite (s : Sign) : Parts (.infinity s) (.infinite (isNegative s))
  | zero (s : Sign) : Parts (.zero s) (.finite (isNegative s) 0)
  | finite (s : Sign) (binade : Nat) {m rank : Nat} {e : Int} (hpos : 0 < m) (he : e = binade - 1074)
      (hrank : rank = binade * 2 ^ 52 + m) (hm : m < 2 ^ 53) (hlow : binade = 0 ∨ 2 ^ 52 ≤ m) :
      Parts (.finite s m e hpos) (.finite (isNegative s) rank)

theorem isNegative_ofBitVec (b : BitVec 64) :
    isNegative (Sign.ofBitVec (@unpackSign Format.binary64 b)) = decide (2 ^ 63 ≤ b.toNat) := by
  have hsign := toNat_unpackSign b
  have hb := b.isLt
  by_cases hlow : b.toNat < 2 ^ 63
  · have hzero : @unpackSign Format.binary64 b = 0#1 := by
      apply BitVec.eq_of_toNat_eq
      rw [hsign]
      change b.toNat / 2 ^ 63 = 0
      omega
    rw [hzero, decide_eq_false (by omega)]
    rfl
  · have hone : @unpackSign Format.binary64 b = 1#1 := by
      apply BitVec.eq_of_toNat_eq
      rw [hsign]
      change b.toNat / 2 ^ 63 = 1
      omega
    rw [hone, decide_eq_true (by omega)]
    rfl

theorem ofBits_of_lt {n : Nat} (h : n % 2 ^ 63 < infinityRank) :
    ofBits n = .finite (decide (2 ^ 63 ≤ n)) (n % 2 ^ 63) :=
  if_pos h

theorem ofBits_of_eq {n : Nat} (h : n % 2 ^ 63 = infinityRank) : ofBits n = .infinite (decide (2 ^ 63 ≤ n)) := by
  rw [ofBits, h, if_neg (lt_irrefl _), if_pos rfl]

theorem ofBits_of_gt {n : Nat} (h : infinityRank < n % 2 ^ 63) : ofBits n = .notANumber := by
  rw [ofBits, if_neg h.not_gt, if_neg h.ne']

/-- In a binade below the highest one a number's rank is its binade with its mantissa behind it. -/
theorem parts_finite {n binade m : Nat} {e : Int} {s : Sign} (hsign : isNegative s = decide (2 ^ 63 ≤ n))
    (hpos : 0 < m) (he : e = binade - 1074) (hrank : n % 2 ^ 63 = binade * 2 ^ 52 + m) (hm : m < 2 ^ 53)
    (hlow : binade = 0 ∨ 2 ^ 52 ≤ m) (hhigh : binade < 2046) : Parts (.finite s m e hpos) (ofBits n) := by
  have hfinite : n % 2 ^ 63 < infinityRank := by
    rw [infinityRank]
    omega
  rw [ofBits_of_lt hfinite, ← hsign]
  exact .finite s binade hpos he hrank hm hlow

theorem parts_unpack (b : BitVec 64) : Parts (UnpackedFloat.unpack Format.binary64 b) (ofBits b.toNat) := by
  have he := toNat_unpackExponent b
  have hm := toNat_unpackMantissa b
  have hsign := isNegative_ofBitVec b
  have hones : (-1#11).toNat = 2047 := rfl
  have hinfinity : infinityRank = 2047 * 2 ^ 52 := rfl
  simp only [UnpackedFloat.unpack]
  generalize Sign.ofBitVec (@unpackSign Format.binary64 b) = s at *
  have hbound : (@unpackExponent Format.binary64 b).toNat < 2 ^ 11 := BitVec.isLt _
  -- the fields decide the shape: infinite, no number, zero, subnormal, normal with its leading one put in front
  split_ifs with hexp hmantissa hexp' hmantissa'
  · rw [hexp, hones] at he
    rw [hmantissa, BitVec.toNat_zero] at hm
    rw [ofBits_of_eq (by omega), ← hsign]
    exact .infinite s
  · rw [hexp, hones] at he
    have hne : b.toNat % 2 ^ 52 ≠ 0 := by
      intro hzero
      rw [hzero] at hm
      exact hmantissa (BitVec.eq_of_toNat_eq hm)
    rw [ofBits_of_gt (by omega)]
    exact .notANumber
  · rw [hexp', BitVec.toNat_zero] at he
    rw [hmantissa', BitVec.toNat_zero] at hm
    have hrank : b.toNat % 2 ^ 63 = 0 := by omega
    rw [ofBits_of_lt (by omega), hrank, ← hsign]
    exact .zero s
  · rw [hexp', BitVec.toNat_zero] at he
    refine parts_finite hsign _ (?_ : _ = ((0 : Nat) : Int) - 1074) (by omega) (by omega) (Or.inl rfl) (by omega)
    rw [hexp', exponentBias_eq]
    rfl
  · have hlarge : (@unpackExponent Format.binary64 b).toNat ≠ 2047 := fun h => hexp (BitVec.eq_of_toNat_eq h)
    have hsmall : (@unpackExponent Format.binary64 b).toNat ≠ 0 := fun h => hexp' (BitVec.eq_of_toNat_eq h)
    obtain ⟨binade, hbinade⟩ := Nat.exists_eq_add_one_of_ne_zero hsmall
    have happ := toNat_one_append_unpackMantissa b
    refine parts_finite hsign _ (?_ : _ = (binade : Int) - 1074) (by omega) (by omega) (Or.inr (by omega)) (by omega)
    rw [exponentBias_eq]
    omega

/-! ### Putting the parts together -/

theorem toNat_packComponents (e : BitVec 11) (m : BitVec 52) :
    (packComponents Format.binary64 .positive e m).toNat = e.toNat * 2 ^ 52 + m.toNat := by
  have hsign : (Sign.positive.toBitVec).toNat = 0 := rfl
  rw [packComponents, toNat_append_eq, toNat_append_eq, hsign, Nat.zero_mul, Nat.zero_add]

theorem mantissaBits_eq : Format.binary64.mantissaBits = 53 :=
  rfl

theorem toNat_pack_subnormal {m : Nat} {e : Int} (hpos : 0 < m) (hm : m < 2 ^ 52) (he : e = -1074) :
    (UnpackedFloat.pack Format.binary64 (.finite .positive m e hpos)).toNat = m := by
  have hlog : m.log2 < 52 := (Nat.log2_lt hpos.ne').mpr hm
  have hexp : (e + (1023 : Nat) + (52 : Nat)).toNat = 1 := by omega
  simp only [UnpackedFloat.pack, exponentBias_eq, mantissaBits_eq, hexp]
  rw [if_neg (by norm_num), if_neg (by omega), toNat_packComponents, BitVec.toNat_zero,
    BitVec.toNat_ofNat, Nat.zero_mul, Nat.zero_add, Nat.mod_eq_of_lt hm]

theorem toNat_pack_normal {m n : Nat} {e : Int} (hpos : 0 < m) (hlow : 2 ^ 52 ≤ m) (hm : m < 2 ^ 53)
    (hn : n < 2047) (he : e = n - 1075) :
    (UnpackedFloat.pack Format.binary64 (.finite .positive m e hpos)).toNat = n * 2 ^ 52 + (m - 2 ^ 52) := by
  have hlog : m.log2 = 52 := by
    have h₁ := (Nat.log2_lt hpos.ne').mpr hm
    have h₂ := (Nat.le_log2 hpos.ne').mpr hlow
    omega
  have hexp : (e + (1023 : Nat) + (52 : Nat)).toNat = n := by omega
  have hmod : m % 2 ^ 52 = m - 2 ^ 52 := by omega
  simp only [UnpackedFloat.pack, exponentBias_eq, mantissaBits_eq, hexp, hlog]
  rw [if_neg (by omega), if_pos trivial, toNat_packComponents, BitVec.toNat_ofNat, BitVec.toNat_ofNat,
    Nat.mod_eq_of_lt (by omega), hmod]

/-- A number without a minus sign is packed into its rank. -/
theorem Parts.toNat_pack {u : UnpackedFloat} {negative : Bool} {rank : Nat} (h : Parts u (.finite negative rank))
    (hsign : negative = false) (hrank : rank < infinityRank) : (UnpackedFloat.pack Format.binary64 u).toNat = rank := by
  rw [infinityRank] at hrank
  cases h with
  | zero s =>
    cases s with
    | negative => cases hsign
    | positive => rfl
  | @finite s binade m _ _ hpos he hparts hm hlow =>
    cases s with
    | negative => cases hsign
    | positive =>
      -- the lowest binade holds the subnormal numbers and the first normal ones
      by_cases hnormal : 2 ^ 52 ≤ m
      · rw [toNat_pack_normal (n := binade + 1) hpos hnormal hm (by omega) (by omega)]
        omega
      · rw [toNat_pack_subnormal hpos (by omega) (by omega)]
        omega

/-- The encoding of a number is kept as it is. -/
theorem toNat_toBits_ofBits {a : UInt64} (ha : a.toNat < infinityRank) :
    (Float.ofBits a).toBits.toNat = a.toNat := by
  have hsize : a.toNat < 2 ^ 63 := by
    rw [infinityRank] at ha
    omega
  have hparts := parts_unpack a.toBitVec
  rw [UInt64.toNat_toBitVec, ofBits_of_lt (by rwa [Nat.mod_eq_of_lt hsize]), Nat.mod_eq_of_lt hsize] at hparts
  exact hparts.toNat_pack (decide_eq_false (Nat.not_le.mpr hsize)) ha

theorem ofFloat_toFloat {r : Nat} (hr : r < infinityRank) : ofFloat (toFloat r) = .finite false r := by
  have hsize : r < 2 ^ 63 := by rw [infinityRank] at hr; omega
  have hbits : (UInt64.ofNat r).toNat = r := UInt64.toNat_ofNat_of_lt' (by rw [UInt64.size]; omega)
  rw [ofFloat, toFloat, toNat_toBits_ofBits (by rw [hbits]; exact hr), hbits, ofBits, Nat.mod_eq_of_lt hsize,
    if_pos hr, decide_eq_false (Nat.not_le.mpr hsize)]

/-- A number without a minus sign is made from its rank again. -/
theorem toFloat_of_finite {x : Float} {r : Nat} (hx : ofFloat x = .finite false r) : toFloat r = x := by
  rw [ofFloat, ofBits] at hx
  split_ifs at hx
  obtain ⟨hsign, hrank⟩ := Binary64.finite.inj hx
  have hbits : x.toBits.toNat = r := by
    rw [decide_eq_false_iff_not] at hsign
    omega
  rw [toFloat, ← hbits, UInt64.ofNat_toNat, Float.ofBits_toBits]

end Reckoner.Binary64
