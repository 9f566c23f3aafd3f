import Reckoner.Proofs.Number.Encoding

/-!
# Operations that end in a number

Adding a finite number to a number, subtracting it or multiplying by it ends in a number, infinite ones included,
and so does dividing by it if it is not zero (`IsNumber.add` and what follows it). An operation takes its operands
apart, works on the parts and encodes the outcome; none of this makes what is not a number out of numbers
(`unpack_pack_ne_notANumber`), except where two infinities or two zeros meet.
-/

namespace Reckoner.Binary64

open Float.Model Float.Model.UnpackedFloat

/-! ### Rounding -/

theorem roundWithAccuracy_ne_notANumber (spec : Format) (s : Sign) (m : Nat) (e : Int) (accuracy : Accuracy) :
    roundWithAccuracy spec s m e accuracy ≠ .notANumber := by
  simp only [roundWithAccuracy]
  split_ifs <;> simp

theorem normalize_ne_notANumber (spec : Format) (m e : Int) (s : Sign) :
    UnpackedFloat.normalize spec m e s ≠ .notANumber := by
  simp only [UnpackedFloat.normalize]
  split
  · exact roundWithAccuracy_ne_notANumber _ _ _ _ _
  · simp
  · exact roundWithAccuracy_ne_notANumber _ _ _ _ _

/-! ### Encoding and decoding -/

theorem unpack_pack_ne_notANumber {f : UnpackedFloat} (hf : f ≠ .notANumber) :
    UnpackedFloat.unpack Format.binary64 (UnpackedFloat.pack Format.binary64 f) ≠ .notANumber := by
  have hcomponents : ∀ (s : Sign) (e : BitVec 11) (m : BitVec 52), (e = -1#11 → m = 0#52) →
      UnpackedFloat.unpack Format.binary64 (packComponents Format.binary64 s e m) ≠ .notANumber := by
    intro s e m h
    simp only [UnpackedFloat.unpack, unpackExponent_packComponents, unpackMantissa_packComponents]
    split_ifs <;> simp_all
  cases f with
  | notANumber => exact absurd rfl hf
  | infinity s => exact hcomponents s _ _ fun _ => rfl
  | zero s => exact hcomponents s _ _ fun _ => rfl
  | finite s m e hm =>
    simp only [UnpackedFloat.pack]
    split_ifs with hlarge hnormal
    · exact hcomponents s _ _ fun _ => rfl
    · refine hcomponents s _ _ fun hones => ?_
      have hexp := congrArg BitVec.toNat hones
      rw [BitVec.toNat_ofNat, Nat.mod_eq_of_lt (by omega)] at hexp
      have hones' : (-1#11).toNat = 2047 := rfl
      omega
    · exact hcomponents s _ _ fun h => absurd h (by decide)

/-- A floating-point number that is a number, if an infinite one. -/
def IsNumber (x : Float) : Prop :=
  x.toModel.unpack ≠ .notANumber

theorem isNumber_of_unpacked {f : UnpackedFloat} (hf : f ≠ .notANumber) : IsNumber (.ofModel (.pack f)) :=
  unpack_pack_ne_notANumber hf

theorem unpack_eq_notANumber {b : BitVec 64} (h : infinityRank < b.toNat % 2 ^ 63) :
    UnpackedFloat.unpack Format.binary64 b = .notANumber := by
  have he := toNat_unpackExponent b
  have hm := toNat_unpackMantissa b
  have hones : (-1#11).toNat = 2047 := rfl
  rw [infinityRank] at h
  have hexp : @unpackExponent Format.binary64 b = -1#11 := by
    apply BitVec.eq_of_toNat_eq
    omega
  have hmantissa : @unpackMantissa Format.binary64 b ≠ 0#52 := by
    intro hzero
    rw [hzero, BitVec.toNat_zero] at hm
    rw [hexp] at he
    omega
  simp only [UnpackedFloat.unpack, hexp, if_true, if_neg hmantissa]

theorem IsNumber.ofFloat_ne_notANumber {x : Float} (hx : IsNumber x) : ofFloat x ≠ .notANumber := by
  intro h
  rw [ofFloat, ofBits] at h
  split_ifs at h with hfinite hinfinite
  exact hx (unpack_eq_notANumber (b := x.toBits.toBitVec) (by
    rw [UInt64.toNat_toBitVec]
    omega))

theorem unpack_ne_notANumber {b : BitVec 64} (h : b.toNat ≤ infinityRank) :
    UnpackedFloat.unpack Format.binary64 b ≠ .notANumber := by
  have he := toNat_unpackExponent b
  have hm := toNat_unpackMantissa b
  have hones : (-1#11).toNat = 2047 := rfl
  rw [infinityRank] at h
  simp only [UnpackedFloat.unpack]
  split_ifs with hexp hmantissa <;> try simp
  rw [hexp, hones] at he
  exact hmantissa (BitVec.eq_of_toNat_eq (by rw [BitVec.toNat_zero]; omega))

theorem isNumber_toFloat {r : Nat} (hr : r ≤ infinityRank) : IsNumber (toFloat r) := by
  have hbits : (UInt64.ofNat r).toBitVec.toNat = r := by
    rw [infinityRank] at hr
    rw [UInt64.toNat_toBitVec]
    exact UInt64.toNat_ofNat_of_lt' (by rw [UInt64.size]; omega)
  exact isNumber_of_unpacked (unpack_ne_notANumber (by rw [hbits]; exact hr))

/-! ### The operations -/

/-- A floating-point number that is finite and not zero. -/
def IsNonzero (x : Float) : Prop :=
  ∃ s m e hm, x.toModel.unpack = .finite s m e hm

theorem unpack_eq_finite {b : BitVec 64} (hpos : 0 < b.toNat % 2 ^ 63) (h : b.toNat % 2 ^ 63 < infinityRank) :
    ∃ s m e hm, UnpackedFloat.unpack Format.binary64 b = .finite s m e hm := by
  have he := toNat_unpackExponent b
  have hm := toNat_unpackMantissa b
  have hones : (-1#11).toNat = 2047 := rfl
  rw [infinityRank] at h
  have hexp : @unpackExponent Format.binary64 b ≠ -1#11 := by
    intro hexp
    rw [hexp] at he
    omega
  cases hunpack : UnpackedFloat.unpack Format.binary64 b with
  | finite s m e hm => exact ⟨s, m, e, hm, rfl⟩
  | zero s =>
    simp only [UnpackedFloat.unpack, if_neg hexp] at hunpack
    split_ifs at hunpack with hlow hzero
    rw [hlow, BitVec.toNat_zero] at he
    rw [hzero, BitVec.toNat_zero] at hm
    omega
  | _ =>
    simp only [UnpackedFloat.unpack, if_neg hexp] at hunpack
    split_ifs at hunpack

theorem isNonzero_of_finite {x : Float} {negative : Bool} {r : Nat} (hx : ofFloat x = .finite negative r)
    (hpos : 0 < r) : IsNonzero x := by
  rw [ofFloat, ofBits] at hx
  split_ifs at hx with hfinite
  cases hx
  exact unpack_eq_finite (b := x.toBits.toBitVec) hpos hfinite

theorem isNonzero_toFloat {r : Nat} (hpos : 0 < r) (hr : r < infinityRank) : IsNonzero (toFloat r) :=
  isNonzero_of_finite (ofFloat_toFloat hr) hpos

theorem IsNonzero.beq_zero {x : Float} (hx : IsNonzero x) : (x == 0) = false := by
  obtain ⟨s, m, e, hm, hx⟩ := hx
  have hzero : (0 : Float).toModel.unpack = .zero .positive := by rfl
  change UnpackedFloat.beq x.toModel.unpack (0 : Float).toModel.unpack = false
  rw [hx, hzero]
  cases s <;> rfl

section

variable {x y : Float}

theorem IsNumber.neg (hx : IsNumber x) : IsNumber (-x) := by
  refine isNumber_of_unpacked ?_
  rw [IsNumber] at hx
  cases hunpack : x.toModel.unpack with
  | notANumber => exact absurd hunpack hx
  | _ => simp [UnpackedFloat.neg]

/-- An operation that makes a number of the parts of its operands ends in a number. -/
theorem isNumber_operation (f : UnpackedFloat → UnpackedFloat → UnpackedFloat)
    (hf : ∀ a s m e hm, a ≠ .notANumber → f a (.finite s m e hm) ≠ .notANumber) (hx : IsNumber x)
    (hy : IsNonzero y) : IsNumber (.ofModel (.pack (f x.toModel.unpack y.toModel.unpack))) := by
  obtain ⟨s, m, e, hm, hy⟩ := hy
  refine isNumber_of_unpacked ?_
  rw [hy]
  exact hf _ s m e hm hx

theorem IsNumber.add (hx : IsNumber x) (hy : IsNonzero y) : IsNumber (x + y) := by
  refine isNumber_operation (UnpackedFloat.add Format.binary64) (fun a s m e hm ha => ?_) hx hy
  cases a with
  | notANumber => exact absurd rfl ha
  | finite => exact normalize_ne_notANumber _ _ _ _
  | _ => simp [UnpackedFloat.add]

theorem IsNumber.sub (hx : IsNumber x) (hy : IsNonzero y) : IsNumber (x - y) := by
  refine isNumber_operation (UnpackedFloat.sub Format.binary64) (fun a s m e hm ha => ?_) hx hy
  cases a with
  | notANumber => exact absurd rfl ha
  | finite => exact normalize_ne_notANumber _ _ _ _
  | _ => simp [UnpackedFloat.sub]

theorem IsNumber.mul (hx : IsNumber x) (hy : IsNonzero y) : IsNumber (x * y) := by
  refine isNumber_operation (UnpackedFloat.mul Format.binary64) (fun a s m e hm ha => ?_) hx hy
  cases a with
  | notANumber => exact absurd rfl ha
  | finite => exact roundWithAccuracy_ne_notANumber _ _ _ _ _
  | _ => simp [UnpackedFloat.mul]

theorem IsNumber.div (hx : IsNumber x) (hy : IsNonzero y) : IsNumber (x / y) := by
  refine isNumber_operation (UnpackedFloat.div Format.binary64) (fun a s m e hm ha => ?_) hx hy
  cases a with
  | notANumber => exact absurd rfl ha
  | finite => exact roundWithAccuracy_ne_notANumber _ _ _ _ _
  | _ => simp [UnpackedFloat.div]

end

end Reckoner.Binary64
