import Mathlib
import LuaMachine.Number.Double

namespace LuaMachine.Binary

open Float.Model (Format UnpackedFloat)

/-- The exact reading of the double with some bits. -/
def ofBits (bits : UInt64) : Binary :=
  let bits : Nat := bits.toNat
  let negative := bits / 0x8000000000000000 == 1
  let biased : Nat := bits / 0x10000000000000 % 2048
  let fraction : Nat := bits % 0x10000000000000
  if biased = 2047 then
    if fraction = 0 then infinite negative else nan
  else if biased = 0 then finite negative fraction (-1074)
  else finite negative (0x10000000000000 + fraction) ((biased : Int) - 1075)

theorem ofFloat_eq_ofBits (x : Float) : ofFloat x = ofBits x.toBits := rfl

/-- Whether a sign is the negative one. -/
def isMinus : UnpackedFloat.Sign → Bool
  | .positive => false
  | .negative => true

/-- The exact reading of a double that was taken apart. -/
def ofUnpacked : UnpackedFloat → Binary
  | .notANumber => nan
  | .infinity s => infinite (isMinus s)
  | .zero s => finite (isMinus s) 0 (-1074)
  | .finite s mantissa exponent _ => finite (isMinus s) mantissa exponent

section Fields

variable (bits : UInt64)

theorem toNat_unpackExponent :
    (@UnpackedFloat.unpackExponent Format.binary64 bits.toBitVec).toNat =
      bits.toNat / 0x10000000000000 % 2048 := by
  rw [UnpackedFloat.unpackExponent_def, BitVec.extractLsb'_toNat, Nat.shiftRight_eq_div_pow]
  rfl

theorem toNat_unpackMantissa :
    (@UnpackedFloat.unpackMantissa Format.binary64 bits.toBitVec).toNat =
      bits.toNat % 0x10000000000000 := by
  rw [UnpackedFloat.unpackMantissa_def, BitVec.extractLsb'_toNat]
  rfl

theorem isMinus_unpackSign :
    isMinus (UnpackedFloat.Sign.ofBitVec (@UnpackedFloat.unpackSign Format.binary64 bits.toBitVec)) =
      (bits.toNat / 0x8000000000000000 == 1) := by
  have hsign : (@UnpackedFloat.unpackSign Format.binary64 bits.toBitVec).toNat =
      bits.toNat / 0x8000000000000000 := by
    have hlt := bits.toNat_lt
    rw [UnpackedFloat.unpackSign_def, BitVec.extractLsb'_toNat, Nat.shiftRight_eq_div_pow]
    show bits.toNat / 2 ^ 63 % 2 = _
    omega
  have hminus (v : BitVec 1) : isMinus (UnpackedFloat.Sign.ofBitVec v) = (v.toNat == 1) := by
    revert v
    decide
  rw [hminus, hsign]

/-- Taking the bits apart gives the same reading. -/
theorem ofUnpacked_unpack :
    ofUnpacked (UnpackedFloat.unpack Format.binary64 bits.toBitVec) = ofBits bits := by
  have hexponent := toNat_unpackExponent bits
  have hmantissa := toNat_unpackMantissa bits
  have hsign := isMinus_unpackSign bits
  have hones : @UnpackedFloat.unpackExponent Format.binary64 bits.toBitVec = -1#11 ↔
      bits.toNat / 0x10000000000000 % 2048 = 2047 := by
    rw [← BitVec.toNat_inj, hexponent]
    rfl
  have hzeros : @UnpackedFloat.unpackExponent Format.binary64 bits.toBitVec = 0#11 ↔
      bits.toNat / 0x10000000000000 % 2048 = 0 := by
    rw [← BitVec.toNat_inj, hexponent]
    rfl
  have hnone : @UnpackedFloat.unpackMantissa Format.binary64 bits.toBitVec = 0#52 ↔
      bits.toNat % 0x10000000000000 = 0 := by
    rw [← BitVec.toNat_inj, hmantissa]
    rfl
  unfold ofBits UnpackedFloat.unpack
  simp only [hones, hzeros, hnone]
  split
  · split
    · exact congrArg infinite hsign
    · rfl
  · split
    · rename_i hbiased
      split
      · rename_i hfraction
        rw [hfraction]
        exact congrArg (finite · 0 (-1074)) hsign
      · show finite _ _ _ = _
        rw [hexponent, hmantissa, hbiased, hsign]
        rfl
    · show finite _ _ _ = _
      have hlead : (1#1 ++ @UnpackedFloat.unpackMantissa Format.binary64 bits.toBitVec).toNat =
          0x10000000000000 + bits.toNat % 0x10000000000000 := by
        rw [BitVec.toNat_append, hmantissa]
        show 1 <<< 52 ||| _ = _
        rw [← Nat.shiftLeft_add_eq_or_of_lt (by omega)]
        rfl
      rw [hexponent, hsign, hlead]
      rfl

end Fields

/-- The reading of a double is that of its bits, also for a NaN, whose bits a double does not keep. -/
theorem ofFloat_ofBits (bits : UInt64) : ofFloat (Float.ofBits bits) = ofBits bits := by
  rw [ofFloat_eq_ofBits, ← ofUnpacked_unpack, ← ofUnpacked_unpack]
  have hbits : (Float.ofBits bits).toBits.toBitVec =
      if @UnpackedFloat.isNaNBits Format.binary64 bits.toBitVec then UnpackedFloat.packedNaN Format.binary64
      else bits.toBitVec := @UnpackedFloat.pack_unpack Format.binary64 bits.toBitVec (by decide)
  rw [hbits]
  split
  · rename_i hnan
    obtain ⟨hones, hsome⟩ := of_decide_eq_true hnan
    have hnotANumber : UnpackedFloat.unpack Format.binary64 bits.toBitVec = .notANumber := by
      unfold UnpackedFloat.unpack
      dsimp only
      rw [if_pos hones, if_neg hsome]
    rw [hnotANumber]
    rfl
  · rfl

/-- The bits of a double are one of its spellings. -/
theorem ofBits_toBits (x : Float) : Float.ofBits x.toBits = x := by
  have hbits : UnpackedFloat.pack Format.binary64 (UnpackedFloat.unpack Format.binary64 x.toBits.toBitVec) =
      x.toBits.toBitVec := UnpackedFloat.pack_unpack_of_valid x.toModel.valid
  cases x with
  | ofModel model =>
    cases model with
    | mk bits valid =>
      refine congrArg Float.ofModel ?_
      rw [Float.Model.ofBits, Float.Model.pack, Float.Model.mk.injEq]
      exact UInt64.toBitVec_inj.mp hbits

theorem ofFloat_eq_ofUnpacked (x : Float) : ofFloat x = ofUnpacked x.toModel.unpack := by
  rw [ofFloat_eq_ofBits, ← ofUnpacked_unpack]
  rfl

/-- Shifting out zeros loses nothing. -/
theorem shiftRight_exact (mantissa shift : Nat) :
    (⟨mantissa * 2 ^ shift, false, false⟩ : UnpackedFloat.ExtendedMantissa) >>> shift = ⟨mantissa, false, false⟩ := by
  show Nat.repeat UnpackedFloat.ExtendedMantissa.shiftRightOne shift _ = _
  induction shift generalizing mantissa with
  | zero => rw [Nat.pow_zero, Nat.mul_one, Nat.repeat]
  | succ shift ih =>
    rw [Nat.repeat, Nat.pow_succ', ← Nat.mul_assoc, ih, UnpackedFloat.ExtendedMantissa.shiftRightOne]
    simp

/-- The exponent to which a value is rounded. -/
theorem targetExponent_eq (mantissa : Nat) (exponent : Int) :
    Format.binary64.targetExponent (Float.Model.totalExponent mantissa exponent) =
      max (mantissa.log2 + 1 + exponent - 53) (-1074) := rfl

section Normal

variable {mantissa : Nat} (hlow : 2 ^ 52 ≤ mantissa) (hhigh : mantissa < 2 ^ 53)
include hlow hhigh

theorem log2_of_normal : mantissa.log2 = 52 :=
  (Nat.log2_eq_iff (by omega)).mpr ⟨hlow, hhigh⟩

/-- A value with a mantissa of 53 bits is brought to its exponent without loss. -/
theorem shiftToTargetExponent_exact (shift : Nat) (exponent : Int) (hexponent : -1074 ≤ exponent + shift) :
    UnpackedFloat.shiftToTargetExponent Format.binary64 (mantissa * 2 ^ shift) exponent .exact =
      (⟨mantissa, false, false⟩, exponent + shift) := by
  have hlog : (mantissa * 2 ^ shift).log2 = 52 + shift := by
    rw [Nat.log2_eq_iff (by positivity)]
    constructor
    · rw [Nat.pow_add]
      gcongr
    · rw [Nat.add_right_comm, Nat.pow_add]
      gcongr
  have hshift : (max (((52 + shift : Nat) : Int) + 1 + exponent - 53) (-1074) - exponent).toNat = shift := by
    omega
  rw [UnpackedFloat.shiftToTargetExponent, targetExponent_eq, UnpackedFloat.shiftToExponent, hlog, hshift]
  exact congrArg (·, exponent + (shift : Int)) (shiftRight_exact mantissa shift)

/-- A value with a mantissa of 53 bits needs no rounding. -/
theorem roundWithAccuracy_exact (s : UnpackedFloat.Sign) (shift : Nat) (exponent : Int)
    (hexponent : -1074 ≤ exponent + shift) :
    UnpackedFloat.roundWithAccuracy Format.binary64 s (mantissa * 2 ^ shift) exponent .exact =
      .finite s mantissa (exponent + shift) (by omega) := by
  have hagain := shiftToTargetExponent_exact hlow hhigh 0 (exponent + shift) (by omega)
  rw [Nat.pow_zero, Nat.mul_one] at hagain
  have hrounded : UnpackedFloat.ExtendedMantissa.roundedMantissa ⟨mantissa, false, false⟩ = mantissa := rfl
  rw [UnpackedFloat.roundWithAccuracy, shiftToTargetExponent_exact hlow hhigh shift exponent hexponent]
  simp only [hrounded, hagain]
  rw [dif_neg (by omega)]
  simp

/-- Packing and unpacking keeps a normal value. -/
theorem unpack_pack_finite (s : UnpackedFloat.Sign) {exponent : Int} (hpositive : 0 < mantissa)
    (hmin : -1074 ≤ exponent) (hmax : exponent ≤ 971) :
    (Float.Model.pack (.finite s mantissa exponent hpositive)).unpack = .finite s mantissa exponent hpositive := by
  have hbiased : (exponent + Format.binary64.exponentBias + Format.binary64.mantissaBitsWithoutImplicit).toNat =
      (exponent + 1075).toNat := by
    show (exponent + (1023 : Nat) + (52 : Nat)).toNat = _
    omega
  have hvalue : (BitVec.ofNat 11 (exponent + 1075).toNat).toNat = (exponent + 1075).toNat := by
    rw [BitVec.toNat_ofNat]
    omega
  have hones : BitVec.ofNat 11 (exponent + 1075).toNat ≠ -1#11 := by
    intro heq
    have htoNat : (exponent + 1075).toNat = 2047 := by rw [← hvalue, heq]; rfl
    omega
  have hzeros : BitVec.ofNat 11 (exponent + 1075).toNat ≠ 0#11 := by
    intro heq
    have htoNat : (exponent + 1075).toNat = 0 := by rw [← hvalue, heq]; rfl
    omega
  have hlead : (1#1 ++ BitVec.ofNat 52 mantissa).toNat = mantissa := by
    rw [BitVec.toNat_append]
    show 1 <<< 52 ||| _ = _
    rw [← Nat.shiftLeft_add_eq_or_of_lt (BitVec.isLt _), BitVec.toNat_ofNat, Nat.shiftLeft_eq]
    omega
  have hsign : UnpackedFloat.Sign.ofBitVec s.toBitVec = s := by cases s <;> rfl
  rw [Float.Model.unpack, Float.Model.pack]
  show UnpackedFloat.unpack Format.binary64 (UnpackedFloat.pack Format.binary64 _) = _
  rw [UnpackedFloat.pack]
  simp only [log2_of_normal hlow hhigh, hbiased]
  rw [if_neg (by show ¬ 2 ^ 11 ≤ _; omega), if_pos (show 52 + 1 = Format.binary64.mantissaBits from rfl),
    UnpackedFloat.unpack]
  simp only [UnpackedFloat.unpackMantissa_packComponents, UnpackedFloat.unpackExponent_packComponents,
    UnpackedFloat.unpackSign_packComponents, hones, hzeros, hlead, hsign, if_false, hvalue]
  congr 1
  show _ - ((1023 : Nat) + (52 : Nat) : Int) = exponent
  omega

end Normal

/-- A whole number without an exponent is rounded as it is. -/
theorem ofScientific_zero {n : Nat} (hn : n ≠ 0) :
    UnpackedFloat.ofScientific Format.binary64 n 0 =
      UnpackedFloat.roundWithAccuracy Format.binary64 .positive (n * 2 ^ 53) (-53) .exact := by
  rw [UnpackedFloat.ofScientific, dif_neg hn, if_neg (by norm_num), if_neg (by norm_num), if_pos le_rfl,
    UnpackedFloat.mul, Nat.shiftLeft_eq]
  congr 1
  exact Nat.mul_one _

theorem toModel_ofNat_of_large {n : Nat} (hn : 2 ^ 53 ≤ n) :
    (Float.ofNat n).toModel = Float.Model.pack (UnpackedFloat.ofScientific Format.binary64 n 0) := by
  show (Float.ofScientific n false 0).toModel = _
  rw [Float.ofScientific, dif_neg (by omega)]
  rfl

theorem toModel_ofNat_of_small {n : Nat} (hn : n < 2 ^ 53) :
    (Float.ofNat n).toModel =
      Float.Model.mul (Float.Model.ofUInt64 n.toUInt64)
        (Float.exactlyRepresentablePowersOfTen.getD 0 0).toModel := by
  show (Float.ofScientific n false 0).toModel = _
  rw [Float.ofScientific, dif_pos ⟨hn, by norm_num⟩]
  rfl

/-- The double of a number with more than 53 bits of which the last ones are zero. -/
theorem unpack_ofNat_of_large {mantissa : Nat} (shift : Nat) (hlow : 2 ^ 52 ≤ mantissa) (hhigh : mantissa < 2 ^ 53)
    (hshift : 1 ≤ shift) (hmax : shift ≤ 971) :
    (Float.ofNat (mantissa * 2 ^ shift)).toModel.unpack = .finite .positive mantissa shift (by omega) := by
  have hlarge : 2 ^ 53 ≤ mantissa * 2 ^ shift := by
    have : mantissa * 2 ^ 1 ≤ mantissa * 2 ^ shift := by gcongr; norm_num
    omega
  have hpositive : 0 < mantissa * 2 ^ shift := by positivity
  have hvalue : UnpackedFloat.ofScientific Format.binary64 (mantissa * 2 ^ shift) 0 =
      .finite .positive mantissa shift (by omega) := by
    have hround := roundWithAccuracy_exact hlow hhigh .positive (shift + 53) (-53) (by omega)
    have hexponent : (-53 : Int) + ((shift + 53 : Nat) : Int) = shift := by omega
    rw [ofScientific_zero (by omega), Nat.mul_assoc, ← Nat.pow_add, hround, hexponent]
  rw [toModel_ofNat_of_large hlarge, hvalue, unpack_pack_finite hlow hhigh _ _ (by omega) (by omega)]

/-- A number of at most 53 bits, shifted until it has 53. -/
theorem le_normalized {n : Nat} (hpositive : 0 < n) (hlog : n.log2 ≤ 52) : 2 ^ 52 ≤ n * 2 ^ (52 - n.log2) :=
  calc 2 ^ 52 = 2 ^ n.log2 * 2 ^ (52 - n.log2) := by rw [← Nat.pow_add, Nat.add_sub_cancel' hlog]
    _ ≤ n * 2 ^ (52 - n.log2) := by gcongr; exact Nat.log2_self_le (by omega)

theorem normalized_lt {n : Nat} (hlog : n.log2 ≤ 52) : n * 2 ^ (52 - n.log2) < 2 ^ 53 :=
  calc n * 2 ^ (52 - n.log2) < 2 ^ (n.log2 + 1) * 2 ^ (52 - n.log2) := by gcongr; exact Nat.lt_log2_self
    _ = 2 ^ 53 := by rw [← Nat.pow_add]; congr 1; omega

/-- The double of a number with at most 53 bits. -/
theorem unpack_ofNat_of_small {n : Nat} (hpositive : 0 < n) (hn : n < 2 ^ 53) :
    (Float.ofNat n).toModel.unpack =
      .finite .positive (n * 2 ^ (52 - n.log2)) ((n.log2 : Int) - 52) (by positivity) := by
  have hlog : n.log2 ≤ 52 := Nat.le_of_lt_succ ((Nat.log2_lt (by omega)).mpr hn)
  have hlow := le_normalized hpositive hlog
  have hhigh := normalized_lt hlog
  have hword : n.toUInt64.toNat = n := by
    rw [UInt64.toNat_ofNat']
    omega
  have hconvert : UnpackedFloat.ofUInt64 Format.binary64 n.toUInt64 =
      .finite .positive (n * 2 ^ (52 - n.log2)) ((n.log2 : Int) - 52) (by positivity) := by
    have hround := roundWithAccuracy_exact hlow hhigh .positive 0 ((n.log2 : Int) - 52) (by omega)
    rw [Nat.pow_zero, Nat.mul_one] at hround
    have hshift : (0 - max ((n.log2 : Int) + 1 + 0 - 53) (-1074)).toNat = 52 - n.log2 := by omega
    have hcompare : compare ((n.toUInt64.toNat : Nat) : Int) 0 = .gt := by
      rw [hword]
      exact compare_gt_iff_gt.mpr (by omega)
    rw [UnpackedFloat.ofUInt64, UnpackedFloat.ofNat, UnpackedFloat.ofInt, UnpackedFloat.normalize]
    simp only [hcompare]
    rw [hword, Int.toNat_natCast, UnpackedFloat.round, targetExponent_eq, UnpackedFloat.decreaseExponent]
    simp only [hshift, Nat.shiftLeft_eq]
    rw [show (0 : Int) - (52 - n.log2 : Nat) = n.log2 - 52 by omega, hround]
    congr 1
    omega
  have hone : (Float.exactlyRepresentablePowersOfTen.getD 0 0).toModel.unpack =
      .finite .positive (2 ^ 52) (-52) (by positivity) := rfl
  have hround := roundWithAccuracy_exact hlow hhigh .positive 52 ((n.log2 : Int) - 52 + -52) (by omega)
  rw [toModel_ofNat_of_small hn, Float.Model.ofUInt64, hconvert, Float.Model.mul,
    unpack_pack_finite hlow hhigh _ _ (by omega) (by omega), hone]
  show (Float.Model.pack (UnpackedFloat.roundWithAccuracy Format.binary64 .positive _ _ .exact)).unpack = _
  rw [hround, unpack_pack_finite hlow hhigh _ _ (by omega) (by omega)]
  congr 1
  omega

theorem integer?_mul_two_pow (negative : Bool) (mantissa shift : Nat) :
    (finite negative mantissa shift).integer? = some (signed negative (mantissa * 2 ^ shift)) := by
  simp [integer?]

theorem integer?_div_two_pow (negative : Bool) (n shift : Nat) :
    (finite negative (n * 2 ^ shift) (-shift)).integer? = some (signed negative n) := by
  obtain rfl | hshift := Nat.eq_zero_or_pos shift
  · simp [integer?]
  · have hneg : -(shift : Int) < 0 := by omega
    have hscale : Nat.pow 2 (-(shift : Int)).natAbs = 2 ^ shift := by rw [Int.natAbs_neg, Int.natAbs_natCast]; rfl
    simp only [integer?, if_pos hneg, hscale, Nat.mul_mod_left, if_true, Nat.mul_div_left _ (Nat.two_pow_pos shift)]

/-- An integral double is an integer of 53 bits and a power of two, with a sign. -/
theorem exists_of_integer? {bits : UInt64} {n : Int} (hn : (ofBits bits).integer? = some n) :
    ∃ negative mantissa shift, mantissa < 2 ^ 53 ∧ shift ≤ 971 ∧ n = signed negative (mantissa * 2 ^ shift) := by
  have hfinite : ∀ negative mantissa (exponent : Int), mantissa < 2 ^ 53 → exponent ≤ 971 →
      (finite negative mantissa exponent).integer? = some n →
      ∃ negative mantissa shift, mantissa < 2 ^ 53 ∧ shift ≤ 971 ∧ n = signed negative (mantissa * 2 ^ shift) := by
    intro negative mantissa exponent hmantissa hexponent hinteger
    by_cases hneg : exponent < 0
    · simp only [integer?, if_pos hneg] at hinteger
      split at hinteger
      · refine ⟨negative, mantissa / Nat.pow 2 exponent.natAbs, 0, ?_, by omega, ?_⟩
        · exact Nat.lt_of_le_of_lt (Nat.div_le_self _ _) hmantissa
        · rw [Nat.pow_zero, Nat.mul_one]
          exact (Option.some.inj hinteger).symm
      · cases hinteger
    · simp only [integer?, if_neg hneg] at hinteger
      exact ⟨negative, mantissa, exponent.natAbs, hmantissa, by omega, (Option.some.inj hinteger).symm⟩
  have hlt := bits.toNat_lt
  unfold ofBits at hn
  dsimp only at hn
  split at hn
  · split at hn <;> cases hn
  · split at hn
    · exact hfinite _ _ _ (by omega) (by omega) hn
    · exact hfinite _ _ _ (by omega) (by omega) hn

/-- The double of a natural number of 53 bits and a power of two equals it, also with a minus in front. -/
theorem exists_unpack_ofNat {mantissa shift : Nat} (hmantissa : mantissa < 2 ^ 53) (hshift : shift ≤ 971)
    (hpositive : 0 < mantissa * 2 ^ shift) :
    ∃ (lead : Nat) (exponent : Int) (hlead : 0 < lead), 2 ^ 52 ≤ lead ∧ lead < 2 ^ 53 ∧
      -1074 ≤ exponent ∧ exponent ≤ 971 ∧
      (Float.ofNat (mantissa * 2 ^ shift)).toModel.unpack = .finite .positive lead exponent hlead ∧
      ∀ negative, (finite negative lead exponent).integer? = some (signed negative (mantissa * 2 ^ shift)) := by
  generalize hn : mantissa * 2 ^ shift = n at hpositive ⊢
  have hlow := Nat.log2_self_le (n := n) (by omega)
  have hhigh := Nat.lt_log2_self (n := n)
  by_cases hsmall : n < 2 ^ 53
  · have hlog : n.log2 ≤ 52 := Nat.le_of_lt_succ ((Nat.log2_lt (by omega)).mpr hsmall)
    refine ⟨n * 2 ^ (52 - n.log2), n.log2 - 52, by positivity, le_normalized hpositive hlog, normalized_lt hlog,
      by omega, by omega, unpack_ofNat_of_small hpositive hsmall, fun negative => ?_⟩
    rw [show (n.log2 : Int) - 52 = -(52 - n.log2 : Nat) by omega]
    exact integer?_div_two_pow negative n _
  · have hlog : n.log2 < 53 + shift := by
      rw [Nat.log2_lt (by omega), ← hn, Nat.pow_add]
      gcongr
    have hlarge : 53 ≤ n.log2 := (Nat.le_log2 (by omega)).mpr (by omega)
    obtain ⟨lead, hlead⟩ : 2 ^ (n.log2 - 52) ∣ n :=
      hn ▸ Nat.dvd_mul_left_of_dvd (Nat.pow_dvd_pow 2 (by omega)) mantissa
    rw [Nat.mul_comm] at hlead
    have hlower : 2 ^ 52 ≤ lead := by
      refine Nat.le_of_mul_le_mul_right ?_ (Nat.two_pow_pos (n.log2 - 52))
      rwa [← hlead, ← Nat.pow_add, Nat.add_sub_cancel' (by omega)]
    have hupper : lead < 2 ^ 53 := by
      refine Nat.lt_of_mul_lt_mul_right (a := 2 ^ (n.log2 - 52)) ?_
      rwa [← hlead, ← Nat.pow_add, show 53 + (n.log2 - 52) = n.log2 + 1 by omega]
    refine ⟨lead, (n.log2 - 52 : Nat), by omega, hlower, hupper, by omega, by omega, ?_, fun negative => ?_⟩
    · have hunpack := unpack_ofNat_of_large (n.log2 - 52) hlower hupper (by omega) (by omega)
      rwa [← hlead] at hunpack
    · rw [integer?_mul_two_pow, ← hlead]

/-- The double of an integer that equals some double is that integer. -/
theorem integer?_ofInt {bits : UInt64} {n : Int} (hn : (ofBits bits).integer? = some n) :
    (ofFloat (Float.ofInt n)).integer? = some n := by
  obtain ⟨negative, mantissa, shift, hmantissa, hshift, rfl⟩ := exists_of_integer? hn
  rw [ofFloat_eq_ofUnpacked]
  by_cases hzero : mantissa * 2 ^ shift = 0
  · have hsigned : signed negative (mantissa * 2 ^ shift) = 0 := by
      rw [hzero]
      cases negative <;> rfl
    have hunpack : (Float.ofInt 0).toModel.unpack = .zero .positive := rfl
    have hvalue := integer?_div_two_pow false 0 1074
    rw [Nat.zero_mul] at hvalue
    rw [hsigned, hunpack]
    exact hvalue
  · obtain ⟨lead, exponent, hlead, hlow, hhigh, hmin, hmax, hunpack, hvalue⟩ :=
      exists_unpack_ofNat hmantissa hshift (Nat.pos_of_ne_zero hzero)
    generalize mantissa * 2 ^ shift = magnitude at hzero hunpack hvalue ⊢
    cases negative with
    | false =>
      show (ofUnpacked (Float.ofNat magnitude).toModel.unpack).integer? = _
      rw [hunpack]
      exact hvalue false
    | true =>
      obtain ⟨before, rfl⟩ := Nat.exists_eq_succ_of_ne_zero hzero
      show (ofUnpacked (Float.Model.pack (Float.ofNat (before + 1)).toModel.unpack.neg).unpack).integer? = _
      rw [hunpack, UnpackedFloat.neg, unpack_pack_finite hlow hhigh _ _ hmin hmax]
      exact hvalue true

end LuaMachine.Binary

namespace LuaMachine.Double

open Float.Model

/-- A number has no sign but that of its float. -/
theorem ofFloat_value {x : Double} (hnan : x.value.isNaN = false) : ofFloat x.value = x := by
  have hsign : x.isNegativeNaN = false := by
    cases h : x.isNegativeNaN with
    | false => rfl
    | true => exact absurd (x.isNaN_of_sign h) (Bool.eq_false_iff.mp hnan)
  rw [ofFloat, Double.mk.injEq]
  exact ⟨rfl, hsign.symm⟩

/-- The bits of a float have the positive sign if it is a NaN. -/
theorem ofBits_toBits (x : Float) : ofBits x.toBits = x := by
  have hsign : x.isNaN = true → ¬0x8000000000000000 ≤ x.toBits := by
    intro hnan
    have hunpack : UnpackedFloat.unpack Format.binary64 x.toBits.toBitVec = .notANumber := by
      have hnan' : (UnpackedFloat.unpack Format.binary64 x.toBits.toBitVec).isNaN = true := hnan
      cases h : UnpackedFloat.unpack Format.binary64 x.toBits.toBitVec with
      | notANumber => rfl
      | infinity | zero | finite => simp [h, UnpackedFloat.isNaN] at hnan'
    have hbits : UnpackedFloat.pack Format.binary64 (UnpackedFloat.unpack Format.binary64 x.toBits.toBitVec) =
        x.toBits.toBitVec := UnpackedFloat.pack_unpack_of_valid x.toModel.valid
    rw [hunpack] at hbits
    rw [← UInt64.ofBitVec_toBitVec x.toBits, ← hbits]
    decide
  rw [ofBits, ofFloat, Double.mk.injEq, Binary.ofBits_toBits]
  refine ⟨rfl, ?_⟩
  cases hnan : x.isNaN with
  | false => rfl
  | true => simpa using hsign hnan

end LuaMachine.Double
