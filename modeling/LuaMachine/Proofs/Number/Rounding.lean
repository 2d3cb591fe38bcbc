import LuaMachine.Proofs.Number.Order

namespace LuaMachine.Binary

open Float.Model (Format UnpackedFloat)

/-- A number without its last bits, rounded to the nearest, and to the even one of two that are as near. -/
def roundedShift (n shift : Nat) : Nat :=
  if 2 * (n % 2 ^ shift) < 2 ^ shift then n / 2 ^ shift
  else if 2 * (n % 2 ^ shift) = 2 ^ shift then n / 2 ^ shift + n / 2 ^ shift % 2
  else n / 2 ^ shift + 1

/-- The nearest number with 53 leading bits and zeros behind them. -/
def nearest (n : Nat) : Nat := roundedShift n (n.log2 - 52) * 2 ^ (n.log2 - 52)

section Shifting

variable (n shift : Nat)

/-- Shifting keeps the last bit that goes, and whether one went before it. -/
theorem shiftRight_succ : (⟨n, false, false⟩ : UnpackedFloat.ExtendedMantissa) >>> (shift + 1) =
    ⟨n / 2 ^ (shift + 1), n / 2 ^ shift % 2 != 0, n % 2 ^ shift != 0⟩ := by
  show Nat.repeat UnpackedFloat.ExtendedMantissa.shiftRightOne (shift + 1) _ = _
  induction shift with
  | zero => simp [Nat.repeat, UnpackedFloat.ExtendedMantissa.shiftRightOne, Nat.mod_one]
  | succ shift ih =>
    have hlost : (n / 2 ^ shift % 2 != 0 || n % 2 ^ shift != 0) = (n % 2 ^ (shift + 1) != 0) := by
      rw [Nat.mod_pow_succ, Bool.eq_iff_iff]
      have := Nat.two_pow_pos shift
      simp only [Bool.or_eq_true, bne_iff_ne, ne_eq, Nat.add_eq_zero_iff, Nat.mul_eq_zero, not_and_or]
      omega
    rw [Nat.repeat, ih, UnpackedFloat.ExtendedMantissa.shiftRightOne]
    simp only [hlost, Nat.div_div_eq_div_mul, ← Nat.pow_succ]

theorem roundedMantissa_shiftRight :
    ((⟨n, false, false⟩ : UnpackedFloat.ExtendedMantissa) >>> shift).roundedMantissa = roundedShift n shift := by
  cases shift with
  | zero =>
    rw [roundedShift]
    simp [Nat.mod_one]
    rfl
  | succ shift =>
    have hlost : n % 2 ^ shift < 2 ^ shift := Nat.mod_lt _ (Nat.two_pow_pos shift)
    rw [shiftRight_succ, roundedShift, Nat.mod_pow_succ, Nat.pow_succ]
    rcases Nat.mod_two_eq_zero_or_one (n / 2 ^ shift) with hbit | hbit
    · rw [hbit, if_pos (by omega)]
      cases hsticky : n % 2 ^ shift != 0 <;> rfl
    · rw [hbit, if_neg (by omega)]
      by_cases hzero : n % 2 ^ shift = 0
      · rw [hzero, if_pos (by omega)]
        rfl
      · rw [if_neg (by omega), bne_iff_ne.mpr hzero]
        rfl

/-- Zeros at the end are lost without a trace. -/
theorem roundedShift_mul_two_pow (zeros : Nat) :
    roundedShift (n * 2 ^ zeros) (shift + zeros) = roundedShift n shift := by
  have hpos := Nat.two_pow_pos zeros
  simp only [roundedShift, Nat.pow_add, Nat.mul_mod_mul_right, Nat.mul_div_mul_right _ _ hpos, ← Nat.mul_assoc,
    Nat.mul_lt_mul_right hpos, Nat.mul_left_inj hpos.ne']

end Shifting

section Bounds

variable {n : Nat}

theorem roundedShift_le (shift : Nat) : roundedShift n shift ≤ n / 2 ^ shift + 1 := by
  unfold roundedShift
  split
  · omega
  · split
    · have := Nat.mod_lt (n / 2 ^ shift) (show 0 < 2 by omega)
      omega
    · rfl

theorem le_roundedShift (shift : Nat) : n / 2 ^ shift ≤ roundedShift n shift := by
  unfold roundedShift
  split
  · rfl
  · split <;> omega

@[simp] theorem roundedShift_zero : roundedShift n 0 = n := by simp [roundedShift, Nat.mod_one]

/-- Numbers of at most 53 bits are not rounded. -/
theorem nearest_of_lt (h : n < 2 ^ 53) : nearest n = n := by
  have hshift : n.log2 - 52 = 0 := by
    obtain rfl | hpositive := Nat.eq_zero_or_pos n
    · rfl
    · exact Nat.sub_eq_zero_of_le (Nat.le_of_lt_succ ((Nat.log2_lt (by omega)).mpr h))
  rw [nearest, hshift, roundedShift_zero, Nat.pow_zero, Nat.mul_one]

theorem log2_mul_two_pow {n : Nat} (hn : n ≠ 0) (zeros : Nat) : (n * 2 ^ zeros).log2 = n.log2 + zeros := by
  have hlow := Nat.log2_self_le hn
  have hhigh := Nat.lt_log2_self (n := n)
  rw [Nat.log2_eq_iff (Nat.mul_ne_zero hn (Nat.two_pow_pos zeros).ne'), Nat.add_right_comm, Nat.pow_add,
    Nat.pow_add _ _ zeros]
  exact ⟨Nat.mul_le_mul_right _ hlow, Nat.mul_lt_mul_of_pos_right hhigh (Nat.two_pow_pos zeros)⟩

/-- Zeros at the end of a number stay there when it is rounded. -/
theorem nearest_mul_two_pow (n zeros : Nat) : nearest (n * 2 ^ zeros) = nearest n * 2 ^ zeros := by
  obtain rfl | hpositive := Nat.eq_zero_or_pos n
  · simp [nearest]
  · obtain hsmall | hlarge := Nat.lt_or_ge n.log2 52
    · have hlt : n < 2 ^ 53 := (Nat.log2_lt hpositive.ne').mp (by omega)
      rw [nearest_of_lt hlt, nearest, log2_mul_two_pow hpositive.ne']
      obtain hbits | ⟨more, hmore⟩ : n.log2 + zeros ≤ 52 ∨ ∃ more, n.log2 + zeros - 52 + more = zeros :=
        (Nat.le_total _ _).imp_right fun h => ⟨52 - n.log2, by omega⟩
      · rw [Nat.sub_eq_zero_of_le hbits, roundedShift_zero, Nat.pow_zero, Nat.mul_one]
      · generalize n.log2 + zeros - 52 = shift at hmore
        have hrounded := roundedShift_mul_two_pow (n * 2 ^ more) 0 shift
        rw [roundedShift_zero, Nat.zero_add, Nat.mul_assoc, ← Nat.pow_add, Nat.add_comm more, hmore] at hrounded
        rw [hrounded, Nat.mul_assoc, ← Nat.pow_add, Nat.add_comm more, hmore]
    · rw [nearest, nearest, log2_mul_two_pow hpositive.ne', Nat.sub_add_comm hlarge, roundedShift_mul_two_pow,
        Nat.pow_add, Nat.mul_assoc]

section Large

variable {shift : Nat} (hlow : 2 ^ (52 + shift) ≤ n) (hhigh : n < 2 ^ (53 + shift))
include hlow hhigh

theorem log2_of_bits : n.log2 = 52 + shift :=
  (Nat.log2_eq_iff (Nat.ne_of_gt (Nat.lt_of_lt_of_le (Nat.two_pow_pos _) hlow))).mpr
    ⟨hlow, by rwa [Nat.add_right_comm]⟩

theorem nearest_of_bits : nearest n = roundedShift n shift * 2 ^ shift := by
  rw [nearest, log2_of_bits hlow hhigh, Nat.add_sub_cancel_left]

/-- The leading bits are 53, or carry over to the least number of 54. -/
theorem roundedShift_bounds : 2 ^ 52 ≤ roundedShift n shift ∧ roundedShift n shift ≤ 2 ^ 53 := by
  have hpos := Nat.two_pow_pos shift
  constructor
  · refine le_trans ?_ (le_roundedShift shift)
    rwa [Nat.le_div_iff_mul_le hpos, ← Nat.pow_add]
  · refine (roundedShift_le shift).trans (Nat.div_lt_of_lt_mul ?_)
    rwa [Nat.mul_comm, ← Nat.pow_add]

/-- Rounding does not leave the powers of two around a number. -/
theorem nearest_bounds : 2 ^ (52 + shift) ≤ nearest n ∧ nearest n ≤ 2 ^ (53 + shift) := by
  obtain ⟨hlower, hupper⟩ := roundedShift_bounds hlow hhigh
  rw [nearest_of_bits hlow hhigh, Nat.pow_add, Nat.pow_add]
  exact ⟨Nat.mul_le_mul_right _ hlower, Nat.mul_le_mul_right _ hupper⟩

/-- Before it is rounded, a number of at least 53 bits is shifted until 53 are left. -/
theorem shiftToTargetExponent_of_bits {exponent : Int} (hexponent : -1074 ≤ exponent + shift) :
    UnpackedFloat.shiftToTargetExponent Format.binary64 n exponent .exact =
      ((⟨n, false, false⟩ : UnpackedFloat.ExtendedMantissa) >>> shift, exponent + shift) := by
  have hshift : (max (((52 + shift : Nat) : Int) + 1 + exponent - 53) (-1074) - exponent).toNat = shift := by omega
  rw [UnpackedFloat.shiftToTargetExponent, targetExponent_eq, UnpackedFloat.shiftToExponent,
    log2_of_bits hlow hhigh, hshift]
  rfl

/-- Rounding a number of at least 53 bits, times a power of two, takes the nearest one. -/
theorem exists_roundWithAccuracy (s : UnpackedFloat.Sign) (exponent : Int) (hexponent : -1074 ≤ exponent + shift) :
    ∃ (lead : Nat) (rounded : Int) (hlead : 0 < lead), 2 ^ 52 ≤ lead ∧ lead < 2 ^ 53 ∧
      exponent + shift ≤ rounded ∧ rounded ≤ exponent + shift + 1 ∧
      UnpackedFloat.roundWithAccuracy Format.binary64 s n exponent .exact = .finite s lead rounded hlead ∧
      (lead * 2 ^ rounded : ℚ) = nearest n * 2 ^ exponent := by
  obtain ⟨hlower, hupper⟩ := roundedShift_bounds hlow hhigh
  have hround : ∀ (lead zeros : Nat) (hlead : 0 < lead), 2 ^ 52 ≤ lead → lead < 2 ^ 53 →
      roundedShift n shift = lead * 2 ^ zeros →
      UnpackedFloat.roundWithAccuracy Format.binary64 s n exponent .exact =
          .finite s lead (exponent + shift + zeros) hlead ∧
        (lead * 2 ^ (exponent + shift + zeros) : ℚ) = nearest n * 2 ^ exponent := by
    intro lead zeros hlead hlow' hhigh' hrounded
    constructor
    · rw [UnpackedFloat.roundWithAccuracy, shiftToTargetExponent_of_bits hlow hhigh hexponent]
      simp only [roundedMantissa_shiftRight, hrounded,
        shiftToTargetExponent_exact hlow' hhigh' zeros (exponent + shift) (by omega)]
      rw [dif_neg (by omega)]
    · rw [nearest_of_bits hlow hhigh, hrounded, zpow_add₀ (by norm_num), zpow_add₀ (by norm_num), zpow_natCast,
        zpow_natCast]
      push_cast
      ring
  -- the rounded mantissa has 53 bits, unless all of them were ones and it was rounded up
  obtain hlt | heq := hupper.lt_or_eq
  · obtain ⟨hvalue, hnearest⟩ := hround _ 0 (by omega) hlower hlt (Nat.mul_one _).symm
    exact ⟨_, _, _, hlower, hlt, by omega, by omega, hvalue, hnearest⟩
  · obtain ⟨hvalue, hnearest⟩ := hround (2 ^ 52) 1 (by positivity) le_rfl (by norm_num) heq
    exact ⟨_, _, _, le_rfl, by norm_num, by omega, by omega, hvalue, hnearest⟩

/-- The double of a number of more than 53 bits is the nearest one. -/
theorem exists_ofScientific :
    ∃ (lead : Nat) (exponent : Int) (hlead : 0 < lead), 2 ^ 52 ≤ lead ∧ lead < 2 ^ 53 ∧
      0 ≤ exponent ∧ exponent ≤ shift + 1 ∧
      UnpackedFloat.ofScientific Format.binary64 n 0 = .finite .positive lead exponent hlead ∧
      (lead * 2 ^ exponent : ℚ) = nearest n := by
  have hnonzero : n ≠ 0 := Nat.ne_of_gt (Nat.lt_of_lt_of_le (Nat.two_pow_pos _) hlow)
  have hlow' : 2 ^ (52 + (shift + 53)) ≤ n * 2 ^ 53 := by
    rw [← Nat.add_assoc, Nat.pow_add 2 (52 + shift) 53]
    exact Nat.mul_le_mul_right _ hlow
  have hhigh' : n * 2 ^ 53 < 2 ^ (53 + (shift + 53)) := by
    rw [← Nat.add_assoc, Nat.pow_add 2 (53 + shift) 53]
    exact Nat.mul_lt_mul_of_pos_right hhigh (Nat.two_pow_pos 53)
  obtain ⟨lead, exponent, hlead, hlower, hupper, hmin, hmax, hvalue, hnearest⟩ :=
    exists_roundWithAccuracy hlow' hhigh' .positive (-53) (by omega)
  rw [← ofScientific_zero hnonzero] at hvalue
  refine ⟨lead, exponent, hlead, hlower, hupper, by omega, by omega, hvalue, ?_⟩
  have hscale : (2 : ℚ) ^ (-53 : Int) = ((2 : ℚ) ^ 53)⁻¹ := zpow_neg ..
  rw [hnearest, nearest_mul_two_pow, hscale, Nat.cast_mul, Nat.cast_pow, Nat.cast_ofNat,
    mul_inv_cancel_right₀ (by positivity)]

end Large

/-- A number of more than 53 bits has so many bits more. -/
theorem exists_bits (bound : Nat) (h : 2 ^ 53 ≤ n) (hn : n < 2 ^ (53 + bound)) :
    ∃ shift, 1 ≤ shift ∧ shift ≤ bound ∧ 2 ^ (52 + shift) ≤ n ∧ n < 2 ^ (53 + shift) := by
  have hlower := Nat.log2_self_le (n := n) (by omega)
  have hupper := Nat.lt_log2_self (n := n)
  have hlow : 53 ≤ n.log2 := (Nat.le_log2 (by omega)).mpr h
  have hhigh : n.log2 < 53 + bound := (Nat.log2_lt (by omega)).mpr hn
  refine ⟨n.log2 - 52, by omega, by omega, ?_, ?_⟩
  · rwa [Nat.add_sub_cancel' (by omega)]
  · rwa [show 53 + (n.log2 - 52) = n.log2 + 1 by omega]

theorem le_nearest (h : 2 ^ 53 ≤ n) : 2 ^ 53 ≤ nearest n := by
  obtain ⟨shift, hshift, -, hlow, hhigh⟩ :=
    exists_bits _ h (n.lt_two_pow_self.trans_le (Nat.pow_le_pow_right (by omega) (Nat.le_add_left n 53)))
  exact (Nat.pow_le_pow_right (by omega) (by omega)).trans (nearest_bounds hlow hhigh).1

theorem nearest_two_pow (k : Nat) : nearest (2 ^ k) = 2 ^ k := by
  have hzeros := nearest_mul_two_pow 1 k
  rwa [nearest_of_lt (n := 1) (by norm_num), Nat.one_mul] at hzeros

/-- What is rounded needs no more rounding. -/
theorem nearest_nearest (n : Nat) : nearest (nearest n) = nearest n := by
  obtain hsmall | hlarge := Nat.lt_or_ge n (2 ^ 53)
  · rw [nearest_of_lt hsmall, nearest_of_lt hsmall]
  · obtain ⟨shift, -, -, hlow, hhigh⟩ :=
      exists_bits _ hlarge (n.lt_two_pow_self.trans_le (Nat.pow_le_pow_right (by omega) (Nat.le_add_left n 53)))
    rw [nearest_of_bits hlow hhigh, nearest_mul_two_pow]
    obtain hlt | heq := (roundedShift_bounds hlow hhigh).2.lt_or_eq
    · rw [nearest_of_lt hlt]
    · rw [heq, nearest_two_pow]

/-- Rounding does not go beyond a power of two, -/
theorem nearest_le (shift : Nat) (h : n ≤ 2 ^ (53 + shift)) : nearest n ≤ 2 ^ (53 + shift) := by
  obtain rfl | hlt := h.eq_or_lt
  · rw [nearest_two_pow]
  · obtain hsmall | hlarge := Nat.lt_or_ge n (2 ^ 53)
    · rwa [nearest_of_lt hsmall]
    · obtain ⟨bits, -, hbits, hlow, hhigh⟩ := exists_bits _ hlarge hlt
      exact (nearest_bounds hlow hhigh).2.trans (Nat.pow_le_pow_right (by omega) (by omega))

/-- and moves a number by at most half the distance of the doubles there. -/
theorem nearest_error (shift : Nat) (h : n ≤ 2 ^ (53 + shift)) :
    2 * nearest n ≤ 2 * n + 2 ^ shift ∧ 2 * n ≤ 2 * nearest n + 2 ^ shift := by
  have hpos := Nat.two_pow_pos shift
  obtain rfl | hlt := h.eq_or_lt
  · rw [nearest_two_pow]
    omega
  · obtain hsmall | hlarge := Nat.lt_or_ge n (2 ^ 53)
    · rw [nearest_of_lt hsmall]
      omega
    · obtain ⟨bits, -, hbits, hlow, hhigh⟩ := exists_bits _ hlarge hlt
      have hscale : 2 ^ bits ≤ 2 ^ shift := Nat.pow_le_pow_right (by omega) hbits
      have hsplit := Nat.div_add_mod' n (2 ^ bits)
      have hrest : n % 2 ^ bits < 2 ^ bits := Nat.mod_lt _ (Nat.two_pow_pos bits)
      rw [nearest_of_bits hlow hhigh, roundedShift]
      generalize n % 2 ^ bits = rest at hsplit hrest ⊢
      generalize n / 2 ^ bits = lead at hsplit ⊢
      split
      · omega
      · split
        · obtain heven | hodd := Nat.mod_two_eq_zero_or_one lead
          · rw [heven, Nat.add_zero]
            omega
          · rw [hodd, Nat.add_mul]
            omega
        · rw [Nat.add_mul]
          omega

/-- The last 512 numbers of 63 bits are rounded up to the first one of 64. -/
theorem nearest_eq_iff (h : n < 2 ^ 63) : nearest n = 2 ^ 63 ↔ 2 ^ 63 - 512 ≤ n := by
  by_cases hsmall : n < 2 ^ 62
  · have hle : nearest n ≤ 2 ^ 62 := nearest_le 9 hsmall.le
    omega
  · have hlow : 2 ^ (52 + 10) ≤ n := Nat.le_of_not_lt hsmall
    rw [nearest_of_bits hlow h, roundedShift]
    split
    · omega
    · split <;> omega

/-- The numbers around the first one of 64 bits are rounded to it, -/
theorem nearest_of_close (hlow : 2 ^ 63 - 512 ≤ n) (hhigh : n ≤ 2 ^ 63 + 1024) : nearest n = 2 ^ 63 := by
  by_cases hbelow : n < 2 ^ 63
  · exact (nearest_eq_iff hbelow).mpr hlow
  · have hbits : 2 ^ (52 + 11) ≤ n := Nat.le_of_not_lt hbelow
    rw [nearest_of_bits hbits (show n < 2 ^ (53 + 11) by omega), roundedShift]
    split
    · omega
    · split <;> omega

/-- and those before them to the last double of 63 bits. -/
theorem nearest_of_below (hlow : 2 ^ 63 - 1024 ≤ n) (hhigh : n < 2 ^ 63 - 512) : nearest n = 2 ^ 63 - 1024 := by
  have hbits : 2 ^ (52 + 10) ≤ n := by omega
  rw [nearest_of_bits hbits (show n < 2 ^ (53 + 10) by omega), roundedShift]
  split
  · omega
  · split <;> omega

end Bounds

/-- The nearest integer with 53 leading bits and zeros behind them. -/
def nearestInt (i : Int) : Int := i.sign * nearest i.natAbs

section Integers

@[simp] theorem nearestInt_natCast (n : Nat) : nearestInt n = nearest n := by
  obtain rfl | hpositive := Nat.eq_zero_or_pos n
  · decide
  · rw [nearestInt, Int.sign_natCast_of_ne_zero hpositive.ne', Int.one_mul, Int.natAbs_natCast]

@[simp] theorem nearestInt_neg (i : Int) : nearestInt (-i) = -nearestInt i := by
  rw [nearestInt, nearestInt, Int.sign_neg, Int.natAbs_neg, Int.neg_mul]

variable {i : Int}

/-- Rounding an integer keeps it among the small ones, where it changes none, or among the large ones of its sign. -/
theorem nearestInt_cases (hlow : -2 ^ 63 ≤ i) (hhigh : i ≤ 2 ^ 63) :
    nearestInt i = i ∨ (2 ^ 53 ≤ i ∧ 2 ^ 53 ≤ nearestInt i ∧ nearestInt i ≤ 2 ^ 63) ∨
      (i ≤ -2 ^ 53 ∧ nearestInt i ≤ -2 ^ 53 ∧ -2 ^ 63 ≤ nearestInt i) := by
  have hnearest : ∀ n : Nat, n ≤ 2 ^ 63 → nearest n = n ∨ (2 ^ 53 ≤ n ∧ 2 ^ 53 ≤ nearest n ∧ nearest n ≤ 2 ^ 63) := by
    intro n hn
    obtain hsmall | hlarge := Nat.lt_or_ge n (2 ^ 53)
    · exact .inl (nearest_of_lt hsmall)
    · exact .inr ⟨hlarge, le_nearest hlarge, nearest_le 10 hn⟩
  obtain ⟨n, rfl | rfl⟩ := i.eq_nat_or_neg
  · have := hnearest n (by omega)
    rw [nearestInt_natCast]
    omega
  · have := hnearest n (by omega)
    rw [nearestInt_neg, nearestInt_natCast]
    omega

/-- Only the last 512 integers of 63 bits are rounded out of range. -/
theorem nearestInt_eq_iff (hhigh : i < 2 ^ 63) : nearestInt i = 2 ^ 63 ↔ 2 ^ 63 - 512 ≤ i := by
  obtain ⟨n, rfl | rfl⟩ := i.eq_nat_or_neg
  · have := nearest_eq_iff (n := n) (by omega)
    rw [nearestInt_natCast]
    omega
  · rw [nearestInt_neg, nearestInt_natCast]
    omega

theorem nearestInt_of_lt (h : i.natAbs < 2 ^ 53) : nearestInt i = i := by
  rw [nearestInt, nearest_of_lt h, Int.sign_mul_natAbs]

theorem nearestInt_of_le (h : i.natAbs ≤ 2 ^ 53) : nearestInt i = i := by
  obtain hlt | heq := Nat.lt_or_eq_of_le h
  · exact nearestInt_of_lt hlt
  · rw [nearestInt, heq, nearest_two_pow, ← heq, Int.sign_mul_natAbs]

theorem nearestInt_eq_zero_iff : nearestInt i = 0 ↔ i = 0 := by
  constructor
  · intro h
    obtain hsmall | hlarge := Nat.lt_or_ge i.natAbs (2 ^ 53)
    · rwa [nearestInt_of_lt hsmall] at h
    · have hnearest := le_nearest hlarge
      rw [nearestInt, Int.mul_eq_zero, Int.sign_eq_zero_iff_zero] at h
      omega
  · rintro rfl
    decide

theorem natAbs_nearestInt (i : Int) : (nearestInt i).natAbs = nearest i.natAbs := by
  obtain ⟨n, rfl | rfl⟩ := i.eq_nat_or_neg
  · rw [nearestInt_natCast, Int.natAbs_natCast, Int.natAbs_natCast]
  · rw [nearestInt_neg, nearestInt_natCast, Int.natAbs_neg, Int.natAbs_neg, Int.natAbs_natCast, Int.natAbs_natCast]

@[simp] theorem nearestInt_nearestInt (i : Int) : nearestInt (nearestInt i) = nearestInt i := by
  obtain ⟨n, rfl | rfl⟩ := i.eq_nat_or_neg
  · rw [nearestInt_natCast, nearestInt_natCast, nearest_nearest]
  · rw [nearestInt_neg, nearestInt_natCast, nearestInt_neg, nearestInt_natCast, nearest_nearest]

/-- Rounding does not go below a small number, -/
theorem le_nearestInt (low : Int) (hlow : 0 ≤ low) (hsmall : low ≤ 2 ^ 53) (h : low ≤ i) : low ≤ nearestInt i := by
  obtain ⟨n, rfl⟩ := Int.eq_ofNat_of_zero_le (hlow.trans h)
  rw [nearestInt_natCast]
  obtain hlt | hlarge := Nat.lt_or_ge n (2 ^ 53)
  · rwa [nearest_of_lt hlt]
  · have := le_nearest hlarge
    omega

/-- nor beyond a power of two. -/
theorem natAbs_nearestInt_le (shift : Nat) (h : i.natAbs ≤ 2 ^ (53 + shift)) :
    (nearestInt i).natAbs ≤ 2 ^ (53 + shift) := by
  rw [natAbs_nearestInt]
  exact nearest_le shift h

theorem nearestInt_of_close (hlow : 2 ^ 63 - 512 ≤ i) (hhigh : i ≤ 2 ^ 63 + 1024) : nearestInt i = 2 ^ 63 := by
  obtain ⟨n, rfl⟩ := Int.eq_ofNat_of_zero_le (show 0 ≤ i by omega)
  rw [nearestInt_natCast, nearest_of_close (by omega) (by omega)]
  rfl

theorem nearestInt_of_below (hlow : 2 ^ 63 - 1024 ≤ i) (hhigh : i < 2 ^ 63 - 512) : nearestInt i = 2 ^ 63 - 1024 := by
  obtain ⟨n, rfl⟩ := Int.eq_ofNat_of_zero_le (show 0 ≤ i by omega)
  rw [nearestInt_natCast, nearest_of_below (by omega) (by omega)]
  rfl

/-- The integers up to the first one of 64 bits that are rounded to it. -/
theorem two_pow_le_nearestInt_iff (h : i ≤ 2 ^ 63) : 2 ^ 63 ≤ nearestInt i ↔ 2 ^ 63 - 512 ≤ i := by
  constructor
  · intro hle
    obtain ⟨n, rfl | rfl⟩ := i.eq_nat_or_neg
    · rw [nearestInt_natCast] at hle
      have hbound : nearest n ≤ 2 ^ 63 := nearest_le 10 (by omega)
      obtain hlt | heq := (show n ≤ 2 ^ 63 by omega).lt_or_eq
      · have := (nearest_eq_iff hlt).mp (by omega)
        omega
      · omega
    · rw [nearestInt_neg, nearestInt_natCast] at hle
      omega
  · intro hlow
    rw [nearestInt_of_close hlow (by omega)]

/-- Rounding moves an integer by at most half the distance of the doubles there. -/
theorem nearestInt_error (shift : Nat) (h : i.natAbs ≤ 2 ^ (53 + shift)) :
    2 * nearestInt i ≤ 2 * i + 2 ^ shift ∧ 2 * i ≤ 2 * nearestInt i + 2 ^ shift := by
  obtain ⟨n, rfl | rfl⟩ := i.eq_nat_or_neg
  · have herror := nearest_error (n := n) shift (by rwa [Int.natAbs_natCast] at h)
    rw [nearestInt_natCast]
    zify at herror
    exact herror
  · have herror := nearest_error (n := n) shift (by rwa [Int.natAbs_neg, Int.natAbs_natCast] at h)
    rw [nearestInt_neg, nearestInt_natCast]
    zify at herror
    omega

end Integers

section Converting

/-- The double of a number is the nearest one. -/
theorem exists_unpack_ofNat_nearest {n : Nat} (hpositive : 0 < n) (hn : n < 2 ^ 64) :
    ∃ (lead : Nat) (exponent : Int) (hlead : 0 < lead), 2 ^ 52 ≤ lead ∧ lead < 2 ^ 53 ∧
      -1074 ≤ exponent ∧ exponent ≤ 971 ∧
      (Float.ofNat n).toModel.unpack = .finite .positive lead exponent hlead ∧
      (lead * 2 ^ exponent : ℚ) = nearest n := by
  by_cases hsmall : n < 2 ^ 53
  · have hlog : n.log2 ≤ 52 := Nat.le_of_lt_succ ((Nat.log2_lt (by omega)).mpr hsmall)
    refine ⟨_, _, _, le_normalized hpositive hlog, normalized_lt hlog, by omega, by omega,
      unpack_ofNat_of_small hpositive hsmall, ?_⟩
    rw [nearest_of_lt hsmall, show (n.log2 : Int) - 52 = -(52 - n.log2 : Nat) by omega, zpow_neg, zpow_natCast]
    push_cast
    exact mul_inv_cancel_right₀ (by positivity) _
  · obtain ⟨shift, -, hshift, hlow, hhigh⟩ := exists_bits 11 (Nat.le_of_not_lt hsmall) hn
    obtain ⟨lead, exponent, hlead, hlower, hupper, hmin, hmax, hvalue, hnearest⟩ := exists_ofScientific hlow hhigh
    refine ⟨lead, exponent, hlead, hlower, hupper, by omega, by omega, ?_, hnearest⟩
    rw [toModel_ofNat_of_large (Nat.le_of_not_lt hsmall), hvalue,
      unpack_pack_finite hlower hupper _ _ (by omega) (by omega)]

/-- The double of an integer is the nearest one. -/
theorem value_ofInt {i : Int} (hi : i.natAbs < 2 ^ 64) :
    (Float.ofInt i).isNaN = false ∧ (ofFloat (Float.ofInt i)).value = ofRat (nearestInt i) := by
  rw [ofFloat_eq_ofUnpacked]
  change (Float.ofInt i).toModel.unpack.isNaN = false ∧ _
  obtain hnegative | rfl | hpositive := lt_trichotomy i 0
  · obtain ⟨before, rfl⟩ := Int.eq_negSucc_of_lt_zero hnegative
    obtain ⟨lead, exponent, hlead, hlow, hhigh, hmin, hmax, hunpack, hnearest⟩ :=
      exists_unpack_ofNat_nearest before.succ_pos hi
    have hunpackNeg : (Float.ofInt (Int.negSucc before)).toModel.unpack = .finite .negative lead exponent hlead := by
      show (Float.Model.pack (Float.ofNat before.succ).toModel.unpack.neg).unpack = _
      rw [hunpack, UnpackedFloat.neg, unpack_pack_finite hlow hhigh _ _ hmin hmax]
      rfl
    rw [hunpackNeg, value_negative, hnearest, Int.negSucc_eq, nearestInt_neg, ← Nat.cast_succ, nearestInt_natCast]
    exact ⟨rfl, congrArg ofRat (by push_cast; rfl)⟩
  · have hunpack : (Float.ofInt 0).toModel.unpack = .zero .positive := rfl
    rw [hunpack, value_zero]
    exact ⟨rfl, rfl⟩
  · obtain ⟨n, rfl⟩ := Int.eq_ofNat_of_zero_le hpositive.le
    obtain ⟨lead, exponent, hlead, -, -, -, -, hunpack, hnearest⟩ :=
      exists_unpack_ofNat_nearest (n := n) (by omega) hi
    have hunpackOf : (Float.ofInt n).toModel.unpack = .finite .positive lead exponent hlead := hunpack
    rw [hunpackOf, value_positive, hnearest, nearestInt_natCast]
    exact ⟨rfl, rfl⟩

end Converting

end LuaMachine.Binary
