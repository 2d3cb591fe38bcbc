import LuaMachine.Proofs.Number.Double

namespace LuaMachine.Binary

open Float.Model (Format UnpackedFloat)

/-- A mantissa of 53 bits, with the leading one set unless the exponent is the least. -/
structure IsNormalized (mantissa : Nat) (exponent : Int) : Prop where
  lt : mantissa < 2 ^ 53
  le : -1074 ≤ exponent
  lead : exponent = -1074 ∨ 2 ^ 52 ≤ mantissa

theorem isNormalized_of_ofBits {bits : UInt64} {negative : Bool} {mantissa : Nat} {exponent : Int}
    (h : ofBits bits = finite negative mantissa exponent) : IsNormalized mantissa exponent := by
  have hlt := bits.toNat_lt
  unfold ofBits at h
  dsimp only at h
  split at h
  · split at h <;> cases h
  · split at h
    · cases h
      exact ⟨by omega, by omega, .inl rfl⟩
    · cases h
      exact ⟨by omega, by omega, .inr (by omega)⟩

section Magnitudes

variable {m n : Nat} {e f : Int}

theorem magnitude_lt_of_exponent_lt (hm : IsNormalized m e) (hn : IsNormalized n f) (h : e < f) :
    (m * 2 ^ e : ℚ) < n * 2 ^ f := by
  have hlead : 2 ^ 52 ≤ n := hn.lead.resolve_left (by have := hm.le; omega)
  calc (m * 2 ^ e : ℚ) < 2 ^ 53 * 2 ^ e := by
        gcongr
        exact_mod_cast hm.lt
    _ = 2 ^ 52 * 2 ^ (e + 1) := by rw [zpow_add₀ (by norm_num)]; ring
    _ ≤ n * 2 ^ f := by
        gcongr
        · exact_mod_cast hlead
        · norm_num
        · omega

/-- Magnitudes are in the order of their exponents, and of their mantissas where these are the same. -/
theorem compares_magnitudes (hm : IsNormalized m e) (hn : IsNormalized n f) :
    ((compare e f).then (compare m n)).Compares (m * 2 ^ e : ℚ) (n * 2 ^ f) := by
  rcases lt_trichotomy e f with h | rfl | h
  · rw [compare_lt_iff_lt.mpr h]
    exact magnitude_lt_of_exponent_lt hm hn h
  · rw [compare_eq_iff_eq.mpr rfl, Ordering.then]
    rcases lt_trichotomy m n with h | rfl | h
    · rw [compare_lt_iff_lt.mpr h]
      exact mul_lt_mul_of_pos_right (by exact_mod_cast h) (by positivity)
    · rw [compare_eq_iff_eq.mpr rfl]
      rfl
    · rw [compare_gt_iff_gt.mpr h]
      exact mul_lt_mul_of_pos_right (by exact_mod_cast h) (by positivity)
  · rw [compare_gt_iff_gt.mpr h]
    exact magnitude_lt_of_exponent_lt hn hm h

end Magnitudes

section Doubles

/-- A number among the values. -/
def ofRat (r : ℚ) : WithBot (WithTop ℚ) := (r : WithTop ℚ)

theorem bot_lt_ofRat (r : ℚ) : ⊥ < ofRat r := WithBot.bot_lt_coe _

theorem ofRat_lt_top (r : ℚ) : ofRat r < ⊤ := WithBot.coe_lt_coe.mpr (WithTop.coe_lt_top r)

@[simp] theorem ofRat_lt_ofRat {r q : ℚ} : ofRat r < ofRat q ↔ r < q := WithBot.coe_lt_coe.trans WithTop.coe_lt_coe

@[simp] theorem ofRat_le_ofRat {r q : ℚ} : ofRat r ≤ ofRat q ↔ r ≤ q := WithBot.coe_le_coe.trans WithTop.coe_le_coe

@[simp] theorem ofRat_inj {r q : ℚ} : ofRat r = ofRat q ↔ r = q := WithBot.coe_inj.trans WithTop.coe_inj

theorem compares_ofRat {o : Ordering} {r q : ℚ} (h : o.Compares r q) : o.Compares (ofRat r) (ofRat q) := by
  cases o with
  | lt => exact ofRat_lt_ofRat.mpr h
  | eq => exact congrArg ofRat h
  | gt => exact ofRat_lt_ofRat.mpr h

/-- What a reading stands for, with the infinities below and above all numbers. NaN stands for nothing; it counts as
zero here. -/
def value : Binary → WithBot (WithTop ℚ)
  | nan => ofRat 0
  | infinite true => ⊥
  | infinite false => ⊤
  | finite negative mantissa exponent => ofRat (signed negative mantissa * 2 ^ exponent)

theorem isNormalized_of_unpack {x : Float} {s : UnpackedFloat.Sign} {m : Nat} {e : Int} {hm : 0 < m}
    (h : x.toModel.unpack = .finite s m e hm) : IsNormalized m e := by
  have hreading : ofBits x.toBits = finite (isMinus s) m e := by
    rw [← ofFloat_eq_ofBits, ofFloat_eq_ofUnpacked, h]
    rfl
  exact isNormalized_of_ofBits hreading

theorem value_zero (s : UnpackedFloat.Sign) : (ofUnpacked (.zero s)).value = ofRat 0 := by
  cases s <;> simp [ofUnpacked, value, isMinus, signed]

theorem value_positive (m : Nat) (e : Int) (hm : 0 < m) :
    (ofUnpacked (.finite .positive m e hm)).value = ofRat (m * 2 ^ e) := by
  simp [ofUnpacked, value, isMinus, signed]

theorem value_negative (m : Nat) (e : Int) (hm : 0 < m) :
    (ofUnpacked (.finite .negative m e hm)).value = ofRat (-(m * 2 ^ e)) := by
  simp [ofUnpacked, value, isMinus, signed]

section Signs

variable {m n : Nat} {e f : Int} (hm : 0 < m) (hn : 0 < n)

theorem value_negative_lt_zero : (ofUnpacked (.finite .negative m e hm)).value < ofRat 0 := by
  rw [value_negative, ofRat_lt_ofRat, neg_lt_zero]
  positivity

theorem zero_lt_value_positive : ofRat 0 < (ofUnpacked (.finite .positive m e hm)).value := by
  rw [value_positive, ofRat_lt_ofRat]
  positivity

theorem compares_neg {o : Ordering} {r q : ℚ} (h : o.Compares r q) : o.swap.Compares (-r) (-q) := by
  cases o with
  | lt | gt => exact neg_lt_neg h
  | eq => exact congrArg Neg.neg h

/-- Finite doubles of one sign are in the order of their magnitudes, or against it. -/
theorem compares_finite (s t : UnpackedFloat.Sign) (h : IsNormalized m e) (h' : IsNormalized n f) :
    ∃ o, (UnpackedFloat.finite s m e hm).compare (.finite t n f hn) = some o ∧
      o.Compares (ofUnpacked (.finite s m e hm)).value (ofUnpacked (.finite t n f hn)).value := by
  have hcompares := compares_magnitudes h h'
  cases s with
  | positive =>
    cases t with
    | positive => exact ⟨_, rfl, by rw [value_positive, value_positive]; exact compares_ofRat hcompares⟩
    | negative => exact ⟨.gt, rfl, (value_negative_lt_zero hn).trans (zero_lt_value_positive hm)⟩
  | negative =>
    cases t with
    | positive => exact ⟨.lt, rfl, (value_negative_lt_zero hm).trans (zero_lt_value_positive hn)⟩
    | negative => exact ⟨_, rfl, by rw [value_negative, value_negative]; exact compares_ofRat (compares_neg hcompares)⟩

end Signs

/-- Comparing doubles that are not NaN compares what they stand for. -/
theorem compares_unpacked {x y : Float} (hx : x.isNaN = false) (hy : y.isNaN = false) :
    ∃ o, x.toModel.unpack.compare y.toModel.unpack = some o ∧ o.Compares (ofFloat x).value (ofFloat y).value := by
  have hunpackX : x.toModel.unpack.isNaN = false := hx
  have hunpackY : y.toModel.unpack.isNaN = false := hy
  rw [ofFloat_eq_ofUnpacked, ofFloat_eq_ofUnpacked]
  cases hu : x.toModel.unpack with
  | notANumber => simp [hu, UnpackedFloat.isNaN] at hunpackX
  | infinity s =>
    cases hv : y.toModel.unpack with
    | notANumber => simp [hv, UnpackedFloat.isNaN] at hunpackY
    | infinity t =>
      cases s <;> cases t
      · exact ⟨.eq, rfl, rfl⟩
      · exact ⟨.lt, rfl, bot_lt_top⟩
      · exact ⟨.gt, rfl, bot_lt_top⟩
      · exact ⟨.eq, rfl, rfl⟩
    | zero | finite =>
      cases s with
      | negative => exact ⟨.lt, rfl, bot_lt_ofRat _⟩
      | positive => exact ⟨.gt, rfl, ofRat_lt_top _⟩
  | zero s =>
    cases hv : y.toModel.unpack with
    | notANumber => simp [hv, UnpackedFloat.isNaN] at hunpackY
    | infinity t =>
      cases t with
      | negative => exact ⟨.gt, rfl, bot_lt_ofRat _⟩
      | positive => exact ⟨.lt, rfl, ofRat_lt_top _⟩
    | zero t => exact ⟨.eq, rfl, (value_zero s).trans (value_zero t).symm⟩
    | finite t n f hn =>
      rw [value_zero]
      cases t with
      | negative => exact ⟨.gt, rfl, value_negative_lt_zero hn⟩
      | positive => exact ⟨.lt, rfl, zero_lt_value_positive hn⟩
  | finite s m e hm =>
    cases hv : y.toModel.unpack with
    | notANumber => simp [hv, UnpackedFloat.isNaN] at hunpackY
    | infinity t =>
      cases t with
      | negative => cases s <;> exact ⟨.gt, rfl, bot_lt_ofRat _⟩
      | positive => cases s <;> exact ⟨.lt, rfl, ofRat_lt_top _⟩
    | zero t =>
      rw [value_zero]
      cases s with
      | negative => exact ⟨.lt, rfl, value_negative_lt_zero hm⟩
      | positive => exact ⟨.gt, rfl, zero_lt_value_positive hm⟩
    | finite t n f hn => exact compares_finite hm hn s t (isNormalized_of_unpack hu) (isNormalized_of_unpack hv)

theorem value_ofFloat_zero : (ofFloat 0.0).value = ofRat 0 := by
  have hunpack : (0.0 : Float).toModel.unpack = .zero .positive := rfl
  rw [ofFloat_eq_ofUnpacked, hunpack, value_zero]

theorem ofFloat_ne_nan {x : Float} (hnan : x.isNaN = false) : ofFloat x ≠ nan := by
  have hunpack : x.toModel.unpack.isNaN = false := hnan
  rw [ofFloat_eq_ofUnpacked]
  cases hu : x.toModel.unpack with
  | notANumber => simp [hu, UnpackedFloat.isNaN] at hunpack
  | infinity | zero | finite => exact nofun

/-- A reading whose value is an integer reads as that integer. -/
theorem integer?_of_value {negative : Bool} {mantissa : Nat} {exponent n : Int}
    (h : (finite negative mantissa exponent).value = ofRat n) :
    (finite negative mantissa exponent).integer? = some n := by
  have hvalue : (signed negative mantissa * 2 ^ exponent : ℚ) = n := ofRat_inj.mp h
  obtain ⟨shift, rfl | rfl⟩ := exponent.eq_nat_or_neg
  · rw [integer?_mul_two_pow]
    rw [zpow_natCast] at hvalue
    have hn : signed negative mantissa * 2 ^ shift = n := by exact_mod_cast hvalue
    rw [← hn]
    cases negative <;> simp [signed]
  · rw [zpow_neg, zpow_natCast, ← div_eq_mul_inv, div_eq_iff (by positivity)] at hvalue
    have hmantissa : signed negative mantissa = n * 2 ^ shift := by exact_mod_cast hvalue
    have hmagnitude : mantissa = n.natAbs * 2 ^ shift := by
      have := congrArg Int.natAbs hmantissa
      rw [Int.natAbs_mul, Int.natAbs_pow] at this
      cases negative <;> simpa [signed] using this
    have hn : signed negative n.natAbs = n := by
      have hpos : (2 : Int) ^ shift ≠ 0 := by positivity
      apply mul_right_cancel₀ hpos
      rw [← hmantissa, hmagnitude]
      cases negative <;> simp [signed]
    rw [hmagnitude, integer?_div_two_pow, hn]

section Order

variable {x y : Float} (hx : x.isNaN = false) (hy : y.isNaN = false)
include hx hy

theorem beq_iff_value : (x == y) = true ↔ (ofFloat x).value = (ofFloat y).value := by
  obtain ⟨o, ho, hcompares⟩ := compares_unpacked hx hy
  change (x.toModel.unpack.compare y.toModel.unpack == some .eq) = true ↔ _
  rw [ho, ← hcompares.eq_eq]
  cases o <;> decide

theorem lt_iff_value : x < y ↔ (ofFloat x).value < (ofFloat y).value := by
  obtain ⟨o, ho, hcompares⟩ := compares_unpacked hx hy
  change decide (x.toModel.unpack.compare y.toModel.unpack == some .lt) = true ↔ _
  rw [ho, ← hcompares.eq_lt]
  cases o <;> decide

theorem le_iff_value : x ≤ y ↔ (ofFloat x).value ≤ (ofFloat y).value := by
  obtain ⟨o, ho, hcompares⟩ := compares_unpacked hx hy
  change decide ((x.toModel.unpack.compare y.toModel.unpack).any (·.isLE)) = true ↔ _
  rw [ho, ← not_lt, ← hcompares.eq_gt]
  cases o <;> decide

end Order

end Doubles

end LuaMachine.Binary
