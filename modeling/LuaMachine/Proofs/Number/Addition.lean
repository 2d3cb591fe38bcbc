import LuaMachine.Proofs.Number.Rounding

namespace LuaMachine.Binary

open Float.Model (Format UnpackedFloat)

/-- A double is a whole number. Zero is the one without a sign. -/
structure IsWhole (x : Float) (n : Int) : Prop where
  isNaN : x.isNaN = false
  value : (ofFloat x).value = ofRat n
  unsigned : n = 0 → (ofFloat x).isNegative = false

section Rounding

variable {m n : Nat} {e : Int}

theorem nearest_mul_zpow (hvalue : (m * 2 ^ e : ℚ) = n) : (nearest m * 2 ^ e : ℚ) = nearest n := by
  obtain ⟨shift, rfl | rfl⟩ := e.eq_nat_or_neg
  · rw [zpow_natCast] at hvalue ⊢
    have hn : m * 2 ^ shift = n := by exact_mod_cast hvalue
    rw [← hn, nearest_mul_two_pow]
    push_cast
    rfl
  · rw [zpow_neg, zpow_natCast, ← div_eq_mul_inv, div_eq_iff (by positivity)] at hvalue
    have hm : m = n * 2 ^ shift := by exact_mod_cast hvalue
    rw [zpow_neg, zpow_natCast, hm, nearest_mul_two_pow]
    push_cast
    exact mul_inv_cancel_right₀ (by positivity) _

/-- A whole number with a mantissa of any size has so many bits as it says. -/
theorem bits_of_value (hm : 0 < m) (hvalue : (m * 2 ^ e : ℚ) = n) {bits : Nat} (hn : n < 2 ^ bits) :
    0 ≤ m.log2 + e ∧ m.log2 + e < bits := by
  have hlow : (2 ^ m.log2 : ℚ) ≤ m := by exact_mod_cast Nat.log2_self_le hm.ne'
  have hhigh : (m : ℚ) < 2 ^ (m.log2 + 1) := by exact_mod_cast Nat.lt_log2_self
  have hpositive : 0 < n := by
    have : (0 : ℚ) < n := hvalue ▸ by positivity
    exact_mod_cast this
  constructor
  · have hone : (2 : ℚ) ^ (0 : Int) < 2 ^ (((m.log2 + 1 : Nat) : Int) + e) := by
      rw [zpow_zero, zpow_add₀ (by norm_num), zpow_natCast]
      calc (1 : ℚ) ≤ n := by exact_mod_cast hpositive
        _ = m * 2 ^ e := hvalue.symm
        _ < 2 ^ (m.log2 + 1) * 2 ^ e := by gcongr
    have := (zpow_lt_zpow_iff_right₀ (by norm_num)).mp hone
    omega
  · have hlarge : (2 : ℚ) ^ ((m.log2 : Int) + e) < 2 ^ (bits : Int) := by
      rw [zpow_add₀ (by norm_num), zpow_natCast, zpow_natCast]
      calc (2 ^ m.log2 * 2 ^ e : ℚ) ≤ m * 2 ^ e := by gcongr
        _ = n := hvalue
        _ < 2 ^ bits := by exact_mod_cast hn
    exact (zpow_lt_zpow_iff_right₀ (by norm_num)).mp hlarge

/-- Rounding a whole number, whatever its mantissa and exponent are. -/
theorem exists_round (s : UnpackedFloat.Sign) (hm : 0 < m) (hvalue : (m * 2 ^ e : ℚ) = n) (hn : n < 2 ^ 100) :
    ∃ (lead : Nat) (rounded : Int) (hlead : 0 < lead), 2 ^ 52 ≤ lead ∧ lead < 2 ^ 53 ∧
      -1074 ≤ rounded ∧ rounded ≤ 971 ∧
      UnpackedFloat.round Format.binary64 s m e = .finite s lead rounded hlead ∧
      (lead * 2 ^ rounded : ℚ) = nearest n := by
  obtain ⟨hwhole, hbits⟩ := bits_of_value hm hvalue hn
  have hlow := Nat.log2_self_le hm.ne'
  have hhigh := Nat.lt_log2_self (n := m)
  -- a short mantissa is filled up with zeros
  have hlower : 2 ^ (52 + (m.log2 - 52)) ≤ m * 2 ^ (52 - m.log2) :=
    calc 2 ^ (52 + (m.log2 - 52)) = 2 ^ m.log2 * 2 ^ (52 - m.log2) := by rw [← Nat.pow_add]; congr 1; omega
      _ ≤ m * 2 ^ (52 - m.log2) := Nat.mul_le_mul_right _ hlow
  have hupper : m * 2 ^ (52 - m.log2) < 2 ^ (53 + (m.log2 - 52)) :=
    calc m * 2 ^ (52 - m.log2) < 2 ^ (m.log2 + 1) * 2 ^ (52 - m.log2) :=
          Nat.mul_lt_mul_of_pos_right hhigh (Nat.two_pow_pos _)
      _ = 2 ^ (53 + (m.log2 - 52)) := by rw [← Nat.pow_add]; congr 1; omega
  have hshift : (e - max ((m.log2 : Int) + 1 + e - 53) (-1074)).toNat = 52 - m.log2 := by omega
  obtain ⟨lead, rounded, hlead, hleadLow, hleadHigh, hmin, hmax, hround, hnearest⟩ :=
    exists_roundWithAccuracy hlower hupper s (e - (52 - m.log2 : Nat)) (by omega)
  refine ⟨lead, rounded, hlead, hleadLow, hleadHigh, by omega, by omega, ?_, ?_⟩
  · rw [UnpackedFloat.round, targetExponent_eq, UnpackedFloat.decreaseExponent]
    simp only [hshift, Nat.shiftLeft_eq]
    exact hround
  · rw [hnearest, nearest_mul_two_pow, ← nearest_mul_zpow hvalue, zpow_sub₀ (by norm_num), zpow_natCast]
    push_cast
    field_simp

end Rounding

section Doubles

variable {x y : Float} {p q n : Int}

/-- The two forms of a double that is a whole number. -/
theorem IsWhole.cases (h : IsWhole x n) : (n = 0 ∧ x.toModel.unpack = .zero .positive) ∨
    ∃ s m e hm, x.toModel.unpack = .finite s m e hm ∧ (s.apply m * 2 ^ e : ℚ) = n := by
  have hnumber : x.toModel.unpack.isNaN = false := h.isNaN
  have hvalue := h.value
  have hunsigned := h.unsigned
  rw [ofFloat_eq_ofUnpacked] at hvalue hunsigned
  cases hunpack : x.toModel.unpack with
  | notANumber => simp [hunpack, UnpackedFloat.isNaN] at hnumber
  | infinity s =>
    rw [hunpack] at hvalue
    cases s with
    | negative => exact absurd hvalue (bot_lt_ofRat _).ne
    | positive => exact absurd hvalue (ofRat_lt_top _).ne'
  | zero s =>
    rw [hunpack] at hvalue hunsigned
    rw [value_zero, ofRat_inj] at hvalue
    have hzero : n = 0 := by exact_mod_cast hvalue.symm
    cases s with
    | negative => exact absurd (hunsigned hzero) (by decide)
    | positive => exact .inl ⟨hzero, rfl⟩
  | finite s m e hm =>
    rw [hunpack] at hvalue
    refine .inr ⟨s, m, e, hm, rfl, ?_⟩
    cases s with
    | negative =>
      rw [value_negative, ofRat_inj] at hvalue
      simpa [UnpackedFloat.Sign.apply] using hvalue
    | positive =>
      rw [value_positive, ofRat_inj] at hvalue
      simpa [UnpackedFloat.Sign.apply] using hvalue

theorem unpack_pack_zero : (Float.Model.pack (.zero .positive)).unpack = .zero .positive := by rfl

theorem isWhole_of_zero (hx : x.toModel.unpack = .zero .positive) : IsWhole x 0 where
  isNaN := by
    show x.toModel.unpack.isNaN = false
    rw [hx]
    rfl
  value := by rw [ofFloat_eq_ofUnpacked, hx, value_zero, Int.cast_zero]
  unsigned _ := by
    rw [ofFloat_eq_ofUnpacked, hx]
    rfl

theorem isWhole_of_finite {s : UnpackedFloat.Sign} {m : Nat} {e : Int} {hm : 0 < m}
    (hx : x.toModel.unpack = .finite s m e hm) (hvalue : (s.apply m * 2 ^ e : ℚ) = n) : IsWhole x n where
  isNaN := by
    show x.toModel.unpack.isNaN = false
    rw [hx]
    rfl
  value := by
    rw [ofFloat_eq_ofUnpacked, hx, ← hvalue]
    cases s with
    | negative => rw [value_negative]; simp [UnpackedFloat.Sign.apply]
    | positive => rw [value_positive]; simp [UnpackedFloat.Sign.apply]
  unsigned hzero := by
    have hscale : (2 ^ e : ℚ) ≠ 0 := by positivity
    cases s <;> simp [UnpackedFloat.Sign.apply, hzero, hm.ne', hscale] at hvalue

/-- What is rounded to a double is the nearest whole number. -/
theorem isWhole_of_round {s : UnpackedFloat.Sign} {m k : Nat} {e : Int}
    (hx : x.toModel = Float.Model.pack (UnpackedFloat.round Format.binary64 s m e)) (hm : 0 < m)
    (hvalue : (m * 2 ^ e : ℚ) = k) (hk : k < 2 ^ 100) : IsWhole x (s.apply (nearest k)) := by
  obtain ⟨lead, rounded, hlead, hlow, hhigh, hmin, hmax, hround, hnearest⟩ := exists_round s hm hvalue hk
  have hunpack : x.toModel.unpack = .finite s lead rounded hlead := by
    rw [hx, hround, unpack_pack_finite hlow hhigh s hlead hmin hmax]
  refine isWhole_of_finite hunpack ?_
  cases s with
  | negative =>
    rw [UnpackedFloat.Sign.apply, UnpackedFloat.Sign.apply]
    push_cast
    rw [← hnearest, neg_mul]
  | positive => simpa [UnpackedFloat.Sign.apply] using hnearest

theorem isWhole_of_normalize (mantissa e : Int)
    (hx : x.toModel = Float.Model.pack (UnpackedFloat.normalize Format.binary64 mantissa e .positive))
    (hvalue : (mantissa * 2 ^ e : ℚ) = n) (hn : n.natAbs < 2 ^ 100) : IsWhole x (nearestInt n) := by
  have hscale : (0 : ℚ) < 2 ^ e := by positivity
  obtain hnegative | rfl | hpositive := lt_trichotomy mantissa 0
  · obtain ⟨k, rfl⟩ : ∃ k : Nat, n = -k := Int.exists_eq_neg_ofNat (by
      have : (n : ℚ) ≤ 0 := hvalue ▸ mul_nonpos_of_nonpos_of_nonneg (by exact_mod_cast hnegative.le) hscale.le
      exact_mod_cast this)
    rw [UnpackedFloat.normalize, compare_lt_iff_lt.mpr hnegative] at hx
    rw [nearestInt_neg, nearestInt_natCast]
    refine isWhole_of_round hx (by omega) ?_ (by omega)
    rw [← Int.cast_natCast, Int.toNat_of_nonneg (by omega)]
    push_cast at hvalue ⊢
    linarith
  · have hzero : n = 0 := by simpa using hvalue.symm
    rw [hzero]
    refine isWhole_of_zero ?_
    rw [hx, UnpackedFloat.normalize, compare_eq_iff_eq.mpr rfl, unpack_pack_zero]
  · obtain ⟨k, rfl⟩ : ∃ k : Nat, n = k := Int.eq_ofNat_of_zero_le (by
      have : (0 : ℚ) ≤ n := hvalue ▸ mul_nonneg (by exact_mod_cast hpositive.le) hscale.le
      exact_mod_cast this)
    rw [UnpackedFloat.normalize, compare_gt_iff_gt.mpr hpositive] at hx
    rw [nearestInt_natCast]
    refine isWhole_of_round hx (by omega) ?_ (by omega)
    rw [← Int.cast_natCast, Int.toNat_of_nonneg (by omega)]
    exact_mod_cast hvalue

theorem natAbs_of_apply {s : UnpackedFloat.Sign} {m : Nat} {e : Int} (h : (s.apply m * 2 ^ e : ℚ) = n) :
    (m * 2 ^ e : ℚ) = n.natAbs := by
  have hscale : (0 : ℚ) < 2 ^ e := by positivity
  rw [Nat.cast_natAbs, Int.cast_abs, ← h, abs_mul, abs_of_pos hscale]
  cases s <;> simp [UnpackedFloat.Sign.apply]

/-- A whole number that is a double is the nearest one to itself. -/
theorem IsWhole.nearestInt_eq (h : IsWhole x n) : nearestInt n = n := by
  obtain ⟨rfl, -⟩ | ⟨s, m, e, hm, hunpack, hvalue⟩ := h.cases
  · decide
  · have hmagnitude := natAbs_of_apply hvalue
    have hfixed : nearest n.natAbs = n.natAbs := by
      have hnearest := nearest_mul_zpow hmagnitude
      rw [nearest_of_lt (isNormalized_of_unpack hunpack).lt, hmagnitude] at hnearest
      exact_mod_cast hnearest.symm
    rw [nearestInt, hfixed, Int.sign_mul_natAbs]

/-- Mantissas are brought to one exponent by zeros. -/
theorem aligned_value (s : UnpackedFloat.Sign) (m : Nat) {e target : Int} (h : target ≤ e) :
    (s.apply (UnpackedFloat.decreaseExponent m e target).1 * 2 ^ target : ℚ) = s.apply m * 2 ^ e := by
  obtain ⟨shift, hshift⟩ := Int.eq_ofNat_of_zero_le (Int.sub_nonneg.mpr h)
  obtain rfl : e = target + shift := by omega
  have hscale : (2 : ℚ) ^ (target + shift) = 2 ^ shift * 2 ^ target := by
    rw [zpow_add₀ (by norm_num), zpow_natCast, mul_comm]
  rw [UnpackedFloat.decreaseExponent, hshift, Int.toNat_natCast, Nat.shiftLeft_eq, hscale]
  cases s <;> simp [UnpackedFloat.Sign.apply] <;> ring

/-- The double of an integer. -/
theorem isWhole_ofInt (hn : n.natAbs < 2 ^ 64) : IsWhole (Float.ofInt n) (nearestInt n) where
  isNaN := (value_ofInt hn).1
  value := (value_ofInt hn).2
  unsigned hzero := by
    rw [nearestInt_eq_zero_iff.mp hzero]
    rfl

theorem add_eq_of_unpack {z : Float}
    (h : UnpackedFloat.add Format.binary64 x.toModel.unpack y.toModel.unpack = z.toModel.unpack) : x + y = z := by
  have hmodel : Float.Model.pack z.toModel.unpack = z.toModel := by
    cases z with
    | ofModel model =>
      cases model with
      | mk bits valid =>
        rw [Float.Model.pack, Float.Model.mk.injEq]
        exact UInt64.toBitVec_inj.mp (UnpackedFloat.pack_unpack_of_valid valid)
  show Float.ofModel (Float.Model.pack (UnpackedFloat.add Format.binary64 x.toModel.unpack y.toModel.unpack)) = z
  rw [h, hmodel]

/-- The sum of two whole numbers as doubles is the one nearest to the exact sum. -/
theorem IsWhole.add (hx : IsWhole x p) (hy : IsWhole y q) (hsum : (p + q).natAbs < 2 ^ 100) :
    IsWhole (x + y) (nearestInt (p + q)) := by
  obtain ⟨rfl, hzeroX⟩ | ⟨s, m, e, hm, hunpackX, hp⟩ := hx.cases
  · have hsame : x + y = y := by
      refine add_eq_of_unpack ?_
      obtain ⟨-, hzeroY⟩ | ⟨t, k, f, hk, hunpackY, -⟩ := hy.cases
      · rw [hzeroX, hzeroY]
        rfl
      · rw [hzeroX, hunpackY]
        rfl
    rwa [hsame, Int.zero_add, hy.nearestInt_eq]
  · obtain ⟨rfl, hzeroY⟩ | ⟨t, k, f, hk, hunpackY, hq⟩ := hy.cases
    · have hsame : x + y = x := add_eq_of_unpack (by rw [hunpackX, hzeroY]; rfl)
      rwa [hsame, Int.add_zero, hx.nearestInt_eq]
    · refine isWhole_of_normalize (s.apply (UnpackedFloat.decreaseExponent m e (min e f)).1 +
        t.apply (UnpackedFloat.decreaseExponent k f (min e f)).1) (min e f) ?_ ?_ hsum
      · show Float.Model.pack (UnpackedFloat.add Format.binary64 x.toModel.unpack y.toModel.unpack) = _
        rw [hunpackX, hunpackY]
        rfl
      · push_cast
        rw [add_mul, aligned_value s m (min_le_left e f), aligned_value t k (min_le_right e f), hp, hq]

theorem IsWhole.unpack_neg {s : UnpackedFloat.Sign} {m : Nat} {e : Int} {hm : 0 < m}
    (hunpack : x.toModel.unpack = .finite s m e hm) (hvalue : (s.apply m * 2 ^ e : ℚ) = n)
    (hsmall : n.natAbs < 2 ^ 100) : (-x).toModel.unpack = .finite (-s) m e hm := by
  obtain ⟨hlt, hmin, hlead⟩ := isNormalized_of_unpack hunpack
  obtain ⟨hwhole, hbits⟩ := bits_of_value hm (natAbs_of_apply hvalue) hsmall
  have hlog : m.log2 < 53 := (Nat.log2_lt hm.ne').mpr hlt
  show (Float.Model.pack x.toModel.unpack.neg).unpack = _
  rw [hunpack, UnpackedFloat.neg, unpack_pack_finite (hlead.resolve_left (by omega)) hlt _ hm hmin (by omega)]

theorem apply_neg (s : UnpackedFloat.Sign) (m : Int) : (-s).apply m = -s.apply m := by
  cases s with
  | negative => exact (neg_neg m).symm
  | positive => rfl

/-- The difference of two whole numbers as doubles is the one nearest to the exact difference. -/
theorem IsWhole.sub (hx : IsWhole x p) (hy : IsWhole y q) (hq : q ≠ 0) (hsmall : q.natAbs < 2 ^ 100)
    (hdifference : (p - q).natAbs < 2 ^ 100) : IsWhole (x - y) (nearestInt (p - q)) := by
  obtain ⟨hzero, -⟩ | ⟨t, k, f, hk, hunpackY, hvalue⟩ := hy.cases
  · exact absurd hzero hq
  · have hunpackNeg := IsWhole.unpack_neg hunpackY hvalue hsmall
    have hneg : IsWhole (-y) (-q) := by
      refine isWhole_of_finite hunpackNeg ?_
      rw [apply_neg]
      push_cast
      rw [← hvalue, neg_mul]
    have hsub : UnpackedFloat.sub Format.binary64 x.toModel.unpack y.toModel.unpack =
        UnpackedFloat.add Format.binary64 x.toModel.unpack (-y).toModel.unpack := by
      rw [hunpackY, hunpackNeg]
      obtain ⟨-, hzeroX⟩ | ⟨s, m, e, hm, hunpackX, -⟩ := hx.cases
      · rw [hzeroX]
        rfl
      · rw [hunpackX, UnpackedFloat.sub, UnpackedFloat.add]
        simp only [apply_neg, Int.sub_eq_add_neg]
    have hsame : x - y = x + -y := congrArg (fun v => Float.ofModel (Float.Model.pack v)) hsub
    rw [hsame, Int.sub_eq_add_neg]
    exact hx.add hneg (by omega)

end Doubles

end LuaMachine.Binary
