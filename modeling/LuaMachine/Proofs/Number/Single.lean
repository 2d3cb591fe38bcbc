import LuaMachine.Proofs.Number.Double

namespace LuaMachine.Binary

/-- The exact reading of the single with some bits. -/
def ofSingle (bits : UInt32) : Binary :=
  let word : Nat := bits.toNat
  let negative := word / 0x80000000 == 1
  let biased : Nat := word / 0x800000 % 256
  let fraction : Nat := word % 0x800000
  if biased = 255 then
    if fraction = 0 then infinite negative else nan
  else if biased = 0 then finite negative fraction (-149)
  else finite negative (0x800000 + fraction) ((biased : Int) - 150)

/-- Two readings of one number. The zeros count as different, and every NaN as the same. -/
def Equals : Binary → Binary → Prop
  | nan, nan => True
  | infinite s, infinite t => s = t
  | finite s m e, finite t n f => s = t ∧ (m : ℚ) * 2 ^ e = n * 2 ^ f
  | _, _ => False

theorem Equals.refl (x : Binary) : x.Equals x := by
  cases x <;> first | exact ⟨rfl, rfl⟩ | exact rfl | trivial

theorem Equals.symm {x y : Binary} (h : x.Equals y) : y.Equals x := by
  cases x <;> cases y <;> first | exact ⟨h.1.symm, h.2.symm⟩ | exact Eq.symm h | exact h

theorem Equals.trans {x y z : Binary} (h : x.Equals y) (h' : y.Equals z) : x.Equals z := by
  cases x <;> cases y <;> cases z <;>
    first | exact h.elim | exact h'.elim | exact ⟨h.1.trans h'.1, h.2.trans h'.2⟩ | exact Eq.trans h h' | trivial

theorem Equals.isNegative_eq {x y : Binary} (h : x.Equals y) : x.isNegative = y.isNegative := by
  cases x <;> cases y <;> first | exact h.elim | exact h.1 | exact h | rfl

theorem signed_mul (negative : Bool) (m n : Nat) : signed negative (m * n) = signed negative m * n := by
  cases negative <;> simp [signed]

theorem natAbs_signed (negative : Bool) (m : Nat) : (signed negative m).natAbs = m := by
  cases negative <;> simp [signed]

/-- The integer of a finite reading is its value. -/
theorem integer?_finite_iff {negative : Bool} {mantissa : Nat} {exponent n : Int} :
    (finite negative mantissa exponent).integer? = some n ↔ (n : ℚ) = signed negative mantissa * 2 ^ exponent := by
  obtain ⟨shift, rfl | rfl⟩ := exponent.eq_nat_or_neg
  · rw [integer?_mul_two_pow, Option.some.injEq, signed_mul, zpow_natCast, eq_comm]
    exact_mod_cast Iff.rfl
  · rw [zpow_neg, zpow_natCast, eq_mul_inv_iff_mul_eq₀ (by positivity)]
    by_cases hdvd : 2 ^ shift ∣ mantissa
    · obtain ⟨quotient, rfl⟩ := hdvd
      rw [Nat.mul_comm, integer?_div_two_pow, Option.some.injEq, signed_mul, eq_comm]
      have hpow : (2 : Int) ^ shift ≠ 0 := by positivity
      constructor
      · rintro rfl
        push_cast
        ring
      · intro hn
        have hn : n * 2 ^ shift = signed negative quotient * 2 ^ shift := by exact_mod_cast hn
        exact Int.eq_of_mul_eq_mul_right hpow hn
    · have hinteger : (finite negative mantissa (-shift)).integer? = none := by
        have hneg : -(shift : Int) < 0 := by
          rcases Nat.eq_zero_or_pos shift with rfl | hshift
          · simp at hdvd
          · omega
        have hscale : Nat.pow 2 (-(shift : Int)).natAbs = 2 ^ shift := by
          rw [Int.natAbs_neg, Int.natAbs_natCast]
          rfl
        simp only [integer?, if_pos hneg, hscale]
        exact if_neg (mt Nat.dvd_of_mod_eq_zero hdvd)
      rw [hinteger]
      refine ⟨by rintro ⟨⟩, fun hn => absurd ?_ hdvd⟩
      have hn : n * 2 ^ shift = signed negative mantissa := by exact_mod_cast hn
      rw [← natAbs_signed negative mantissa, ← hn, Int.natAbs_mul]
      exact Nat.dvd_mul_left_of_dvd (by simp) _

theorem Equals.integer?_eq {x y : Binary} (h : x.Equals y) : x.integer? = y.integer? := by
  cases x <;> cases y <;> try first | exact h.elim | rfl
  rename_i negative mantissa exponent negative' mantissa' exponent'
  obtain ⟨rfl, hvalue⟩ := h
  have hsigned : (signed negative mantissa : ℚ) * 2 ^ exponent = signed negative mantissa' * 2 ^ exponent' := by
    cases negative <;> simp [signed, hvalue]
  ext n
  rw [integer?_finite_iff, integer?_finite_iff, hsigned]

/-- The reading of a double put together from its three fields. -/
theorem ofBits_fields (negative : Bool) (biased fraction : Nat) (hbiased : biased < 2048)
    (hfraction : fraction < 2 ^ 52) :
    ofBits (UInt64.ofNat ((if negative then 0x8000000000000000 else 0) + (biased * 0x10000000000000 + fraction))) =
      if biased = 2047 then if fraction = 0 then infinite negative else nan
      else if biased = 0 then finite negative fraction (-1074)
      else finite negative (0x10000000000000 + fraction) ((biased : Int) - 1075) := by
  have htoNat : (UInt64.ofNat ((if negative then 0x8000000000000000 else 0) +
      (biased * 0x10000000000000 + fraction))).toNat =
      (if negative then 0x8000000000000000 else 0) + (biased * 0x10000000000000 + fraction) := by
    rw [UInt64.toNat_ofNat']
    split <;> omega
  have hnegative : (((if negative then 0x8000000000000000 else 0) + (biased * 0x10000000000000 + fraction)) /
      0x8000000000000000 == 1) = negative := by
    cases negative <;> simp <;> omega
  have hb : ((if negative then 0x8000000000000000 else 0) + (biased * 0x10000000000000 + fraction)) /
      0x10000000000000 % 2048 = biased := by
    split <;> omega
  have hf : ((if negative then 0x8000000000000000 else 0) + (biased * 0x10000000000000 + fraction)) %
      0x10000000000000 = fraction := by
    split <;> omega
  rw [ofBits, htoNat]
  simp only [hnegative, hb, hf]

/-- Widening a single keeps the number. -/
theorem ofSingle_equals_widen (bits : UInt32) : (ofSingle bits).Equals (ofBits (Number.widen bits)) := by
  have hlt := bits.toNat_lt
  unfold ofSingle Number.widen
  generalize bits.toNat = word at hlt ⊢
  dsimp only
  generalize (word / 0x80000000 == 1) = negative
  have hbiased : word / 0x800000 % 256 < 256 := Nat.mod_lt _ (by norm_num)
  have hfraction : word % 0x800000 < 0x800000 := Nat.mod_lt _ (by norm_num)
  generalize word / 0x800000 % 256 = biased at hbiased ⊢
  generalize word % 0x800000 = fraction at hfraction ⊢
  by_cases hspecial : biased = 255
  · rw [if_pos hspecial, if_pos hspecial]
    obtain ⟨quiet, hquiet, hsum⟩ : ∃ quiet, (if fraction = 0 ∨ 0x400000 ≤ fraction then 0 else 0x400000) = quiet ∧
        fraction + quiet < 0x800000 := by
      refine ⟨_, rfl, ?_⟩
      split <;> omega
    have hfields := ofBits_fields negative 2047 ((fraction + quiet) * 0x20000000)
      (by norm_num) (by omega)
    rw [if_pos rfl] at hfields
    rw [hquiet, hfields]
    by_cases hzero : fraction = 0
    · have hnone : (fraction + quiet) * 0x20000000 = 0 := by
        rw [← hquiet, hzero, if_pos (Or.inl rfl)]
      rw [if_pos hzero, if_pos hnone]
      exact rfl
    · rw [if_neg hzero, if_neg (by omega)]
      trivial
  rw [if_neg hspecial, if_neg hspecial]
  by_cases hsmall : biased = 0
  · rw [if_pos hsmall, if_pos hsmall]
    by_cases hzero : fraction = 0
    · have hfields := ofBits_fields negative 0 0 (by norm_num) (by norm_num)
      rw [if_pos hzero, hfields]
      exact ⟨rfl, by simp [hzero]⟩
    · have hlead : fraction.log2 < 23 := (Nat.log2_lt hzero).mpr hfraction
      have hlow : 2 ^ 52 ≤ fraction * 2 ^ (52 - fraction.log2) := le_normalized (Nat.pos_of_ne_zero hzero) (by omega)
      have hhigh : fraction * 2 ^ (52 - fraction.log2) < 2 ^ 53 := normalized_lt (by omega)
      have hfields := (ofBits_fields negative (fraction.log2 + 874)
        (fraction * 2 ^ (52 - fraction.log2) - 0x10000000000000) (by omega) (by omega)).trans
        ((if_neg (by omega)).trans (if_neg (by omega)))
      have hvalue : (-149 : Int) = (52 - fraction.log2 : Nat) + (((fraction.log2 + 874 : Nat) : Int) - 1075) := by
        omega
      rw [if_neg hzero]
      refine (congrArg _ hfields).mpr ⟨rfl, ?_⟩
      have hmantissa : 0x10000000000000 + (fraction * 2 ^ (52 - fraction.log2) - 0x10000000000000) =
        fraction * 2 ^ (52 - fraction.log2) := Nat.add_sub_cancel' hlow
      rw [hmantissa, hvalue, zpow_add₀ (by norm_num), zpow_natCast, ← mul_assoc]
      push_cast
      rfl
  · have hfields := (ofBits_fields negative (biased + 896) (fraction * 0x20000000)
      (by omega) (by omega)).trans ((if_neg (by omega)).trans (if_neg (by omega)))
    have hmantissa : 0x10000000000000 + fraction * 0x20000000 = (0x800000 + fraction) * 2 ^ 29 := by omega
    have hexponent : (biased : Int) - 150 = (29 : Nat) + (((biased + 896 : Nat) : Int) - 1075) := by omega
    rw [if_neg hsmall, if_neg hsmall, hfields, hmantissa]
    refine ⟨rfl, ?_⟩
    rw [hexponent, zpow_add₀ (by norm_num), zpow_natCast, ← mul_assoc]
    push_cast
    rfl

/-- A mantissa of 53 bits, or of fewer at the smallest exponent. -/
structure IsCanonical (mantissa : Nat) (exponent : Int) : Prop where
  lt : mantissa < 2 ^ 53
  min_le : -1074 ≤ exponent
  normal : 2 ^ 52 ≤ mantissa ∨ exponent = -1074

theorem IsCanonical.exponent_eq {m n : Nat} {e f : Int} (hm : IsCanonical m e) (hn : IsCanonical n f)
    (hvalue : (m : ℚ) * 2 ^ e = n * 2 ^ f) (hle : e ≤ f) : e = f := by
  obtain ⟨shift, rfl⟩ := Int.le.dest hle
  rw [zpow_add₀ (by norm_num), mul_comm (2 ^ e : ℚ), ← mul_assoc] at hvalue
  have hmul : m = n * 2 ^ shift := by exact_mod_cast mul_right_cancel₀ (by positivity) hvalue
  by_contra hne
  have hshift : 1 ≤ shift := by omega
  have hnormal : 2 ^ 52 ≤ n := hn.normal.resolve_right (by have := hm.min_le; omega)
  have : 2 ^ 52 * 2 ^ 1 ≤ n * 2 ^ shift := by gcongr; norm_num
  have := hm.lt
  omega

/-- A value has one canonical reading. -/
theorem IsCanonical.unique {m n : Nat} {e f : Int} (hm : IsCanonical m e) (hn : IsCanonical n f)
    (hvalue : (m : ℚ) * 2 ^ e = n * 2 ^ f) : m = n ∧ e = f := by
  have hexponent : e = f := by
    rcases Int.le_total e f with hle | hle
    · exact hm.exponent_eq hn hvalue hle
    · exact (hn.exponent_eq hm hvalue.symm hle).symm
  subst hexponent
  exact ⟨by exact_mod_cast mul_right_cancel₀ (by positivity) hvalue, rfl⟩

/-- The bits of the double with a canonical reading. -/
def toNat : Binary → Nat
  | nan => 0
  | infinite negative => (if negative then 0x8000000000000000 else 0) + 0x7ff0000000000000
  | finite negative mantissa exponent =>
    (if negative then 0x8000000000000000 else 0) +
      if mantissa < 0x10000000000000 then mantissa
      else (exponent + 1075).toNat * 0x10000000000000 + (mantissa - 0x10000000000000)

/-- The readings of doubles that are no NaN are canonical, and tell the bits. -/
theorem isCanonical_ofBits {bits : UInt64} {negative : Bool} {mantissa : Nat} {exponent : Int}
    (hfinite : ofBits bits = finite negative mantissa exponent) : IsCanonical mantissa exponent := by
  unfold ofBits at hfinite
  dsimp only at hfinite
  split at hfinite
  · split at hfinite <;> cases hfinite
  · split at hfinite <;> cases hfinite
    · exact ⟨by omega, by omega, Or.inr rfl⟩
    · exact ⟨by omega, by omega, Or.inl (by omega)⟩

theorem toNat_ofBits {bits : UInt64} (hnumber : ofBits bits ≠ nan) : (ofBits bits).toNat = bits.toNat := by
  have hlt := bits.toNat_lt
  have hsign : (if bits.toNat / 0x8000000000000000 == 1 then 0x8000000000000000 else 0) =
      bits.toNat / 0x8000000000000000 * 0x8000000000000000 := by
    split <;> rename_i hbit <;> simp only [beq_iff_eq] at hbit <;> omega
  unfold ofBits at hnumber ⊢
  dsimp only at hnumber ⊢
  split
  · rename_i hspecial
    rw [if_pos hspecial] at hnumber
    split
    · rw [toNat, hsign]
      omega
    · rename_i hfraction
      rw [if_neg hfraction] at hnumber
      exact absurd rfl hnumber
  · split
    · rw [toNat, hsign, if_pos (by omega)]
      omega
    · rw [toNat, hsign, if_neg (by omega)]
      omega

/-- Doubles that are the same number have the same bits, unless they are NaNs. -/
theorem Equals.bits_eq {a b : UInt64} (h : (ofBits a).Equals (ofBits b)) (hnumber : ofBits a ≠ nan) : a = b := by
  have heq : ofBits a = ofBits b := by
    cases ha : ofBits a with
    | nan => exact absurd ha hnumber
    | infinite s =>
      cases hb : ofBits b <;> rw [ha, hb] at h
      case infinite t => exact congrArg infinite h
      all_goals exact h.elim
    | finite s m e =>
      cases hb : ofBits b <;> rw [ha, hb] at h
      case finite t n f =>
        obtain ⟨rfl, rfl⟩ := (isCanonical_ofBits ha).unique (isCanonical_ofBits hb) h.2
        rw [h.1]
      all_goals exact h.elim
  rw [← UInt64.toNat_inj, ← toNat_ofBits hnumber, ← toNat_ofBits (heq ▸ hnumber), heq]

end LuaMachine.Binary
