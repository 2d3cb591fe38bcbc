import Mathlib
import LuaMachine.Number.Decimal

namespace LuaMachine.Decimal

/-- A number rounded to fourteen significant digits, the first of which counts `10 ^ k`: the nearest one that has no
more digits, and of two that are as near the one whose last digit is even. -/
inductive RoundsTo (q : ℚ) : ℚ → Prop
  | nearest {k : ℤ} {n : ℕ} (hlow : 10 ^ k ≤ q) (hhigh : q < 10 ^ (k + 1))
      (hnear : |q * 10 ^ (13 - k) - n| ≤ 1 / 2) (heven : |q * 10 ^ (13 - k) - n| = 1 / 2 → Even n) :
      RoundsTo q (n * 10 ^ (k - 13))

/-- A number is rounded in one way. -/
theorem RoundsTo.unique {q r r' : ℚ} (h : RoundsTo q r) (h' : RoundsTo q r') : r = r' := by
  obtain @⟨k, n, hlow, hhigh, hnear, heven⟩ := h
  obtain @⟨k', n', hlow', hhigh', hnear', heven'⟩ := h'
  have hle {k l : ℤ} (hlow : (10 : ℚ) ^ k ≤ q) (hhigh : q < 10 ^ (l + 1)) : k ≤ l :=
    Int.lt_add_one_iff.mp ((zpow_lt_zpow_iff_right₀ (by norm_num)).mp (hlow.trans_lt hhigh))
  obtain rfl : k = k' := le_antisymm (hle hlow hhigh') (hle hlow' hhigh)
  generalize q * 10 ^ (13 - k) = p at hnear heven hnear' heven'
  suffices hn : n = n' by rw [hn]
  by_contra hne
  -- two integers that are both nearest are one apart, and so both as near and both even
  wlog hlt : n < n' generalizing n n'
  · exact this hnear' heven' hnear heven (Ne.symm hne) (by omega)
  obtain ⟨hbelow, habove⟩ := abs_le.mp hnear
  obtain ⟨hbelow', habove'⟩ := abs_le.mp hnear'
  have hle : (n : ℚ) + 1 ≤ n' := by exact_mod_cast hlt
  have hstep : (n' : ℚ) = n + 1 := by linarith
  have heven := heven (by rw [show p - n = 1 / 2 by linarith, abs_of_nonneg (by norm_num)])
  have heven' := heven' (by rw [show p - n' = -(1 / 2) by linarith, abs_neg, abs_of_nonneg (by norm_num)])
  have hstep : n' = n + 1 := by exact_mod_cast hstep
  rw [hstep, Nat.even_add_one] at heven'
  exact heven' heven

variable {num den : ℕ}

theorem value_ratio (mantissa : ℕ) (exponent : ℤ) :
    ((ratio mantissa exponent).1 : ℚ) / (ratio mantissa exponent).2 = mantissa * 2 ^ exponent ∧
      0 < (ratio mantissa exponent).2 := by
  rw [ratio]
  split_ifs with hneg
  · obtain ⟨k, rfl⟩ : ∃ k : ℕ, exponent = -k := ⟨exponent.natAbs, by omega⟩
    simp [div_eq_mul_inv]
  · obtain ⟨k, rfl⟩ : ∃ k : ℕ, exponent = k := ⟨exponent.natAbs, by omega⟩
    simp

theorem value_scale (num : ℕ) (hden : 0 < den) (shift : ℤ) :
    ((scale num den shift).1 : ℚ) / (scale num den shift).2 = num / den * 10 ^ shift ∧ 0 < (scale num den shift).2 := by
  rw [scale]
  split_ifs with hneg
  · obtain ⟨k, rfl⟩ : ∃ k : ℕ, shift = -k := ⟨shift.natAbs, by omega⟩
    simp [div_eq_mul_inv, hden, mul_assoc, mul_comm, mul_left_comm]
  · obtain ⟨k, rfl⟩ : ∃ k : ℕ, shift = k := ⟨shift.natAbs, by omega⟩
    simp [hden, div_mul_eq_mul_div]

theorem length_spec {n : ℕ} (hn : 0 < n) : 10 ^ (length n - 1) ≤ n ∧ n < 10 ^ length n ∧ 0 < length n := by
  have hpos : 0 < length n := Nat.length_toDigits_pos
  refine ⟨?_, (Nat.length_toDigits_le_iff (by decide) hpos).mp le_rfl, hpos⟩
  by_contra hlow
  rcases Nat.eq_zero_or_pos (length n - 1) with hone | hmore
  · rw [hone] at hlow
    omega
  · have := (Nat.length_toDigits_le_iff (by decide) hmore).mpr (Nat.not_le.mp hlow)
    have hlength : (Nat.toDigits 10 n).length = length n := rfl
    omega

/-- The first digit of a quotient counts ten to its magnitude. -/
theorem magnitude_spec (hnum : 0 < num) (hden : 0 < den) :
    (10 : ℚ) ^ magnitude num den ≤ num / den ∧ (num : ℚ) / den < 10 ^ (magnitude num den + 1) := by
  have hden' : (0 : ℚ) < den := by exact_mod_cast hden
  rw [magnitude]
  split_ifs with hle
  · obtain ⟨hlow, hhigh, hpos⟩ := length_spec (Nat.div_pos hle hden)
    generalize length (num / den) = l at hlow hhigh hpos
    have hexp : ((l : ℤ) - 1) = ((l - 1 : ℕ) : ℤ) := by omega
    rw [hexp, le_div_iff₀ hden', div_lt_iff₀ hden', ← hexp, sub_add_cancel, zpow_natCast, hexp, zpow_natCast]
    have hmul : 10 ^ (l - 1) * den ≤ num := (Nat.le_div_iff_mul_le hden).mp hlow
    have hmul' : num < 10 ^ l * den := (Nat.div_lt_iff_lt_mul hden).mp hhigh
    exact ⟨by exact_mod_cast hmul, by exact_mod_cast hmul'⟩
  · have hnum' : (0 : ℚ) < num := by exact_mod_cast hnum
    have hround : (den + num - 1) / num - 1 = (den - 1) / num := by
      rw [show den + num - 1 = den - 1 + num by omega, Nat.add_div_right _ hnum, Nat.succ_sub_one]
    have hfloor := Nat.div_mul_le_self (den - 1) num
    have hceil : den - 1 < ((den - 1) / num + 1) * num := by
      rw [Nat.mul_comm]
      exact Nat.lt_mul_div_succ _ hnum
    rw [hround]
    obtain ⟨hlow, hhigh, hpos⟩ := length_spec (Nat.div_pos (show num ≤ den - 1 by omega) hnum)
    generalize (den - 1) / num = m at hlow hhigh hpos hfloor hceil
    generalize length m = l at hlow hhigh hpos
    have hexp : -(l : ℤ) + 1 = -((l - 1 : ℕ) : ℤ) := by omega
    rw [hexp, zpow_neg, zpow_neg, zpow_natCast, zpow_natCast, le_div_iff₀ hden', div_lt_iff₀ hden',
      inv_mul_le_iff₀ (by positivity), ← div_eq_inv_mul, lt_div_iff₀ (by positivity)]
    have hmul : den ≤ 10 ^ l * num := by
      have := Nat.mul_le_mul_right num (show m + 1 ≤ 10 ^ l from hhigh)
      omega
    have hmul' : num * 10 ^ (l - 1) < den := by
      have := Nat.mul_le_mul_left num hlow
      rw [Nat.mul_comm num m] at this
      omega
    exact ⟨by exact_mod_cast hmul, by exact_mod_cast hmul'⟩

/-- Rounding goes to the nearest integer, and to the even one of two that are as near. -/
theorem roundDiv_spec (num : ℕ) (hden : 0 < den) :
    |(num : ℚ) / den - roundDiv num den| ≤ 1 / 2 ∧
      (|(num : ℚ) / den - roundDiv num den| = 1 / 2 → Even (roundDiv num den)) := by
  have hden' : (0 : ℚ) < den := by exact_mod_cast hden
  have hlt := Nat.mod_lt num hden
  have hparts : (num : ℚ) / den = (num / den : ℕ) + (num % den : ℕ) / den := by
    have hdiv : (num : ℚ) = den * (num / den : ℕ) + (num % den : ℕ) := by
      exact_mod_cast (Nat.div_add_mod num den).symm
    field_simp
    exact hdiv
  rw [roundDiv, hparts]
  generalize num / den = quotient
  generalize num % den = rest at hlt
  split_ifs with hup
  · -- what is cut off is half or more, so what is added is half or less
    have hgap : ((quotient : ℚ) + rest / den - (quotient + 1 : ℕ)) = -((den - rest : ℕ) / den) := by
      rw [Nat.cast_sub hlt.le]
      push_cast
      field_simp
      ring
    rw [hgap, abs_neg, abs_of_nonneg (by positivity), div_le_iff₀ hden', div_eq_iff hden'.ne']
    refine ⟨?_, fun hhalf => ?_⟩
    · have : 2 * (den - rest) ≤ den := by omega
      have : (2 : ℚ) * (den - rest : ℕ) ≤ den := by exact_mod_cast this
      linarith
    · have htwice : (2 : ℚ) * (den - rest : ℕ) = den := by linarith
      have htwice : 2 * (den - rest) = den := by exact_mod_cast htwice
      have hodd := hup.resolve_left (by omega)
      exact Nat.even_add_one.mpr (Nat.not_even_iff.mpr hodd.2)
  · have hgap : ((quotient : ℚ) + rest / den - quotient) = rest / den := by ring
    rw [hgap, abs_of_nonneg (by positivity), div_le_iff₀ hden', div_eq_iff hden'.ne']
    rw [not_or, not_and] at hup
    refine ⟨?_, fun hhalf => ?_⟩
    · have : (2 : ℚ) * rest ≤ den := by exact_mod_cast Nat.not_lt.mp hup.1
      linarith
    · have htwice : (2 : ℚ) * rest = den := by linarith
      have heven := hup.2 (by exact_mod_cast htwice)
      exact Nat.even_iff.mpr (by omega)

/-- The nearest integer to a number that has fourteen digits before the point has fourteen digits or is the next power
of ten. -/
theorem nearest_bounds {q : ℚ} {k : ℤ} {n : ℕ} (hlow : 10 ^ k ≤ q) (hhigh : q < 10 ^ (k + 1))
    (hnear : |q * 10 ^ (13 - k) - n| ≤ 1 / 2) : 10 ^ 13 ≤ n ∧ n ≤ 10 ^ 14 := by
  have hpow : (0 : ℚ) < 10 ^ (13 - k) := zpow_pos (by norm_num) _
  have hlow : (10 : ℚ) ^ 13 ≤ q * 10 ^ (13 - k) := by
    have hsplit : (10 : ℚ) ^ 13 = 10 ^ k * 10 ^ (13 - k) := by
      rw [← zpow_add₀ (by norm_num), add_sub_cancel]
      rfl
    rw [hsplit]
    exact mul_le_mul_of_nonneg_right hlow hpow.le
  have hhigh : q * 10 ^ (13 - k) < (10 : ℚ) ^ 14 := by
    have hsplit : (10 : ℚ) ^ 14 = 10 ^ (k + 1) * 10 ^ (13 - k) := by
      rw [← zpow_add₀ (by norm_num), show k + 1 + (13 - k) = 14 by ring]
      rfl
    rw [hsplit]
    exact mul_lt_mul_of_pos_right hhigh hpow
  obtain ⟨hbelow, habove⟩ := abs_le.mp hnear
  constructor
  · by_contra hless
    have hle : (n : ℚ) + 1 ≤ 10 ^ 13 := by exact_mod_cast Nat.not_le.mp hless
    linarith
  · by_contra hmore
    have hle : (10 : ℚ) ^ 14 + 1 ≤ n := by exact_mod_cast Nat.not_le.mp hmore
    linarith

theorem rounded_eq (mantissa : ℕ) (exponent : ℤ) :
    let fraction := ratio mantissa exponent
    let k := magnitude fraction.1 fraction.2
    let scaled := scale fraction.1 fraction.2 (13 - k)
    rounded 14 mantissa exponent =
      if roundDiv scaled.1 scaled.2 = 10 ^ 14 then ⟨10 ^ 13, k - 12⟩ else ⟨roundDiv scaled.1 scaled.2, k - 13⟩ := by
  intro fraction k scaled
  have hunit : k - (((14 : ℕ) : ℤ) - 1) = k - 13 := rfl
  have hshift : -(k - (((14 : ℕ) : ℤ) - 1)) = 13 - k := by omega
  have hnext : k - (((14 : ℕ) : ℤ) - 1) + 1 = k - 12 := by omega
  rw [rounded]
  dsimp only
  rw [hshift, hnext, hunit]
  rfl

/-- A positive number is rounded to fourteen digits. -/
theorem rounded_spec {mantissa : ℕ} (hpos : 0 < mantissa) (exponent : ℤ) :
    10 ^ 13 ≤ (rounded 14 mantissa exponent).digits ∧ (rounded 14 mantissa exponent).digits < 10 ^ 14 ∧
      RoundsTo (mantissa * 2 ^ exponent)
        ((rounded 14 mantissa exponent).digits * 10 ^ (rounded 14 mantissa exponent).exponent) := by
  obtain ⟨hratio, hden⟩ := value_ratio mantissa exponent
  have hnum : 0 < (ratio mantissa exponent).1 := by
    rw [ratio]
    split_ifs
    · exact hpos
    · exact Nat.mul_pos hpos (Nat.pow_pos (by decide))
  obtain ⟨hlow, hhigh⟩ := magnitude_spec hnum hden
  have hrounded := rounded_eq mantissa exponent
  dsimp only at hrounded
  generalize magnitude _ _ = k at hlow hhigh hrounded
  obtain ⟨hscale, hbottom⟩ := value_scale (ratio mantissa exponent).1 hden (13 - k)
  obtain ⟨hnear, heven⟩ := roundDiv_spec (scale (ratio mantissa exponent).1 (ratio mantissa exponent).2 (13 - k)).1
    hbottom
  rw [hscale] at hnear heven
  rw [hratio] at hlow hhigh hnear heven
  generalize roundDiv _ _ = n at hnear heven hrounded
  obtain ⟨hfirst, hlast⟩ := nearest_bounds hlow hhigh hnear
  have hrounds := RoundsTo.nearest hlow hhigh hnear heven
  rw [hrounded]
  split_ifs with hcarry
  · refine ⟨le_rfl, by norm_num, ?_⟩
    have hvalue : ((10 ^ 13 : ℕ) : ℚ) * 10 ^ (k - 12) = n * 10 ^ (k - 13) := by
      rw [hcarry, show k - 12 = k - 13 + 1 by ring, zpow_add_one₀ (by norm_num)]
      push_cast
      ring
    rwa [hvalue]
  · exact ⟨hfirst, lt_of_le_of_ne hlast hcarry, hrounds⟩

end LuaMachine.Decimal
