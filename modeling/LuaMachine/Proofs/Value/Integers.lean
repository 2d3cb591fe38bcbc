import LuaMachine.Machine.Metamethod
import LuaMachine.Proofs.Value.Stepping

namespace LuaMachine.Arithmetic

/-- The remainder that goes with the floored quotient, as a number without bounds. -/
def flooredRemainder (x y : Int) : Int := x - y * ⌊(x : ℚ) / y⌋

theorem flooredRemainder_eq_fmod (x y : Int) : flooredRemainder x y = x.fmod y := by
  have hfloor : ⌊(x : ℚ) / y⌋ = x.fdiv y := by
    obtain ⟨d, rfl | rfl⟩ := y.eq_nat_or_neg
    · rw [Int.cast_natCast, Rat.floor_intCast_div_natCast, Int.fdiv_eq_ediv_of_nonneg x (Int.natCast_nonneg d)]
    · rw [← Int.neg_fdiv_neg, neg_neg, Int.fdiv_eq_ediv_of_nonneg _ (Int.natCast_nonneg d),
        ← Rat.floor_intCast_div_natCast, Int.cast_neg, Int.cast_neg, Int.cast_natCast, div_neg, neg_div]
  rw [flooredRemainder, hfloor, Int.fmod_def]

theorem fmod_between (x : Int) {y : Int} (hy : y ≠ 0) :
    (0 ≤ x.fmod y ∧ x.fmod y < y) ∨ (y < x.fmod y ∧ x.fmod y ≤ 0) := by
  rcases hy.lt_or_gt with hneg | hpos
  · have hlow := Int.fmod_nonneg_of_pos (-x) (neg_pos.mpr hneg)
    have hhigh := Int.fmod_lt_of_pos (-x) (neg_pos.mpr hneg)
    rw [Int.neg_fmod_neg] at hlow hhigh
    exact .inr ⟨by omega, by omega⟩
  · exact .inl ⟨Int.fmod_nonneg_of_pos x hpos, Int.fmod_lt_of_pos x hpos⟩

/-- The remainder is zero or has the sign of the divisor, and it is smaller. -/
theorem flooredRemainder_bounds (x : Int) {y : Int} (hy : y ≠ 0) :
    (flooredRemainder x y = 0 ∨ (flooredRemainder x y).sign = y.sign) ∧ |flooredRemainder x y| < |y| := by
  rw [flooredRemainder_eq_fmod]
  obtain ⟨hlow, hhigh⟩ | ⟨hlow, hhigh⟩ := fmod_between x hy
  · refine ⟨hlow.eq_or_lt.imp Eq.symm fun hpos => ?_, ?_⟩
    · rw [Int.sign_eq_one_of_pos hpos, Int.sign_eq_one_of_pos (hpos.trans hhigh)]
    · rwa [abs_of_nonneg hlow, abs_of_pos (hlow.trans_lt hhigh)]
  · refine ⟨hhigh.eq_or_lt.imp_right fun hneg => ?_, ?_⟩
    · rw [Int.sign_eq_neg_one_of_neg hneg, Int.sign_eq_neg_one_of_neg (hlow.trans hneg)]
    · rw [abs_of_nonpos hhigh, abs_of_neg (hlow.trans_le hhigh)]
      exact neg_lt_neg hlow

/-- The remainder of the truncated quotient is the floored one, or it lies across zero and is one divisor away. -/
theorem fmod_eq_tmod_add (x : Int) {y : Int} (hy : y ≠ 0) :
    x.fmod y = if x.tmod y ≠ 0 ∧ (x.tmod y < 0 ↔ 0 < y) then x.tmod y + y else x.tmod y := by
  have hnonneg := Int.emod_nonneg x hy
  have hlt := Int.emod_lt_abs x hy
  have hdvd : y ∣ x ↔ x % y = 0 := Int.dvd_iff_emod_eq_zero
  rw [Int.fmod_eq_emod, Int.tmod_eq_emod]
  simp only [hdvd]
  grind

section Remainder

variable {r y : Int64}

theorem toInt_eq_zero_iff {i : Int64} : i.toInt = 0 ↔ i = 0 := Int64.toInt_inj (y := 0)

/-- An exclusive or compares the sign bits. -/
theorem toInt_xor_neg_iff (x y : Int64) : (x ^^^ y).toInt < 0 ↔ (x.toInt < 0 ↔ ¬y.toInt < 0) := by
  have hmsb := BitVec.msb_xor (x := x.toBitVec) (y := y.toBitVec)
  rw [← Int64.toBitVec_xor] at hmsb
  simp only [BitVec.msb_eq_toInt, Int64.toInt_toBitVec] at hmsb
  by_cases hx : x.toInt < 0 <;> by_cases hy : y.toInt < 0 <;> simpa [hx, hy] using hmsb

theorem isAcross_iff (hy : y ≠ 0) : isAcross r y = true ↔ r.toInt ≠ 0 ∧ (r.toInt < 0 ↔ 0 < y.toInt) := by
  have hyInt : y.toInt ≠ 0 := mt toInt_eq_zero_iff.mp hy
  rw [isAcross, Bool.and_eq_true, bne_iff_ne, decide_eq_true_iff, Int64.lt_iff_toInt_lt, Ne, ← toInt_eq_zero_iff,
    Int64.toInt_zero, toInt_xor_neg_iff]
  omega

/-- Moving a remainder from across zero cannot overflow, as the two signs differ. -/
theorem toInt_add_of_isAcross (hy : y ≠ 0) (h : isAcross r y = true) : (r + y).toInt = r.toInt + y.toInt := by
  obtain ⟨-, hsign⟩ := (isAcross_iff hy).mp h
  obtain ⟨hlow, hhigh⟩ := inRange_toInt r
  obtain ⟨hlow', hhigh'⟩ := inRange_toInt y
  rw [Int64.toInt_add]
  exact Int.bmod_eq_of_le (by omega) (by omega)

theorem toInt_floorModInts (x : Int64) (hy : y ≠ 0) :
    (floorModInts x y).toInt = flooredRemainder x.toInt y.toInt := by
  have hyInt : y.toInt ≠ 0 := mt toInt_eq_zero_iff.mp hy
  rw [flooredRemainder_eq_fmod, fmod_eq_tmod_add x.toInt hyInt, ← Int64.toInt_mod, floorModInts]
  by_cases hacross : isAcross (x % y) y = true
  · rw [if_pos hacross, if_pos ((isAcross_iff hy).mp hacross), toInt_add_of_isAcross hy hacross]
  · rw [if_neg hacross, if_neg fun h => hacross ((isAcross_iff hy).mpr h)]

end Remainder

/-- An operation on two integers gives the integer `n`, in every machine. -/
def Gives (op : ArithOp) (x y : Int64) (n : Int) : Prop :=
  ∃ z : Int64, z.toInt = n ∧ raw? op (.int x) (.int y) = some (.int z) ∧
    ∀ (m : Machine) (t : ThreadId), m.arith t op (.int x) (.int y) = .done [.int z]

section Gives

variable {op : ArithOp} {x y z : Int64} {n : Int}

theorem gives_of_onInts (h : onInts op x y = .int z) : Gives op x y z.toInt := by
  have hraw : raw? op (.int x) (.int y) = some (.int z) := congrArg some h
  exact ⟨z, rfl, hraw, fun m t => by rw [Machine.arith, hraw]⟩

theorem gives_of_fitted {rounded : Float} (h : onInts op x y = fitted n rounded) (hn : InRange n) :
    Gives op x y n := by
  obtain ⟨z, hfits, rfl⟩ := exists_int64 hn
  rw [fitted, hfits] at h
  exact gives_of_onInts h

theorem gives_mod (x : Int64) (hy : y ≠ 0) : Gives .mod x y (flooredRemainder x.toInt y.toInt) := by
  rw [← toInt_floorModInts x hy]
  exact gives_of_onInts (if_neg hy)

theorem gives_unm (y : Int64) (hx : x ≠ 0) (hleast : x ≠ Int64.minValue) : Gives .unm x y (-x.toInt) := by
  have hrange : InRange (-x.toInt) := by
    obtain ⟨hlow, hhigh⟩ := inRange_toInt x
    have hne : x.toInt ≠ -2 ^ 63 := fun h => hleast (Int64.toInt_inj.mp h)
    exact ⟨by omega, by omega⟩
  exact gives_of_fitted (if_neg hx) hrange

end Gives

/-- Operations on integers give the exact result whenever it fits. A remainder goes with the floored quotient and
always fits: the truncated remainder that it is made from is exact, and so is the move from across zero. -/
theorem integers_exact (x y : Int64) :
    (InRange (x.toInt + y.toInt) → Gives .add x y (x.toInt + y.toInt)) ∧
    (InRange (x.toInt - y.toInt) → Gives .sub x y (x.toInt - y.toInt)) ∧
    (InRange (x.toInt * y.toInt) → Gives .mul x y (x.toInt * y.toInt)) ∧
    (y ≠ 0 → Gives .mod x y (flooredRemainder x.toInt y.toInt) ∧
      (x % y).toInt = x.toInt.tmod y.toInt ∧
      (isAcross (x % y) y = true → (x % y + y).toInt = (x % y).toInt + y.toInt) ∧
      (flooredRemainder x.toInt y.toInt = 0 ∨ (flooredRemainder x.toInt y.toInt).sign = y.toInt.sign) ∧
      |flooredRemainder x.toInt y.toInt| < |y.toInt|) ∧
    (x ≠ 0 → x ≠ Int64.minValue → Gives .unm x y (-x.toInt)) := by
  refine ⟨gives_of_fitted rfl, gives_of_fitted rfl, gives_of_fitted rfl, fun hy => ?_, gives_unm y⟩
  exact ⟨gives_mod x hy, Int64.toInt_mod x y, toInt_add_of_isAcross hy,
    flooredRemainder_bounds x.toInt (mt toInt_eq_zero_iff.mp hy)⟩

/-- The least integer by minus one, remainders on both sides of zero, and results that just fit. -/
theorem integers_exact_extremes :
    Gives .mod Int64.minValue (-1) 0 ∧ Gives .mod 7 (-3) (-2) ∧ Gives .add Int64.minValue Int64.maxValue (-1) ∧
      Gives .sub (-1) Int64.minValue (2 ^ 63 - 1) ∧ Gives .mul 2147483648 (-4294967296) (-2 ^ 63) ∧
      Gives .unm Int64.maxValue 0 (1 - 2 ^ 63) := by
  have hleast : flooredRemainder Int64.minValue.toInt (-1 : Int64).toInt = 0 := by
    rw [flooredRemainder_eq_fmod]
    decide
  have hseven : flooredRemainder (7 : Int64).toInt (-3 : Int64).toInt = -2 := by
    rw [flooredRemainder_eq_fmod]
    decide
  have hproduct : Int64.toInt 2147483648 * Int64.toInt (-4294967296) = -2 ^ 63 := by decide
  obtain ⟨-, -, -, hmodLeast, -⟩ := integers_exact Int64.minValue (-1)
  obtain ⟨-, -, -, hmodSeven, -⟩ := integers_exact 7 (-3)
  obtain ⟨hadd, -, -, -, -⟩ := integers_exact Int64.minValue Int64.maxValue
  obtain ⟨-, hsub, -, -, -⟩ := integers_exact (-1) Int64.minValue
  obtain ⟨-, -, hmul, -, -⟩ := integers_exact 2147483648 (-4294967296)
  obtain ⟨-, -, -, -, hunm⟩ := integers_exact Int64.maxValue 0
  have hremainderLeast := (hmodLeast (by decide)).1
  have hremainderSeven := (hmodSeven (by decide)).1
  rw [hleast] at hremainderLeast
  rw [hseven] at hremainderSeven
  rw [hproduct] at hmul
  exact ⟨hremainderLeast, hremainderSeven, hadd (by decide), hsub (by decide), hmul (by decide),
    hunm (by decide) (by decide)⟩

end LuaMachine.Arithmetic
