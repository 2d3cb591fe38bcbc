import LuaMachine.Arithmetic
import LuaMachine.Proofs.Prototype.Constant
import Mathlib

namespace LuaMachine.Arithmetic

/-- An integer has at most 64 bits. -/
def InRange (n : Int) : Prop := -2 ^ 63 ≤ n ∧ n < 2 ^ 63

instance (n : Int) : Decidable (InRange n) := inferInstanceAs (Decidable (_ ∧ _))

theorem inRange_toInt (i : Int64) : InRange i.toInt := ⟨i.le_toInt, i.toInt_lt⟩

/-- An index is not beyond the limit of a loop. -/
def Within (limit step index : Int) : Prop := if 0 < step then index ≤ limit else limit ≤ index

instance (limit step index : Int) : Decidable (Within limit step index) :=
  inferInstanceAs (Decidable (if 0 < step then index ≤ limit else limit ≤ index))

theorem within_of_pos {limit step index : Int} (h : 0 < step) : Within limit step index ↔ index ≤ limit := by
  rw [Within, if_pos h]

theorem within_of_neg {limit step index : Int} (h : step < 0) : Within limit step index ↔ limit ≤ index := by
  rw [Within, if_neg h.le.not_gt]

/-- How many rounds a loop makes. -/
def rounds (init limit step : Int) : Nat := ((limit - init).fdiv step + 1).toNat

section Rounds

variable {init limit step : Int}

/-- The indices of the rounds are those of the arithmetic progression that are not beyond the limit. -/
theorem lt_rounds_iff (hstep : step ≠ 0) (n : Nat) :
    n < rounds init limit step ↔ Within limit step (init + n * step) := by
  have hlt : n < rounds init limit step ↔ (n : Int) ≤ (limit - init).fdiv step := by
    rw [rounds, Int.lt_toNat]
    omega
  rw [hlt, Within]
  split
  · rename_i hpositive
    rw [Int.fdiv_eq_ediv_of_nonneg _ hpositive.le, Int.le_ediv_iff_mul_le hpositive]
    omega
  · rename_i hnot
    have hpositive : 0 < -step := by omega
    rw [← Int.neg_fdiv_neg, Int.fdiv_eq_ediv_of_nonneg _ hpositive.le, Int.le_ediv_iff_mul_le hpositive, Int.mul_neg]
    omega

/-- A loop has room for its steps in 64 bits: for the one to the first index and for one beyond the limit. -/
structure HasRoom (init limit step : Int) : Prop where
  step_ne_zero : step ≠ 0
  init : InRange (init - step)
  limit : InRange (limit + step)

/-- Where there is room, no index up to the one that ends the loop is out of range. -/
theorem HasRoom.inRange (h : HasRoom init limit step) (hinit : InRange init) {n : Nat}
    (hn : n ≤ rounds init limit step) : InRange (init + n * step) := by
  obtain ⟨hlow, hhigh⟩ := h.limit
  cases n with
  | zero => simpa using hinit
  | succ n =>
    obtain ⟨hinitLow, hinitHigh⟩ := hinit
    have hwithin := (lt_rounds_iff h.step_ne_zero n).mp hn
    have hsucc : ((n + 1 : Nat) : Int) * step = n * step + step := by push_cast; ring
    rw [Within] at hwithin
    rw [hsucc, InRange]
    split at hwithin
    · rename_i hpositive
      have hsteps : 0 ≤ (n : Int) * step := by positivity
      omega
    · rename_i hnot
      have hsteps : (n : Int) * step ≤ 0 := mul_nonpos_of_nonneg_of_nonpos (by positivity) (by omega)
      omega

end Rounds

theorem exists_int64 {n : Int} (h : InRange n) : ∃ i, Number.int64? n = some i ∧ i.toInt = n := by
  have hfits : Number.int64? n = some (Int64.ofInt n) := if_pos ⟨h.1, Int.le_of_lt_add_one h.2⟩
  exact ⟨_, hfits, Number.toInt_of_int64? hfits⟩

theorem int64?_eq_none {n : Int} (h : ¬InRange n) : Number.int64? n = none :=
  if_neg fun hfits => h ⟨hfits.1, Int.lt_add_one_of_le hfits.2⟩

/-- A step of a loop over integers, as long as the next index is in range. -/
theorem forStep_of_inRange {index step : Int64} (limit : Int64) (h : InRange (index.toInt + step.toInt)) :
    ∃ next : Int64, next.toInt = index.toInt + step.toInt ∧
      (forStep (.int index) (.int limit) (.int step)).1 = .int next ∧
      ((forStep (.int index) (.int limit) (.int step)).2 = true ↔ Within limit.toInt step.toInt next.toInt) := by
  obtain ⟨next, hfits, hnext⟩ := exists_int64 h
  refine ⟨next, hnext, by rw [forStep, hfits], ?_⟩
  rw [forStep, hfits, Within]
  have hpositive : 0 < step ↔ 0 < step.toInt := Int64.lt_iff_toInt_lt
  simp only [hpositive, Int64.le_iff_toInt_le]
  split <;> simp

end LuaMachine.Arithmetic
