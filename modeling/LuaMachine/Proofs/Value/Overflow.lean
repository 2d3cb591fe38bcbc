import LuaMachine.Proofs.Number.Addition
import LuaMachine.Proofs.Value.Comparing
import LuaMachine.Proofs.Value.Stepping

namespace LuaMachine

namespace Arithmetic

/-- The index that a loop starts from, one step before the first one. -/
def startIndex (init step : Int) : Int :=
  if InRange (init - step) then init - step else Binary.nearestInt (Binary.nearestInt init - Binary.nearestInt step)

/-- The next index: exact if it and the one before are in range, else the double nearest to the sum of doubles. -/
def nextIndex (step index : Int) : Int :=
  if InRange index ∧ InRange (index + step) then index + step
  else Binary.nearestInt (Binary.nearestInt index + Binary.nearestInt step)

/-- Whether a loop goes on with the next index. In doubles that is compared with the double of the limit. -/
def GoesOn (limit step index : Int) : Prop :=
  if InRange index ∧ InRange (index + step) then Within limit step (nextIndex step index)
  else Within (Binary.nearestInt limit) (Binary.nearestInt step) (nextIndex step index)

instance (limit step index : Int) : Decidable (GoesOn limit step index) :=
  inferInstanceAs (Decidable (if InRange index ∧ InRange (index + step) then Within limit step (nextIndex step index)
    else Within (Binary.nearestInt limit) (Binary.nearestInt step) (nextIndex step index)))

end Arithmetic

namespace Binary

variable {x y : Float} {p q n : Int}

theorem IsWhole.integer? (h : IsWhole x n) : (ofFloat x).integer? = some n := by
  have hvalue := h.value
  cases hx : ofFloat x with
  | nan => exact absurd hx (ofFloat_ne_nan h.isNaN)
  | infinite negative =>
    rw [hx] at hvalue
    cases negative with
    | true => exact absurd hvalue (bot_lt_ofRat _).ne
    | false => exact absurd hvalue (ofRat_lt_top _).ne'
  | finite negative mantissa exponent =>
    rw [hx] at hvalue
    exact integer?_of_value hvalue

theorem IsWhole.le_iff (hx : IsWhole x p) (hy : IsWhole y q) : x ≤ y ↔ p ≤ q := by
  rw [le_iff_value hx.isNaN hy.isNaN, hx.value, hy.value, ofRat_le_ofRat, Int.cast_le]

theorem IsWhole.lt_iff (hx : IsWhole x p) (hy : IsWhole y q) : x < y ↔ p < q := by
  rw [lt_iff_value hx.isNaN hy.isNaN, hx.value, hy.value, ofRat_lt_ofRat, Int.cast_lt]

theorem isWhole_ofInt64 (i : Int64) : IsWhole (Number.ofInt64 i) (nearestInt i.toInt) := by
  have hlow := i.le_toInt
  have hhigh := i.toInt_lt
  exact isWhole_ofInt (by omega)

end Binary

namespace Value

/-- A number is whole: an integer of 64 bits, or a double that is none of those. -/
inductive IsWhole : Value → Int → Prop
  | int (i : Int64) : IsWhole (int i) i.toInt
  | float {x : Float} {n : Int} (hx : Binary.IsWhole x n) (hbeyond : ¬Arithmetic.InRange n) : IsWhole (float x) n

variable {v : Value} {x : Float} {n : Int}

theorem isWhole_number (h : Binary.IsWhole x n) : (number x).IsWhole n := by
  rw [number, Double.value_ofFloat, h.integer?, Option.bind_some]
  by_cases hrange : Arithmetic.InRange n
  · obtain ⟨i, hfits, hi⟩ := Arithmetic.exists_int64 hrange
    have hsign : ¬(i = 0 ∧ (Binary.ofFloat x).isNegative = true) := by
      rintro ⟨rfl, hnegative⟩
      exact absurd hnegative (Bool.eq_false_iff.mp (h.unsigned hi.symm))
    rw [hfits]
    dsimp only
    rw [if_neg hsign, ← hi]
    exact .int i
  · rw [Arithmetic.int64?_eq_none hrange]
    exact .float h hrange

/-- The double of a whole number. -/
theorem IsWhole.exists_double (h : v.IsWhole n) :
    ∃ x, v.toFloat? = some x ∧ Binary.IsWhole x (Binary.nearestInt n) := by
  cases h with
  | int i => exact ⟨_, rfl, Binary.isWhole_ofInt64 i⟩
  | float hx hbeyond => exact ⟨_, rfl, by rwa [hx.nearestInt_eq]⟩

end Value

namespace Arithmetic

variable {v : Value} {limit step : Int64} {p : Int}

theorem natAbs_le (i : Int64) : i.toInt.natAbs ≤ 2 ^ 64 := by
  obtain ⟨hlow, hhigh⟩ := inRange_toInt i
  omega

/-- A step in doubles. -/
theorem forStepInDoubles_of_isWhole (limit step : Int64) (h : v.IsWhole p)
    (hp : (Binary.nearestInt p).natAbs ≤ 2 ^ 64) :
    ∃ next, (forStepInDoubles v (.int limit) (.int step)).1 = next ∧
      next.IsWhole (Binary.nearestInt (Binary.nearestInt p + Binary.nearestInt step.toInt)) ∧
      ((forStepInDoubles v (.int limit) (.int step)).2 = true ↔
        Within (Binary.nearestInt limit.toInt) (Binary.nearestInt step.toInt)
          (Binary.nearestInt (Binary.nearestInt p + Binary.nearestInt step.toInt))) := by
  obtain ⟨x, hx, hdouble⟩ := h.exists_double
  have hlimit := Binary.isWhole_ofInt64 limit
  have hstep := Binary.isWhole_ofInt64 step
  have hzero : Binary.IsWhole 0.0 0 := Binary.isWhole_of_zero rfl
  have hboundS := Binary.natAbs_nearestInt_le 11 (natAbs_le step)
  have hsum := hdouble.add hstep (by omega)
  have hresult : forStepInDoubles v (.int limit) (.int step) = (.number (x + Number.ofInt64 step),
      if 0.0 < Number.ofInt64 step then decide (x + Number.ofInt64 step ≤ Number.ofInt64 limit)
      else decide (Number.ofInt64 limit ≤ x + Number.ofInt64 step)) := by
    rw [forStepInDoubles, hx]
    rfl
  rw [hresult, Within]
  refine ⟨_, rfl, Value.isWhole_number hsum, ?_⟩
  simp only [hzero.lt_iff hstep, hsum.le_iff hlimit, hlimit.le_iff hsum]
  split <;> simp

/-- A step of a loop over integers. -/
theorem forStep_of_isWhole (limit step : Int64) (h : v.IsWhole p) (hp : (Binary.nearestInt p).natAbs ≤ 2 ^ 64) :
    ((forStep v (.int limit) (.int step)).1).IsWhole (nextIndex step.toInt p) ∧
      ((forStep v (.int limit) (.int step)).2 = true ↔ GoesOn limit.toInt step.toInt p) := by
  rw [GoesOn, nextIndex]
  obtain ⟨_, rfl, hdoubles⟩ := forStepInDoubles_of_isWhole limit step h hp
  cases h with
  | int i =>
    have hi := inRange_toInt i
    by_cases hrange : InRange (i.toInt + step.toInt)
    · obtain ⟨next, hvalue, hresult, hgoes⟩ := forStep_of_inRange limit hrange
      rw [if_pos ⟨hi, hrange⟩, if_pos ⟨hi, hrange⟩, hresult, ← hvalue]
      exact ⟨.int next, hgoes⟩
    · rw [if_neg fun h => hrange h.2, if_neg fun h => hrange h.2, forStep, int64?_eq_none hrange]
      exact hdoubles
  | float hx hbeyond =>
    rw [if_neg fun h => hbeyond h.1, if_neg fun h => hbeyond h.1]
    exact hdoubles

/-- The index that a loop over integers starts from. -/
theorem exists_raw?_sub (init : Int64) (hstep : step ≠ 0) :
    ∃ v, raw? .sub (.int init) (.int step) = some v ∧ v.IsWhole (startIndex init.toInt step.toInt) := by
  refine ⟨_, rfl, ?_⟩
  show (fitted (init.toInt - step.toInt) (Number.ofInt64 init - Number.ofInt64 step)).IsWhole _
  rw [fitted, startIndex]
  by_cases hrange : InRange (init.toInt - step.toInt)
  · obtain ⟨first, hfits, hfirst⟩ := exists_int64 hrange
    rw [hfits, if_pos hrange, ← hfirst]
    exact .int first
  · have hnonzero : Binary.nearestInt step.toInt ≠ 0 := fun hzero =>
      hstep (Int64.toInt_inj.mp (Binary.nearestInt_eq_zero_iff.mp hzero))
    have hboundI := Binary.natAbs_nearestInt_le 11 (natAbs_le init)
    have hboundS := Binary.natAbs_nearestInt_le 11 (natAbs_le step)
    rw [int64?_eq_none hrange, if_neg hrange]
    exact Value.isWhole_number ((Binary.isWhole_ofInt64 init).sub (Binary.isWhole_ofInt64 step) hnonzero (by omega)
      (by omega))

end Arithmetic

end LuaMachine
