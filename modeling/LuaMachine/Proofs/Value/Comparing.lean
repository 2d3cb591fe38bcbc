import LuaMachine.Machine.Metamethod
import LuaMachine.Proofs.Number.Rounding
import LuaMachine.Proofs.Table.Key
import LuaMachine.Proofs.Value.Canonical

namespace LuaMachine

namespace Binary

/-- Whether a value is small, where integers need no rounding, or out of the range of the integers. -/
def IsApart (v : WithBot (WithTop ℚ)) : Prop :=
  v = ⊥ ∨ v = ⊤ ∨ ∃ r, v = ofRat r ∧ (|r| < 2 ^ 53 ∨ 2 ^ 63 ≤ r ∨ r < -2 ^ 63)

/-- Without a positive exponent a value is small. -/
theorem abs_lt_of_exponent_le {negative : Bool} {mantissa : Nat} {exponent : Int} (h : IsNormalized mantissa exponent)
    (hexponent : exponent ≤ 0) : |(signed negative mantissa * 2 ^ exponent : ℚ)| < 2 ^ 53 := by
  have hscale : (2 : ℚ) ^ exponent ≤ 1 := zpow_le_one_of_nonpos₀ (by norm_num) hexponent
  have habs : |(signed negative mantissa : ℚ)| = mantissa := by cases negative <;> simp [signed]
  calc |(signed negative mantissa * 2 ^ exponent : ℚ)| = mantissa * 2 ^ exponent := by
        rw [abs_mul, habs, abs_of_pos (by positivity)]
    _ ≤ mantissa := mul_le_of_le_one_right (by positivity) hscale
    _ < 2 ^ 53 := by exact_mod_cast h.lt

/-- A double is small if it has a fraction; otherwise a canonical one is out of the range of the integers, or zero. -/
theorem isApart_of_isCanonical {x : Float} (hnan : x.isNaN = false) (hx : (Value.float x).IsCanonical) :
    IsApart (ofFloat x).value := by
  have hint := (Value.number_eq_float_iff x).mp (hx x rfl)
  rw [Double.value_ofFloat] at hint
  cases hreading : ofFloat x with
  | nan => exact absurd hreading (ofFloat_ne_nan hnan)
  | infinite negative =>
    cases negative with
    | true => exact .inl rfl
    | false => exact .inr (.inl rfl)
  | finite negative mantissa exponent =>
    have hnormal : IsNormalized mantissa exponent := isNormalized_of_ofBits ((ofFloat_eq_ofBits x).symm.trans hreading)
    refine .inr (.inr ⟨_, rfl, ?_⟩)
    by_cases hfraction : exponent < 0
    · exact .inl (abs_lt_of_exponent_le hnormal hfraction.le)
    · obtain ⟨shift, rfl⟩ := Int.eq_ofNat_of_zero_le (Int.not_lt.mp hfraction)
      rw [hreading, integer?_mul_two_pow] at hint
      have hvalue : (signed negative mantissa * 2 ^ (shift : Int) : ℚ) = signed negative (mantissa * 2 ^ shift) := by
        rw [zpow_natCast]
        cases negative <;> simp [signed]
      rw [hvalue]
      generalize signed negative (mantissa * 2 ^ shift) = n at hint
      by_cases hrange : -2 ^ 63 ≤ n ∧ n < 2 ^ 63
      · have hfits : (Int64.ofInt n).toInt = n := Int64.toInt_ofInt_of_le hrange.1 hrange.2
        obtain ⟨hzero, -⟩ := hint (Int64.ofInt n) (by rw [hfits])
        rw [← hfits, hzero]
        exact .inl (by simp)
      · obtain habove | hbelow : 2 ^ 63 ≤ n ∨ n < -2 ^ 63 := by omega
        · exact .inr (.inl (by exact_mod_cast habove))
        · exact .inr (.inr (by exact_mod_cast hbelow))

section Rounded

variable {i : Int} (hlow : -2 ^ 63 ≤ i) (hhigh : i < 2 ^ 63)
include hlow hhigh

/-- Rounding does not move an integer past a number that is apart; it may reach the first one above the integers. -/
theorem nearestInt_compare {r : ℚ} (hr : |r| < 2 ^ 53 ∨ 2 ^ 63 ≤ r ∨ r < -2 ^ 63)
    (hreach : ¬(2 ^ 63 - 512 ≤ i ∧ r = 2 ^ 63)) :
    ((nearestInt i : ℚ) < r ↔ (i : ℚ) < r) ∧ (r < nearestInt i ↔ r < i) := by
  have hi : (-2 ^ 63 : ℚ) ≤ i ∧ (i : ℚ) < 2 ^ 63 := ⟨by exact_mod_cast hlow, by exact_mod_cast hhigh⟩
  have htop : r = 2 ^ 63 → (nearestInt i : ℚ) ≠ 2 ^ 63 := by
    intro hr hnearest
    exact hreach ⟨(nearestInt_eq_iff hhigh).mp (by exact_mod_cast hnearest), hr⟩
  obtain heq | ⟨hle, hlower, hupper⟩ | ⟨hle, hupper, hlower⟩ := nearestInt_cases hlow hhigh.le
  · rw [heq]
    exact ⟨Iff.rfl, Iff.rfl⟩
  · have hle : (2 ^ 53 : ℚ) ≤ i := by exact_mod_cast hle
    have hlower : (2 ^ 53 : ℚ) ≤ nearestInt i := by exact_mod_cast hlower
    have hupper : (nearestInt i : ℚ) ≤ 2 ^ 63 := by exact_mod_cast hupper
    obtain hsmall | habove | hbelow := hr
    · have := (abs_lt.mp hsmall).2
      constructor <;> constructor <;> intro <;> linarith
    · have hlt : (nearestInt i : ℚ) < r := by
        obtain heq | hlt := habove.eq_or_lt
        · exact lt_of_le_of_ne (hupper.trans habove) fun h => htop heq.symm (h.trans heq.symm)
        · exact hupper.trans_lt hlt
      exact ⟨iff_of_true hlt (hi.2.trans_le habove), iff_of_false hlt.not_gt (hi.2.trans_le habove).not_gt⟩
    · constructor <;> constructor <;> intro <;> linarith
  · have hle : (i : ℚ) ≤ -2 ^ 53 := by exact_mod_cast hle
    have hupper : (nearestInt i : ℚ) ≤ -2 ^ 53 := by exact_mod_cast hupper
    have hlower : (-2 ^ 63 : ℚ) ≤ nearestInt i := by exact_mod_cast hlower
    obtain hsmall | habove | hbelow := hr
    · have := (abs_lt.mp hsmall).1
      constructor <;> constructor <;> intro <;> linarith
    · constructor <;> constructor <;> intro <;> linarith
    · constructor <;> constructor <;> intro <;> linarith

theorem ofRat_nearestInt_compare {v : WithBot (WithTop ℚ)} (hv : IsApart v)
    (hreach : ¬(2 ^ 63 - 512 ≤ i ∧ v = ofRat (2 ^ 63))) :
    (ofRat (nearestInt i) < v ↔ ofRat i < v) ∧ (v < ofRat (nearestInt i) ↔ v < ofRat i) := by
  obtain rfl | rfl | ⟨r, rfl, hr⟩ := hv
  · exact ⟨iff_of_false not_lt_bot not_lt_bot, iff_of_true (bot_lt_ofRat _) (bot_lt_ofRat _)⟩
  · exact ⟨iff_of_true (ofRat_lt_top _) (ofRat_lt_top _), iff_of_false not_top_lt not_top_lt⟩
  · simp only [ofRat_lt_ofRat, ofRat_inj] at hreach ⊢
    exact nearestInt_compare hlow hhigh hr hreach

end Rounded

end Binary

namespace Value

/-- The number that a number denotes, with the infinities below and above all others. -/
def denoted : Value → WithBot (WithTop ℚ)
  | int i => Binary.ofRat i.toInt
  | float x => (Binary.ofFloat x).value
  | _ => Binary.ofRat 0

/-- A canonical number other than NaN. -/
inductive IsProperNumber : Value → Prop
  | int (i : Int64) : IsProperNumber (int i)
  | float (x : Float) (hnan : x.isNaN = false) (hcanonical : (float x).IsCanonical) : IsProperNumber (float x)

/-- One of the last integers, and the double just above the integers that it is rounded to. -/
def Blurred : Value → Value → Prop
  | int i, float x | float x, int i => 2 ^ 63 - 512 ≤ i.toInt ∧ (float x).denoted = Binary.ofRat (2 ^ 63)
  | _, _ => False

section Doubles

variable (i : Int64) {x : Float}

theorem isNaN_ofInt64 : (Number.ofInt64 i).isNaN = false := by
  have hlow := i.le_toInt
  have hhigh := i.toInt_lt
  exact (Binary.value_ofInt (by omega)).1

theorem value_ofInt64 : (Binary.ofFloat (Number.ofInt64 i)).value = Binary.ofRat (Binary.nearestInt i.toInt) := by
  have hlow := i.le_toInt
  have hhigh := i.toInt_lt
  exact (Binary.value_ofInt (by omega)).2

/-- The double of one of the last integers is the one just above them. -/
theorem value_ofInt64_of_blurred (h : (int i).Blurred (float x)) :
    (Binary.ofFloat (Number.ofInt64 i)).value = (float x).denoted := by
  rw [value_ofInt64 i, h.2, (Binary.nearestInt_eq_iff i.toInt_lt).mpr h.1]
  norm_num

variable (hnan : x.isNaN = false) (hx : (float x).IsCanonical)
include hnan hx

/-- The double of an integer stands to another one as the integer does. -/
theorem ofInt64_compare (hblurred : ¬(int i).Blurred (float x)) :
    ((Binary.ofFloat (Number.ofInt64 i)).value < (float x).denoted ↔ (int i).denoted < (float x).denoted) ∧
      ((float x).denoted < (Binary.ofFloat (Number.ofInt64 i)).value ↔ (float x).denoted < (int i).denoted) := by
  rw [value_ofInt64 i]
  exact Binary.ofRat_nearestInt_compare i.le_toInt i.toInt_lt (Binary.isApart_of_isCanonical hnan hx) hblurred

theorem ofInt64_eq_iff (hblurred : ¬(int i).Blurred (float x)) :
    (Binary.ofFloat (Number.ofInt64 i)).value = (float x).denoted ↔ (int i).denoted = (float x).denoted := by
  obtain ⟨hlt, hgt⟩ := ofInt64_compare i hnan hx hblurred
  rw [le_antisymm_iff, le_antisymm_iff, ← not_lt, ← not_lt, hlt, hgt, not_lt, not_lt]

omit hx in
/-- Both zeros are the integer zero as keys. -/
theorem normalizeKey_of_denoted_zero (hzero : (float x).denoted = Binary.ofRat 0) :
    Table.normalizeKey (float x) = .ok (int 0) := by
  have hequal : (x == 0.0) = true :=
    (Binary.beq_iff_value hnan Number.isNaN_zero).mpr (hzero.trans Binary.value_ofFloat_zero.symm)
  rw [Table.normalizeKey, Double.value_ofFloat, if_neg (Bool.eq_false_iff.mp hnan), if_pos hequal]

/-- The only integer that a canonical double denotes too is zero. -/
theorem eq_zero_of_denoted (heq : (float x).denoted = (int i).denoted) : i = 0 := by
  have hint := (number_eq_float_iff x).mp (hx x rfl) i
  simp only [denoted, Double.value_ofFloat] at heq hint
  cases hreading : Binary.ofFloat x with
  | nan => exact absurd hreading (Binary.ofFloat_ne_nan hnan)
  | infinite negative =>
    rw [hreading] at heq
    cases negative with
    | true => exact absurd heq (Binary.bot_lt_ofRat _).ne
    | false => exact absurd heq (Binary.ofRat_lt_top _).ne'
  | finite negative mantissa exponent =>
    rw [hreading] at heq hint
    exact (hint (Binary.integer?_of_value heq)).1

/-- The form of a canonical double as a key is that of the integer that it denotes. -/
theorem normalizeKey_of_denoted_int (heq : (float x).denoted = (int i).denoted) :
    Table.normalizeKey (float x) = Table.normalizeKey (int i) := by
  obtain rfl := eq_zero_of_denoted i hnan hx heq
  exact normalizeKey_of_denoted_zero hnan (heq.trans (by simp [denoted]))

end Doubles

section Comparing

variable {a b : Value} (ha : a.IsProperNumber) (hb : b.IsProperNumber)
include ha hb

/-- Raw equality of numbers is equality of what they denote. -/
theorem rawEqual_iff_denoted (hblurred : ¬a.Blurred b) : a.rawEqual b = true ↔ a.denoted = b.denoted := by
  cases ha with
  | int i =>
    cases hb with
    | int j => simp [rawEqual, denoted, Int64.toInt_inj]
    | float y hy hy' => exact (Binary.beq_iff_value (isNaN_ofInt64 i) hy).trans (ofInt64_eq_iff i hy hy' hblurred)
  | float x hx hx' =>
    cases hb with
    | int j =>
      rw [eq_comm (a := (float x).denoted)]
      exact (Binary.beq_iff_value (isNaN_ofInt64 j) hx).trans (ofInt64_eq_iff j hx hx' hblurred)
    | float y hy => exact Binary.beq_iff_value hx hy

/-- Numbers come one before the other as what they denote does. -/
theorem ordered?_eq_some (orEqual : Bool) (hblurred : ¬a.Blurred b) :
    Arithmetic.ordered? orEqual a b =
      some (if orEqual then decide (a.denoted ≤ b.denoted) else decide (a.denoted < b.denoted)) := by
  cases ha with
  | int i =>
    cases hb with
    | int j =>
      cases orEqual with
      | false => exact congrArg some (decide_eq_decide.mpr (by simp [denoted, Int64.lt_iff_toInt_lt]))
      | true => exact congrArg some (decide_eq_decide.mpr (by simp [denoted, Int64.le_iff_toInt_le]))
    | float y hy hy' =>
      obtain ⟨hlt, hgt⟩ := ofInt64_compare i hy hy' hblurred
      cases orEqual with
      | false => exact congrArg some (decide_eq_decide.mpr ((Binary.lt_iff_value (isNaN_ofInt64 i) hy).trans hlt))
      | true =>
        rw [← not_iff_not, not_lt, not_lt] at hgt
        exact congrArg some (decide_eq_decide.mpr ((Binary.le_iff_value (isNaN_ofInt64 i) hy).trans hgt))
  | float x hx hx' =>
    cases hb with
    | int j =>
      obtain ⟨hlt, hgt⟩ := ofInt64_compare j hx hx' hblurred
      cases orEqual with
      | false => exact congrArg some (decide_eq_decide.mpr ((Binary.lt_iff_value hx (isNaN_ofInt64 j)).trans hgt))
      | true =>
        rw [← not_iff_not, not_lt, not_lt] at hlt
        exact congrArg some (decide_eq_decide.mpr ((Binary.le_iff_value hx (isNaN_ofInt64 j)).trans hlt))
    | float y hy =>
      cases orEqual with
      | false => exact congrArg some (decide_eq_decide.mpr (Binary.lt_iff_value hx hy))
      | true => exact congrArg some (decide_eq_decide.mpr (Binary.le_iff_value hx hy))

/-- Numbers that denote the same have the same form as keys. -/
theorem normalizeKey_eq_of_denoted (heq : a.denoted = b.denoted) : Table.normalizeKey a = Table.normalizeKey b := by
  cases ha with
  | int i =>
    cases hb with
    | int j =>
      obtain rfl : i = j := Int64.toInt_inj.mp (by simpa [denoted] using heq)
      rfl
    | float y hy hy' => exact (normalizeKey_of_denoted_int i hy hy' heq.symm).symm
  | float x hx hx' =>
    cases hb with
    | int j => exact normalizeKey_of_denoted_int j hx hx' heq
    | float y hy =>
      by_cases hzero : (float x).denoted = Binary.ofRat 0
      · rw [normalizeKey_of_denoted_zero hx hzero, normalizeKey_of_denoted_zero hy (heq.symm.trans hzero)]
      · have hnonzero : ¬(x == 0.0) = true := fun h =>
          hzero (((Binary.beq_iff_value hx Number.isNaN_zero).mp h).trans Binary.value_ofFloat_zero)
        rw [Number.eq_of_beq ((Binary.beq_iff_value hx hy).mpr heq) hnonzero]

/-- Numbers that denote the same address the same entry of a table. -/
theorem get_eq_of_denoted (ctx : Table.Context) (t : Table) (heq : a.denoted = b.denoted) :
    t.get ctx a = t.get ctx b := by
  have hkey := normalizeKey_eq_of_denoted ha hb heq
  cases hstored : Table.normalizeKey b with
  | ok stored => rw [Table.get_of_normalizeKey ctx t hstored, Table.get_of_normalizeKey ctx t (hkey.trans hstored)]
  | error e =>
    rw [Table.get_of_normalizeKey_error ctx t hstored, Table.get_of_normalizeKey_error ctx t (hkey.trans hstored)]

/-- The last integers are taken for the double just above them. -/
theorem compares_of_blurred (hblurred : a.Blurred b) :
    a.rawEqual b = true ∧ ∀ orEqual, Arithmetic.ordered? orEqual a b = some orEqual := by
  cases ha with
  | int i =>
    cases hb with
    | int j => exact hblurred.elim
    | float y hy =>
      have hvalue := value_ofInt64_of_blurred i hblurred
      refine ⟨(Binary.beq_iff_value (isNaN_ofInt64 i) hy).mpr hvalue, fun orEqual => ?_⟩
      cases orEqual with
      | false =>
        exact congrArg some (decide_eq_false fun h => ((Binary.lt_iff_value (isNaN_ofInt64 i) hy).mp h).ne hvalue)
      | true => exact congrArg some (decide_eq_true ((Binary.le_iff_value (isNaN_ofInt64 i) hy).mpr hvalue.le))
  | float x hx =>
    cases hb with
    | int j =>
      have hvalue := value_ofInt64_of_blurred j hblurred
      refine ⟨(Binary.beq_iff_value (isNaN_ofInt64 j) hx).mpr hvalue, fun orEqual => ?_⟩
      cases orEqual with
      | false =>
        exact congrArg some (decide_eq_false fun h => ((Binary.lt_iff_value hx (isNaN_ofInt64 j)).mp h).ne' hvalue)
      | true => exact congrArg some (decide_eq_true ((Binary.le_iff_value hx (isNaN_ofInt64 j)).mpr hvalue.ge))
    | float y => exact hblurred.elim

end Comparing

/-- Two of the last integers are not equal, but both equal the double above them. -/
example : (int 9223372036854775806).rawEqual (float 9223372036854775808.0) = true ∧
    (float 9223372036854775808.0).rawEqual (int 9223372036854775807) = true ∧
    (int 9223372036854775806).rawEqual (int 9223372036854775807) = false := by decide +kernel

end Value

namespace Machine

section Numbers

variable (m : Machine) (t : ThreadId) {a b : Value} (ha : a.IsProperNumber) (hb : b.IsProperNumber)
  (hblurred : ¬a.Blurred b)
include ha hb hblurred

/-- Equality of numbers is exact, but for the last integers and the double just above them. -/
theorem equal_of_numbers : m.equal a b = .done [.bool (decide (a.denoted = b.denoted))] := by
  have hequal := Value.rawEqual_iff_denoted ha hb hblurred
  unfold equal
  by_cases heq : a.denoted = b.denoted
  · simp only [hequal.mpr heq, decide_eq_true heq, if_true]
  · cases ha with
    | int | float => simp [Bool.eq_false_iff.mpr (mt hequal.mp heq), heq]

/-- So is their order. -/
theorem lessThan_of_numbers : m.lessThan t a b = .done [.bool (decide (a.denoted < b.denoted))] := by
  rw [lessThan, Value.ordered?_eq_some ha hb false hblurred]
  rfl

theorem lessEqual_of_numbers : m.lessEqual t a b = .done [.bool (decide (a.denoted ≤ b.denoted))] := by
  rw [lessEqual, Value.ordered?_eq_some ha hb true hblurred]
  rfl

end Numbers

end Machine

end LuaMachine
