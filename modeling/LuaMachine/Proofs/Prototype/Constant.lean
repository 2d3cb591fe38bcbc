import LuaMachine.Prototype.Constant
import LuaMachine.Proofs.Number.Single

namespace LuaMachine

theorem Number.int64?_toInt (i : Int64) : Number.int64? i.toInt = some i := by
  rw [Number.int64?, if_pos ⟨i.minValue_le_toInt, i.toInt_le⟩, Int64.ofInt_toInt]

theorem Number.toInt_of_int64? {n : Int} {i : Int64} (hi : Number.int64? n = some i) : i.toInt = n := by
  unfold Number.int64? at hi
  split at hi
  · rename_i hrange
    rw [← Option.some.inj hi, Int64.toInt_ofInt_of_le hrange.1 (Int.lt_of_le_of_lt hrange.2 (by decide))]
  · cases hi

namespace Constant

/-- What a number given by its exact reading is as a constant: the equal 64-bit integer if there is one, negative
zero excepted, or else the equal double. -/
inductive StandsFor : Constant → Binary → Prop
  | int {i : Int64} {x : Binary} (hvalue : x.integer? = some i.toInt) (hzero : ¬(i = 0 ∧ x.isNegative)) :
    StandsFor (int i) x
  | float {bits : UInt64} {x : Binary} (hcanonical : number bits = float bits)
    (hvalue : x.Equals (Binary.ofBits bits)) : StandsFor (float bits) x

theorem number_eq (bits : UInt64) :
    number bits = match (Binary.ofBits bits).integer?.bind Number.int64? with
      | some i => if i = 0 ∧ (Binary.ofBits bits).isNegative then float bits else int i
      | none => float bits := by
  rw [number, Value.number, show Binary.ofFloat (Double.ofBits bits).value = Binary.ofBits bits from
    Binary.ofFloat_ofBits bits]
  cases (Binary.ofBits bits).integer?.bind Number.int64? with
  | none => rfl
  | some i =>
    by_cases hzero : i = 0 ∧ (Binary.ofBits bits).isNegative
    · simp only [if_pos hzero]
    · simp only [if_neg hzero]

/-- A program sees the number of the double. -/
theorem value_number (x : Float) : (number x.toBits).value = Value.number x := by
  rw [number, Double.ofBits_toBits]
  have hcases : Value.number x = .float x ∨ ∃ i, Value.number x = .int i := by
    rw [Value.number]
    split
    · split
      · exact Or.inl rfl
      · exact Or.inr ⟨_, rfl⟩
    · exact Or.inl rfl
  obtain h | ⟨i, h⟩ := hcases <;> rw [h]
  · exact congrArg Value.float (Double.ofBits_toBits x)
  · rfl

/-- A double is loaded as the constant that it stands for. -/
theorem number_standsFor (bits : UInt64) : (number bits).StandsFor (Binary.ofBits bits) := by
  have hfloat : number bits = float bits → (number bits).StandsFor (Binary.ofBits bits) :=
    fun h => h ▸ .float h (Binary.Equals.refl _)
  cases hinteger : (Binary.ofBits bits).integer?.bind Number.int64? with
  | none => exact hfloat (by rw [number_eq, hinteger])
  | some i =>
    by_cases hzero : i = 0 ∧ (Binary.ofBits bits).isNegative
    · exact hfloat (by rw [number_eq, hinteger]; exact if_pos hzero)
    · obtain ⟨n, hn, hi⟩ := Option.bind_eq_some_iff.mp hinteger
      have hnumber : number bits = int i := by
        rw [number_eq, hinteger]
        exact if_neg hzero
      rw [hnumber]
      exact .int (Number.toInt_of_int64? hi ▸ hn) hzero

/-- A number stands for one constant, the NaNs apart. -/
theorem StandsFor.number_eq {c : Constant} {x : Binary} {bits : UInt64} (hc : c.StandsFor x)
    (hx : x.Equals (Binary.ofBits bits)) (hnan : x = .nan → c = Constant.float bits) : number bits = c := by
  cases hc with
  | @int i _ hvalue hzero =>
    rw [hx.integer?_eq] at hvalue
    rw [hx.isNegative_eq] at hzero
    rw [Constant.number_eq, hvalue, Option.bind_some, Number.int64?_toInt]
    exact if_neg hzero
  | @float canonical _ hcanonical hvalue =>
    by_cases hx' : x = .nan
    · obtain rfl : canonical = bits := by simpa using hnan hx'
      exact hcanonical
    · obtain rfl : bits = canonical := by
        refine (hx.symm.trans hvalue).bits_eq fun hbits => hx' ?_
        rw [hbits] at hx
        cases x <;> first | rfl | exact hx.elim
      exact hcanonical

/-- An integer that equals some double is loaded as it was when the double was written. -/
theorem number_ofInt64 {i : Int64} {x : Float} (hx : (Binary.ofFloat x).integer? = some i.toInt) :
    number (Number.ofInt64 i).toBits = int i := by
  have hvalue := Binary.integer?_ofInt (Binary.ofFloat_eq_ofBits x ▸ hx)
  rw [← Number.ofInt64, Binary.ofFloat_eq_ofBits] at hvalue
  have hzero : ¬(i = 0 ∧ (Binary.ofBits (Number.ofInt64 i).toBits).isNegative) := by
    rintro ⟨rfl, hnegative⟩
    have hplus : (Binary.ofBits (Number.ofInt64 0).toBits).isNegative = false := rfl
    rw [hplus] at hnegative
    cases hnegative
  exact (StandsFor.int hvalue hzero).number_eq (Binary.Equals.refl _) fun hnan => by
    rw [hnan] at hvalue
    cases hvalue

end Constant

end LuaMachine
