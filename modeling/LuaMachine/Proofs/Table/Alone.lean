import LuaMachine.Proofs.Value.Comparing

namespace LuaMachine

namespace Value

/-- What is equal to a value that is no number is that value. -/
theorem eq_of_rawEqual {v w : Value} (hnumber : w.isNumber = false) (h : v.rawEqual w = true) : v = w := by
  cases v <;> cases w <;> simp_all [rawEqual, isNumber, kind]

theorem isNumber_of_rawEqual {v w : Value} (hnumber : w.isNumber = true) (h : v.rawEqual w = true) :
    v.isNumber = true := by
  cases v <;> cases w <;> simp_all [rawEqual, isNumber, kind]

theorem isNaN_of_beq {x y : Float} (h : (x == y) = true) : x.isNaN = false ∧ y.isNaN = false := by
  refine ⟨?_, ?_⟩
  · by_contra hnan
    rw [Number.beq_eq_false_of_isNaN (by simpa using hnan)] at h
    cases h
  · by_contra hnan
    rw [Number.beq_eq_false_of_isNaN_right (by simpa using hnan)] at h
    cases h

/-- No value is equal to two integers that doubles represent. -/
theorem eq_of_rawEqual_int {v : Value} {i j : Int64} (hi : i.toInt.natAbs ≤ 2 ^ 53) (hj : j.toInt.natAbs ≤ 2 ^ 53)
    (hvi : v.rawEqual (int i) = true) (hvj : v.rawEqual (int j) = true) : i = j := by
  cases v with
  | int k =>
    simp only [rawEqual, beq_iff_eq] at hvi hvj
    exact hvi.symm.trans hvj
  | float x =>
    have hnan := (isNaN_of_beq hvi).2
    have hx (k : Int64) (hk : k.toInt.natAbs ≤ 2 ^ 53) (h : (float x).rawEqual (int k) = true) :
        Binary.ofRat k.toInt = (Binary.ofFloat x).value := by
      rw [← Binary.nearestInt_of_le hk, ← value_ofInt64]
      exact (Binary.beq_iff_value (isNaN_ofInt64 k) hnan).mp h
    have hsame := (hx i hi hvi).trans (hx j hj hvj).symm
    exact Int64.toInt_inj.mp (by exact_mod_cast Binary.ofRat_inj.mp hsame)
  | nil | bool | str | table | closure | native | userdata | thread => cases hvi

end Value

namespace Table

variable {hash : Value → UInt64} {K : Set Value} {key : Value}

/-- No other key is taken for one that is no number. -/
theorem alone_of_not_number (hkey : key ∈ K) (hstored : IsStored key) (hnumber : key.isNumber = false) :
    Alone hash K key := ⟨hkey, hstored, fun _ _ _ h => Value.eq_of_rawEqual hnumber h⟩

theorem isProperNumber {v : Value} (hstored : IsStored v) (hcanonical : v.IsCanonical) (hnumber : v.isNumber = true) :
    v.IsProperNumber := by
  cases v with
  | int i => exact .int i
  | float x =>
    have hnan : x.value.isNaN = false := by
      by_contra hnan
      rw [IsStored, normalizeKey, if_pos (by simpa using hnan)] at hstored
      cases hstored
    rw [← Double.ofFloat_value hnan] at hcanonical ⊢
    exact .float x.value hnan hcanonical
  | nil | bool | str | table | closure | native | userdata | thread => cases hnumber

/-- Raw equality takes canonical keys for one another only if one is among the last integers and the other the double
just above them. -/
theorem eq_of_rawEqual_of_isCanonical {k l : Value} (hk : IsStored k) (hk' : k.IsCanonical) (hl : IsStored l)
    (hl' : l.IsCanonical) (hblurred : ¬k.Blurred l) (h : k.rawEqual l = true) : k = l := by
  cases hnumber : l.isNumber with
  | false => exact Value.eq_of_rawEqual hnumber h
  | true =>
    have hkn := isProperNumber hk hk' (Value.isNumber_of_rawEqual hnumber h)
    have hln := isProperNumber hl hl' hnumber
    have hsame := Value.normalizeKey_eq_of_denoted hkn hln ((Value.rawEqual_iff_denoted hkn hln hblurred).mp h)
    rw [hk, hl] at hsame
    exact Except.ok.inj hsame

/-- The canonical values that are keys in stored form. -/
def canonicalKeys : Set Value := {k | IsStored k ∧ k.IsCanonical}

theorem int_mem_canonicalKeys (i : Int64) : .int i ∈ canonicalKeys := ⟨isStored_int i, Value.isCanonical_int i⟩

theorem str_mem_canonicalKeys (s : String) : .str s ∈ canonicalKeys := ⟨isStored_str s, Value.isCanonical_str s⟩

theorem placeKey_mem_canonicalKeys (i : Nat) : placeKey i ∈ canonicalKeys := int_mem_canonicalKeys _

/-- No other canonical key is taken for an integer that is not among the last. -/
theorem alone_int (hash : Value → UInt64) {i : Int64} (hi : i.toInt < 2 ^ 63 - 512) :
    Alone hash canonicalKeys (.int i) := by
  refine ⟨int_mem_canonicalKeys i, isStored_int i, fun l hl _ h => ?_⟩
  refine eq_of_rawEqual_of_isCanonical hl.1 hl.2 (isStored_int i) (Value.isCanonical_int i) ?_ h
  intro hblurred
  cases l with
  | float x => exact absurd hblurred.1 (by omega)
  | nil | bool | int | str | table | closure | native | userdata | thread => exact hblurred

end Table

end LuaMachine
