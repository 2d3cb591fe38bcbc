import LuaMachine.Proofs.Number.Order
import LuaMachine.Table.Traversal

namespace LuaMachine

namespace Number

open Float.Model (Format UnpackedFloat)

theorem beq_eq_false_of_isNaN {x : Float} (hnan : x.isNaN = true) (y : Float) : (x == y) = false := by
  have hunpack : x.toModel.unpack.isNaN = true := hnan
  change (x.toModel.unpack.compare y.toModel.unpack == some .eq) = false
  cases hx : x.toModel.unpack with
  | notANumber => simp [UnpackedFloat.compare]
  | infinity | zero | finite => simp [hx, UnpackedFloat.isNaN] at hunpack

theorem beq_eq_false_of_isNaN_right {y : Float} (hnan : y.isNaN = true) (x : Float) : (x == y) = false := by
  have hunpack : y.toModel.unpack.isNaN = true := hnan
  change (x.toModel.unpack.compare y.toModel.unpack == some .eq) = false
  cases hy : y.toModel.unpack with
  | notANumber => cases x.toModel.unpack <;> simp [UnpackedFloat.compare]
  | infinity | zero | finite => simp [hy, UnpackedFloat.isNaN] at hunpack

theorem beq_comm (x y : Float) : (x == y) = (y == x) := by
  cases hx : x.isNaN with
  | true => rw [beq_eq_false_of_isNaN hx, beq_eq_false_of_isNaN_right hx]
  | false =>
    cases hy : y.isNaN with
    | true => rw [beq_eq_false_of_isNaN hy, beq_eq_false_of_isNaN_right hy]
    | false =>
      rw [Bool.eq_iff_iff, Binary.beq_iff_value hx hy, Binary.beq_iff_value hy hx]
      exact eq_comm

theorem isNaN_zero : (0.0 : Float).isNaN = false := by decide

theorem beq_self_of_not_isNaN {x : Float} (hnan : x.isNaN = false) : (x == x) = true := by
  have hunpack : x.toModel.unpack.isNaN = false := hnan
  change (x.toModel.unpack.compare x.toModel.unpack == some .eq) = true
  cases hx : x.toModel.unpack with
  | notANumber => simp [hx, UnpackedFloat.isNaN] at hunpack
  | infinity s | zero s => cases s <;> rfl
  | finite s => cases s <;> simp [UnpackedFloat.compare]

/-- Doubles that compare equal are the same, unless they are zeros. -/
theorem eq_of_beq {x y : Float} (h : (x == y) = true) (hzero : ¬(x == 0.0) = true) : x = y := by
  change (x.toModel.unpack.compare y.toModel.unpack == some .eq) = true at h
  have hnotZero (s : UnpackedFloat.Sign) (hx : x.toModel.unpack = .zero s) : False := by
    apply hzero
    change (x.toModel.unpack.compare (0.0 : Float).toModel.unpack == some .eq) = true
    have hliteral : (0.0 : Float).toModel.unpack = .zero .positive := by rfl
    rw [hx, hliteral]
    rfl
  have hunpack : x.toModel.unpack = y.toModel.unpack := by
    cases hx : x.toModel.unpack with
    | notANumber => simp [hx, UnpackedFloat.compare] at h
    | zero s => exact (hnotZero s hx).elim
    | infinity s =>
      cases hy : y.toModel.unpack with
      | infinity t => cases s <;> cases t <;> simp_all [UnpackedFloat.compare]
      | notANumber | zero | finite => cases s <;> simp [hx, hy, UnpackedFloat.compare] at h
    | finite s m e hm =>
      cases hy : y.toModel.unpack with
      | finite t n f hn => cases s <;> cases t <;> simp_all [UnpackedFloat.compare, Ordering.then_eq_eq]
      | infinity t => cases t <;> cases s <;> simp [hx, hy, UnpackedFloat.compare] at h
      | notANumber | zero => cases s <;> simp [hx, hy, UnpackedFloat.compare] at h
  have hpack (z : Float) : UnpackedFloat.pack Format.binary64 z.toModel.unpack = z.toModel.toBits.toBitVec :=
    UnpackedFloat.pack_unpack_of_valid z.toModel.valid
  have hbits : x.toModel.toBits.toBitVec = y.toModel.toBits.toBitVec := by rw [← hpack, ← hpack, hunpack]
  obtain ⟨⟨a, _⟩⟩ := x
  obtain ⟨⟨b, _⟩⟩ := y
  simp only [Float.ofModel.injEq, Float.Model.mk.injEq]
  exact UInt64.toBitVec_inj.mp hbits

end Number

theorem Value.isNil_iff {v : Value} : v.isNil = true ↔ v = .nil := by
  cases v <;> simp [isNil]

theorem Value.rawEqual_comm (v w : Value) : v.rawEqual w = w.rawEqual v := by
  cases v with
  | float x => cases w <;> simp only [rawEqual, Number.beq_comm x.value]
  | nil | bool | int | str | table | closure | native | userdata | thread =>
    cases w <;> simp [rawEqual, Bool.beq_comm, eq_comm]

namespace Table

/-- The form of a key that stands in a slot: neither nil nor NaN, and an integer for both zeros. -/
def IsStored (key : Value) : Prop := normalizeKey key = .ok key

theorem normalizeKey_idem {key stored : Value} (h : normalizeKey key = .ok stored) : IsStored stored := by
  unfold IsStored
  cases key with
  | float x =>
    simp only [normalizeKey] at h
    split at h
    · cases h
    · rename_i hnan
      split at h
      · cases h
        rfl
      · rename_i hzero
        cases h
        rw [normalizeKey, if_neg hnan, if_neg hzero]
  | nil => cases h
  | bool | int | str | table | closure | native | userdata | thread =>
    cases h
    rfl

@[simp] theorem isStored_int (i : Int64) : IsStored (.int i) := rfl

@[simp] theorem isStored_str (s : String) : IsStored (.str s) := rfl

theorem IsStored.ne_nil {key : Value} (h : IsStored key) : key ≠ .nil := by
  rintro rfl
  cases h

theorem IsStored.rawEqual_self {key : Value} (h : IsStored key) : key.rawEqual key = true := by
  cases key with
  | float x =>
    cases hnan : x.value.isNaN with
    | false => exact Number.beq_self_of_not_isNaN hnan
    | true =>
      rw [IsStored, normalizeKey, if_pos hnan] at h
      cases h
  | nil => cases h
  | bool | int | str | table | closure | native | userdata | thread => simp [Value.rawEqual]

/-- A set of keys in stored form among which a hash function keeps different keys apart that raw equality takes
for one another. -/
structure Separated (hash : Value → UInt64) (K : Set Value) : Prop where
  stored : ∀ k ∈ K, IsStored k
  eq_of_rawEqual : ∀ k ∈ K, ∀ l ∈ K, hash k = hash l → k.rawEqual l = true → k = l

/-- A key in stored form that no other key of a set is taken for: those that raw equality takes for it hash
differently. -/
structure Alone (hash : Value → UInt64) (K : Set Value) (key : Value) : Prop where
  mem : key ∈ K
  stored : IsStored key
  eq_of_rawEqual : ∀ l ∈ K, hash l = hash key → l.rawEqual key = true → l = key

/-- Hash and raw equality together recognise the key. -/
theorem Alone.belongs_iff {hash : Value → UInt64} {K : Set Value} {key l : Value} (hkey : Alone hash K key)
    (hl : l ∈ K) : (hash l == hash key && l.rawEqual key) = true ↔ l = key := by
  simp only [Bool.and_eq_true, beq_iff_eq]
  constructor
  · rintro ⟨hhash, hequal⟩
    exact hkey.eq_of_rawEqual l hl hhash hequal
  · rintro rfl
    exact ⟨rfl, hkey.stored.rawEqual_self⟩

/-- Hash and raw equality together do not take the key for another one. -/
theorem Alone.not_belongs {hash : Value → UInt64} {K : Set Value} {key l : Value} (hkey : Alone hash K key)
    (hl : l ∈ K) (hne : key ≠ l) : ¬(hash key == hash l && key.rawEqual l) = true := by
  simp only [Bool.and_eq_true, beq_iff_eq, not_and]
  exact fun hhash hequal => hne (hkey.eq_of_rawEqual l hl hhash.symm (Value.rawEqual_comm key l ▸ hequal)).symm

theorem Separated.alone {hash : Value → UInt64} {K : Set Value} (hK : Separated hash K) {key : Value}
    (hkey : key ∈ K) : Alone hash K key :=
  ⟨hkey, hK.stored key hkey, fun l hl hhash hequal => hK.eq_of_rawEqual l hl key hkey hhash hequal⟩

/-- A set of keys in stored form on which raw equality is identity. -/
structure Distinguished (K : Set Value) : Prop where
  stored : ∀ k ∈ K, IsStored k
  eq_of_rawEqual : ∀ k ∈ K, ∀ l ∈ K, k.rawEqual l = true → k = l
  rawEqual_self : ∀ k ∈ K, k.rawEqual k = true

theorem Distinguished.separated {K : Set Value} (hK : Distinguished K) (hash : Value → UInt64) : Separated hash K :=
  ⟨hK.stored, fun k hk l hl _ => hK.eq_of_rawEqual k hk l hl⟩

/-- The key of the `i`-th place of an array part, from zero. -/
def placeKey (i : Nat) : Value := .int (Int64.ofNat (i + 1))

/-- Places beyond the integers have no key of their own. -/
def maxPlaces : Nat := 9223372036854775807

theorem toInt_placeKey {i : Nat} (h : i < maxPlaces) : (Int64.ofNat (i + 1)).toInt = i + 1 := by
  have hbound : i + 1 < 2 ^ 63 := by simp only [maxPlaces] at h; omega
  simpa using Int64.toInt_ofNat_of_lt hbound

theorem placeKey_injective {i j : Nat} (hi : i < maxPlaces) (hj : j < maxPlaces)
    (h : placeKey i = placeKey j) : i = j := by
  simp only [placeKey, Value.int.injEq] at h
  have hint := congrArg Int64.toInt h
  rw [toInt_placeKey hi, toInt_placeKey hj] at hint
  omega

/-- Different places have different keys. -/
theorem nodup_map_placeKey {n : Nat} (hmax : n ≤ maxPlaces) : ((List.range n).map placeKey).Nodup :=
  List.Nodup.map_on (fun _ hi _ hj => placeKey_injective ((List.mem_range.mp hi).trans_le hmax)
    ((List.mem_range.mp hj).trans_le hmax)) List.nodup_range

/-- A key has a place exactly if it is the key of a place that the array part has. -/
theorem arrayIndex?_eq_some {t : Table} {key : Value} {i : Nat} :
    t.arrayIndex? key = some i ↔ i < t.array.size ∧ i < maxPlaces ∧ key = placeKey i := by
  constructor
  · intro h
    cases key with
    | int n =>
      simp only [arrayIndex?] at h
      split at h
      · rename_i hrange
        cases h
        have hmax : n.toInt < 2 ^ 63 := Int64.toInt_lt n
        refine ⟨by omega, by simp only [maxPlaces]; omega, ?_⟩
        simp only [placeKey, Value.int.injEq]
        apply Int64.toInt_inj.mp
        rw [toInt_placeKey (by simp only [maxPlaces]; omega)]
        omega
      · cases h
    | nil | bool | float | str | table | closure | native | userdata | thread => cases h
  · rintro ⟨hsize, hmax, rfl⟩
    have hint := toInt_placeKey hmax
    simp only [placeKey, arrayIndex?, hint]
    rw [if_pos (by omega)]
    congr 1

theorem arrayIndex?_placeKey {t : Table} {i : Nat} (hsize : i < t.array.size) (hmax : i < maxPlaces) :
    t.arrayIndex? (placeKey i) = some i :=
  arrayIndex?_eq_some.mpr ⟨hsize, hmax, rfl⟩

/-- Only the size of the array part decides which keys have a place. -/
theorem arrayIndex?_congr {t u : Table} (h : t.array.size = u.array.size) (key : Value) :
    t.arrayIndex? key = u.arrayIndex? key := by
  cases key <;> simp [arrayIndex?, h]

/-- Reading under a key is reading under its stored form. -/
theorem get_of_normalizeKey (ctx : Context) (t : Table) {key stored : Value}
    (h : normalizeKey key = .ok stored) : t.get ctx key = t.get ctx stored := by
  cases key with
  | float x =>
    simp only [normalizeKey] at h
    split at h
    · cases h
    · split at h
      · rename_i hzero
        cases h
        simp [get, hzero]
      · cases h
        rfl
  | nil => cases h
  | bool | int | str | table | closure | native | userdata | thread =>
    cases h
    rfl

/-- Under nil and NaN there is never a value. -/
theorem get_of_normalizeKey_error (ctx : Context) (t : Table) {key : Value} {e : Error}
    (h : normalizeKey key = .error e) : t.get ctx key = .nil := by
  cases key with
  | float x =>
    simp only [normalizeKey] at h
    split at h
    · rename_i hnan
      have hzero : ¬(x.value == 0.0) = true := by
        rw [Number.beq_eq_false_of_isNaN hnan]
        decide
      rw [get, if_neg hzero, if_pos hnan]
    · split at h <;> cases h
  | nil => rfl
  | bool | int | str | table | closure | native | userdata | thread => cases h

/-- Reading under a stored key looks into the array part if the key has a place there, and into the hash
part otherwise. -/
theorem get_of_isStored (ctx : Context) (t : Table) {key : Value} (h : IsStored key) :
    t.get ctx key = match t.arrayIndex? key with
      | some place => t.array[place]?.getD .nil
      | none => (t.part.get? ctx key).getD .nil := by
  cases key with
  | float x =>
    simp only [IsStored, normalizeKey] at h
    split at h
    · cases h
    · rename_i hnan
      split at h
      · cases h
      · rename_i hzero
        rw [get, if_neg hzero, if_neg hnan]
        rfl
  | nil => cases h
  | int i => rfl
  | bool | str | table | closure | native | userdata | thread => rfl

end Table

end LuaMachine
