import LuaMachine.Proofs.Table.Key

namespace LuaMachine.Table

/-- Whether a key is one of the integers from one up to a bound. -/
def isUpTo (n : Nat) : Value → Bool
  | .int i => 1 ≤ i.toInt ∧ i.toInt ≤ n
  | _ => false

/-- The integers from one up to a bound are the keys of as many places. -/
theorem isUpTo_iff {n : Nat} (hn : n ≤ maxPlaces) {key : Value} : isUpTo n key = true ↔ ∃ i < n, key = placeKey i := by
  constructor
  · intro h
    cases key with
    | int i =>
      obtain ⟨hone, hle⟩ : 1 ≤ i.toInt ∧ i.toInt ≤ n := by simpa [isUpTo] using h
      refine ⟨i.toInt.toNat - 1, by omega, ?_⟩
      rw [placeKey, Value.int.injEq, ← Int64.toInt_inj, toInt_placeKey (by omega)]
      omega
    | nil | bool | float | str | table | closure | native | userdata | thread => cases h
  · rintro ⟨i, hi, rfl⟩
    have hint := toInt_placeKey (hi.trans_le hn)
    simp only [isUpTo, placeKey, hint, decide_eq_true_eq]
    omega

/-- The size of an array part by the rule that more than half of its places are in use: the largest such power of two,
or zero if there is none. -/
structure IsArraySize (used : Nat → Nat) (size : Nat) : Prop where
  power : size = 0 ∨ ∃ bits ≤ maxArrayBits, size = 2 ^ bits
  full : size ≠ 0 → size < 2 * used size
  largest : ∀ bits ≤ maxArrayBits, 2 ^ bits < 2 * used (2 ^ bits) → 2 ^ bits ≤ size

theorem IsArraySize.le {used : Nat → Nat} {size : Nat} (h : IsArraySize used size) : size ≤ 2 ^ maxArrayBits := by
  rcases h.power with rfl | ⟨bits, hbits, rfl⟩
  · exact Nat.zero_le _
  · exact Nat.pow_le_pow_right (by omega) hbits

/-- Only how many keys there are up to the bounds that are tried matters. -/
theorem IsArraySize.congr {used used' : Nat → Nat} {size : Nat} (h : IsArraySize used size)
    (hused : ∀ n ≤ 2 ^ maxArrayBits, used n = used' n) : IsArraySize used' size := by
  refine ⟨h.power, fun hne => ?_, fun bits hbits hmore => h.largest bits hbits ?_⟩
  · rw [← hused _ h.le]
    exact h.full hne
  · rwa [hused _ (Nat.pow_le_pow_right (by omega) hbits)]

section Counting

/-- The classes up to `bits` are those of the keys up to `2 ^ bits`. -/
theorem sizeClass_le_iff {key bits : Nat} : sizeClass key ≤ bits ↔ key ≤ 2 ^ bits := by
  have hpos : 0 < 2 ^ bits := Nat.two_pow_pos bits
  unfold sizeClass
  split
  · omega
  · rw [Nat.succ_le_iff, Nat.log2_lt (by omega)]
    omega

theorem sum_take_modify {counts : List Nat} {i : Nat} (hi : i < counts.length) (n : Nat) :
    ((counts.modify i (· + 1)).take n).sum = (counts.take n).sum + (decide (i < n)).toNat := by
  induction counts generalizing i n with
  | nil => cases hi
  | cons count rest ih =>
    cases n with
    | zero => simp
    | succ n =>
      cases i with
      | zero => simp [Nat.add_right_comm]
      | succ i => simp [ih (Nat.lt_of_succ_lt_succ hi) n, Nat.add_assoc]

@[simp] theorem size_countKey (counts : Array Nat) (key : Value) : (countKey counts key).size = counts.size := by
  unfold countKey
  split
  · split <;> simp
  · rfl

/-- A key counts in the classes up to `bits` if it is one of the integers up to `2 ^ bits`. -/
theorem sum_countKey {counts : Array Nat} (hsize : counts.size = maxArrayBits + 1) (key : Value) {bits : Nat}
    (hbits : bits ≤ maxArrayBits) : ((countKey counts key).toList.take (bits + 1)).sum =
      (counts.toList.take (bits + 1)).sum + (isUpTo (2 ^ bits) key).toNat := by
  have hle : 2 ^ bits ≤ 2 ^ maxArrayBits := Nat.pow_le_pow_right (by omega) hbits
  cases key with
  | int i =>
    rw [countKey, isUpTo]
    split
    · rename_i hrange
      obtain ⟨hone, hmax⟩ := hrange
      have hmax : i.toInt.toNat ≤ 2 ^ maxArrayBits := by
        change i.toInt ≤ ((2 ^ maxArrayBits : Nat) : Int) at hmax
        omega
      have hclass : sizeClass i.toInt.toNat < counts.toList.length := by
        rw [Array.length_toList, hsize]
        exact Nat.lt_succ_of_le (sizeClass_le_iff.mpr hmax)
      have hiff : sizeClass i.toInt.toNat < bits + 1 ↔ 1 ≤ i.toInt ∧ i.toInt ≤ ((2 ^ bits : Nat) : Int) := by
        rw [Nat.lt_succ_iff, sizeClass_le_iff]
        omega
      rw [Array.toList_modify, sum_take_modify hclass, decide_eq_decide.mpr hiff]
    · rename_i hrange
      have hout : ¬(1 ≤ i.toInt ∧ i.toInt ≤ ((2 ^ bits : Nat) : Int)) := fun h =>
        hrange ⟨h.1, h.2.trans (Int.ofNat_le.mpr hle)⟩
      rw [decide_eq_false hout]
      rfl
  | nil | bool | float | str | table | closure | native | userdata | thread => rfl

/-- The counts by class hold, up to a class, as many keys as there are up to its bound. -/
theorem sum_foldl_countKey (keys : List Value) {counts : Array Nat} (hsize : counts.size = maxArrayBits + 1)
    {bits : Nat} (hbits : bits ≤ maxArrayBits) : ((keys.foldl countKey counts).toList.take (bits + 1)).sum =
      (counts.toList.take (bits + 1)).sum + keys.countP (isUpTo (2 ^ bits)) := by
  induction keys generalizing counts with
  | nil => rfl
  | cons key rest ih =>
    rw [List.foldl_cons, ih ((size_countKey counts key).trans hsize), sum_countKey hsize key hbits, List.countP_cons]
    cases isUpTo (2 ^ bits) key <;>
      simp only [Bool.toNat_true, Bool.toNat_false, Bool.false_eq_true, if_true, if_false] <;> omega

theorem size_foldl_countKey (keys : List Value) (counts : Array Nat) :
    (keys.foldl countKey counts).size = counts.size := by
  induction keys generalizing counts with
  | nil => rfl
  | cons key rest ih => rw [List.foldl_cons, ih, size_countKey]

/-- How far the choice of a size has come behind some classes: their number, the keys in them, and the largest bound of
a class up to which more than half of the places are in use. -/
structure Picked (counts : List Nat) (state : Nat × Nat × Nat) : Prop where
  bits : state.1 = counts.length
  used : state.2.1 = counts.sum
  size : state.2.2 = 0 ∨ ∃ bits < counts.length, state.2.2 = 2 ^ bits ∧ 2 ^ bits < 2 * (counts.take (bits + 1)).sum
  largest : ∀ bits < counts.length, 2 ^ bits < 2 * (counts.take (bits + 1)).sum → 2 ^ bits ≤ state.2.2

/-- Going through the classes picks the largest of their bounds of which more than half is in use. -/
theorem picked_foldl (counts : List Nat) : Picked counts (counts.foldl (fun (bits, used, size) count =>
    (bits + 1, used + count, if Nat.pow 2 bits / 2 < used + count then Nat.pow 2 bits else size)) (0, 0, 0)) := by
  induction counts using List.reverseRecOn with
  | nil => exact ⟨rfl, rfl, .inl rfl, fun bits h => nomatch h⟩
  | append_singleton counts count ih =>
    obtain ⟨hbits, hused, hsize, hlargest⟩ := ih
    rw [List.foldl_append]
    generalize counts.foldl _ (0, 0, 0) = state at hbits hused hsize hlargest ⊢
    obtain ⟨bits, used, size⟩ := state
    dsimp only at hbits hused hsize hlargest
    subst hbits hused
    have hinit {bits : Nat} (h : bits < counts.length) : (counts ++ [count]).take (bits + 1) = counts.take (bits + 1) :=
      List.take_append_of_le_length h
    have hlast : ((counts ++ [count]).take (counts.length + 1)).sum = counts.sum + count := by
      rw [List.take_of_length_le (by simp), List.sum_append, List.sum_singleton]
    have hdense : Nat.pow 2 counts.length / 2 < counts.sum + count ↔
        2 ^ counts.length < 2 * (counts.sum + count) := by
      change 2 ^ counts.length / 2 < counts.sum + count ↔ _
      omega
    simp only [List.foldl_cons, List.foldl_nil]
    refine ⟨by simp, by simp, ?_, fun bits hlt hmore => ?_⟩
    · split
      · rename_i h
        exact .inr ⟨counts.length, by simp, rfl, by rw [hlast]; exact hdense.mp h⟩
      · refine hsize.imp_right fun ⟨bits, hlt, heq, hmore⟩ => ⟨bits, by simp; omega, heq, by rwa [hinit hlt]⟩
    · have hgrow : 2 ^ bits ≤ 2 ^ counts.length := Nat.pow_le_pow_right (by omega) (by simp at hlt; omega)
      split
      · exact hgrow
      · rename_i h
        by_cases hlt' : bits < counts.length
        · exact hlargest bits hlt' (by rwa [hinit hlt'] at hmore)
        · obtain rfl : bits = counts.length := by simp at hlt; omega
          exact absurd (hdense.mpr (hlast ▸ hmore)) h

/-- The size chosen for some keys follows the rule. -/
theorem isArraySize_idealArraySize {mode : WeakMode} (hmode : mode.values = false) (keys : List Value) :
    IsArraySize (fun n => keys.countP (isUpTo n)) (idealArraySize mode keys) := by
  have hlength : (keys.foldl countKey (Array.replicate (maxArrayBits + 1) 0)).toList.length = maxArrayBits + 1 := by
    rw [Array.length_toList, size_foldl_countKey, Array.size_replicate]
  have hcount {bits : Nat} (hbits : bits ≤ maxArrayBits) :
      ((keys.foldl countKey (Array.replicate (maxArrayBits + 1) 0)).toList.take (bits + 1)).sum =
        keys.countP (isUpTo (2 ^ bits)) := by
    rw [sum_foldl_countKey keys Array.size_replicate hbits]
    simp
  rw [idealArraySize, if_neg (by rw [hmode]; exact Bool.false_ne_true), arraySizeFor, ← Array.foldl_toList]
  obtain ⟨-, -, hsize, hlargest⟩ := picked_foldl (keys.foldl countKey (Array.replicate (maxArrayBits + 1) 0)).toList
  rw [hlength] at hsize hlargest
  refine ⟨hsize.imp_right fun ⟨bits, hlt, heq, _⟩ => ⟨bits, Nat.le_of_lt_succ hlt, heq⟩, fun hne => ?_,
    fun bits hle hmore => hlargest bits (Nat.lt_succ_of_le hle) (by rwa [hcount hle])⟩
  obtain ⟨bits, hlt, heq, hmore⟩ := hsize.resolve_left hne
  rw [hcount (Nat.le_of_lt_succ hlt)] at hmore
  exact heq ▸ hmore

/-- An array part is never made larger than `2 ^ maxArrayBits`. -/
theorem idealArraySize_le (mode : WeakMode) (keys : List Value) : idealArraySize mode keys ≤ 2 ^ maxArrayBits := by
  cases hmode : mode.values with
  | true =>
    rw [idealArraySize, if_pos hmode]
    exact Nat.zero_le _
  | false => exact (isArraySize_idealArraySize hmode keys).le

end Counting

end LuaMachine.Table
