import LuaMachine.Instruction.Size
import Mathlib

namespace LuaMachine.SizeByte

/-- A number that a byte could stand for if its exponent had no bound: one below eight, or four bits with a leading one
times a power of two. -/
def IsSize (n : Nat) : Prop := n < 8 ∨ ∃ m k, 8 ≤ m ∧ m < 16 ∧ n = m * 2 ^ k

theorem isSize_of_lt {n : Nat} (h : n < 16) : IsSize n := by
  by_cases hn : n < 8
  · exact .inl hn
  · exact .inr ⟨n, 0, by omega, h, by simp⟩

theorem IsSize.double {n : Nat} (h : IsSize n) (hn : 8 ≤ n) : IsSize (2 * n) := by
  obtain hlt | ⟨m, k, hm, hm', rfl⟩ := h
  · omega
  · exact .inr ⟨m, k + 1, hm, hm', by ring⟩

/-- From sixteen on, the sizes are the doubles of the sizes from eight on. -/
theorem IsSize.half {n : Nat} (h : IsSize n) (hn : 16 ≤ n) : ∃ s, IsSize s ∧ 8 ≤ s ∧ n = 2 * s := by
  obtain hlt | ⟨m, k, hm, hm', rfl⟩ := h
  · omega
  · cases k with
    | zero => omega
    | succ k =>
      refine ⟨m * 2 ^ k, .inr ⟨m, k, hm, hm', rfl⟩, ?_, by ring⟩
      exact hm.trans (Nat.le_mul_of_pos_right m (Nat.two_pow_pos k))

/-- The least size that is not below `n`. -/
def IsLeastSize (n s : Nat) : Prop := IsLeast {s | IsSize s ∧ n ≤ s} s

theorem isLeastSize_of_lt {n : Nat} (h : n < 16) : IsLeastSize n n :=
  ⟨⟨isSize_of_lt h, le_rfl⟩, fun _ hs => hs.2⟩

/-- Rounding up is doubling what half the number, rounded up, is rounded up to. -/
theorem IsLeastSize.double {n s : Nat} (h : IsLeastSize ((n + 1) / 2) s) (hn : 16 ≤ n) : IsLeastSize n (2 * s) := by
  obtain ⟨⟨hsize, hle⟩, hleast⟩ := h
  refine ⟨⟨hsize.double (by omega), by omega⟩, ?_⟩
  rintro r ⟨hr, hnr⟩
  obtain ⟨half, hhalf, -, rfl⟩ := hr.half (hn.trans hnr)
  have hsmaller := hleast ⟨hhalf, by omega⟩
  omega

theorem toNat_succ {x : UInt32} (h : x.toNat + 1 < 2 ^ 32) : (x + 1).toNat = x.toNat + 1 := by
  rw [UInt32.toNat_add, UInt32.toNat_one, Nat.mod_eq_of_lt h]

/-- A halving that rounds up, where the increment does not overflow. -/
theorem toNat_halve {x : UInt32} (h : x.toNat + 1 < 2 ^ 32) : ((x + 1) >>> 1).toNat = (x.toNat + 1) / 2 := by
  rw [UInt32.toNat_shiftRight, toNat_succ h, UInt32.toNat_one, Nat.shiftRight_eq_div_pow]

theorem reduce_of_lt {fuel : Nat} {x e : UInt32} (h : x.toNat < 16) : reduce fuel x e = (x, e) := by
  cases fuel with
  | zero => rfl
  | succ fuel => rw [reduce, if_pos (UInt32.lt_iff_toNat_lt.mpr h)]

theorem reduce_of_le {fuel : Nat} {x e : UInt32} (h : 16 ≤ x.toNat) :
    reduce (fuel + 1) x e = reduce fuel ((x + 1) >>> 1) (e + 1) := by
  have hnot : ¬x < 16 := fun hlt => Nat.not_lt.mpr h (UInt32.lt_iff_toNat_lt.mp hlt)
  rw [reduce, if_neg hnot]

/-- What is left of a size after `k` halvings, each rounded up: four bits, which stand for the rounded size. -/
structure Leaves (size : Nat) (rest : UInt32) (k : Nat) : Prop where
  rest_lt : rest.toNat < 16
  le_rest : k = 0 ∨ 8 ≤ rest.toNat
  least : IsLeastSize size (rest.toNat * 2 ^ k)

theorem leaves_of_lt {x : UInt32} (h : x.toNat < 16) : Leaves x.toNat x 0 :=
  ⟨h, .inl rfl, by simpa using isLeastSize_of_lt h⟩

theorem Leaves.halve {n k : Nat} {rest : UInt32} (h : Leaves ((n + 1) / 2) rest k) (hn : 16 ≤ n) :
    Leaves n rest (k + 1) := by
  refine ⟨h.rest_lt, .inr ?_, ?_⟩
  · obtain rfl | hle := h.le_rest
    · have hhalf := h.least.1.2
      omega
    · exact hle
  · rw [Nat.pow_succ', Nat.mul_left_comm]
    exact h.least.double hn

/-- The halvings end before the fuel does, and none of them overflows. -/
theorem exists_reduce {j : Nat} (extra : Nat) {x e : UInt32} (hx : x.toNat ≤ 15 * 2 ^ j)
    (hmax : x.toNat + 1 < 2 ^ 32) (he : e.toNat + j < 2 ^ 32) :
    ∃ k ≤ j, Leaves x.toNat (reduce (j + extra) x e).1 k ∧ (reduce (j + extra) x e).2.toNat = e.toNat + k := by
  -- the bound is 15 * 2 ^ j and not 16 * 2 ^ j, as a halving that rounds up takes only the former to its half
  induction j generalizing x e with
  | zero =>
    have hlt : x.toNat < 16 := by omega
    rw [reduce_of_lt hlt]
    exact ⟨0, le_rfl, leaves_of_lt hlt, rfl⟩
  | succ j ih =>
    by_cases hlt : x.toNat < 16
    · rw [reduce_of_lt hlt]
      exact ⟨0, Nat.zero_le _, leaves_of_lt hlt, rfl⟩
    · have hle := Nat.not_lt.mp hlt
      have hhalf := toNat_halve hmax
      have hnext := toNat_succ (x := e) (by omega)
      rw [Nat.add_right_comm, reduce_of_le hle]
      obtain ⟨k, hk, hleaves, hcount⟩ := ih (x := (x + 1) >>> 1) (e := e + 1) (by omega) (by omega) (by omega)
      rw [hhalf] at hleaves
      exact ⟨k + 1, by omega, hleaves.halve hle, by omega⟩

theorem decode_of_lt {byte : UInt32} (h : byte.toNat < 8) : decode byte = byte.toNat := by
  rw [decode]
  exact if_pos (by omega)

/-- The byte of an exponent and three bits, the leading one left out. -/
theorem toNat_packed {e rest : UInt32} (he : e.toNat + 1 < 32) (hlow : 8 ≤ rest.toNat) (hhigh : rest.toNat < 16) :
    (((e + 1) <<< 3) ||| (rest - 8)).toNat = (e.toNat + 1) * 8 + (rest.toNat - 8) := by
  have hnext := toNat_succ (x := e) (by omega)
  have hshift : ((e + 1) <<< 3).toNat = (e.toNat + 1) <<< 3 := by
    rw [UInt32.toNat_shiftLeft, hnext, show UInt32.toNat 3 % 32 = 3 from rfl]
    exact Nat.mod_eq_of_lt (by rw [Nat.shiftLeft_eq]; omega)
  have hrest : (rest - 8).toNat = rest.toNat - 8 := UInt32.toNat_sub_of_le _ _ (UInt32.le_iff_toNat_le.mpr hlow)
  rw [UInt32.toNat_or, hshift, hrest, ← Nat.shiftLeft_add_eq_or_of_lt (by omega), Nat.shiftLeft_eq]

theorem decode_packed {e rest : UInt32} (he : e.toNat + 1 < 32) (hlow : 8 ≤ rest.toNat) (hhigh : rest.toNat < 16) :
    decode (((e + 1) <<< 3) ||| (rest - 8)) = rest.toNat * 2 ^ e.toNat := by
  rw [decode, toNat_packed he hlow hhigh]
  have hexponent : ((e.toNat + 1) * 8 + (rest.toNat - 8)) / 8 % 32 = e.toNat + 1 := by omega
  have hbits : ((e.toNat + 1) * 8 + (rest.toNat - 8)) % 8 + 8 = rest.toNat := by omega
  rw [hexponent, hbits]
  exact if_neg (Nat.succ_ne_zero _)

/-- A size is rounded up to the least one that is not below it. -/
theorem isLeastSize_decode_encode {size : UInt32} (h : size.toNat + 1 < 2 ^ 32) :
    IsLeastSize size.toNat (decode (encode size)) := by
  -- 29 halvings are enough for any word, so the exponent stays below the five bits of its field
  obtain ⟨k, hk, hleaves, hcount⟩ := exists_reduce (j := 29) 3 (x := size) (e := 0) (by omega) h (by decide)
  obtain ⟨hlt, hle, hleast⟩ := hleaves
  rw [UInt32.toNat_zero, Nat.zero_add] at hcount
  generalize hreduced : reduce (29 + 3) size 0 = reduced at hlt hle hleast hcount
  have hencode : encode size = if reduced.1 < 8 then reduced.1 else ((reduced.2 + 1) <<< 3) ||| (reduced.1 - 8) := by
    rw [← hreduced]
    rfl
  rw [hencode]
  split
  · rename_i hsmall
    have hsmall : reduced.1.toNat < 8 := UInt32.lt_iff_toNat_lt.mp hsmall
    obtain rfl : k = 0 := by omega
    rw [decode_of_lt hsmall]
    simpa using hleast
  · rename_i hlarge
    have hlarge : 8 ≤ reduced.1.toNat := Nat.not_lt.mp fun hsmall => hlarge (UInt32.lt_iff_toNat_lt.mpr hsmall)
    rw [decode_packed (by omega) hlarge hlt, hcount]
    exact hleast

/-- The largest word is the one size that is not rounded up: its increment overflows, and it gets the byte of zero. -/
theorem isLeastSize_decode_encode_iff (size : UInt32) :
    IsLeastSize size.toNat (decode (encode size)) ↔ size ≠ 4294967295 := by
  constructor
  · rintro ⟨⟨-, hle⟩, -⟩ rfl
    revert hle
    decide
  · intro hne
    refine isLeastSize_decode_encode ?_
    have hlt := size.toNat_lt
    have hsize : size.toNat ≠ 4294967295 := fun heq => hne (UInt32.toNat_inj.mp heq)
    omega

example : [0, 7, 8, 17, 100, 4097, 4294967294].map (fun n => decode (encode n)) =
    [0, 7, 8, 18, 104, 4608, 4294967296] := by decide

end LuaMachine.SizeByte
