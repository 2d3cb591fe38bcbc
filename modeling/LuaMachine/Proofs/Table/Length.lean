import LuaMachine.Proofs.Table.Border
import LuaMachine.Proofs.Table.Layout

namespace LuaMachine.Table

/-- A loop of the search, with the keys that it stands at. -/
inductive Loop
  /-- Halves what lies between a key with a value and one without. -/
  | halve (low high : Nat)
  /-- Counts on from a key. -/
  | count (low : Nat)
  /-- Doubles the higher of two keys. -/
  | double (low high : Nat)
deriving DecidableEq

/-- The loop looks at the key `n`, which is one of the keys up to `last`. -/
structure Looks (holds : Nat → Bool) (last n : Nat) (live : Bool) : Prop where
  positive : 0 < n
  inRange : n ≤ last
  eq : holds n = live

/-- A loop ends, with the key `n`, and all the keys that it looks at are keys up to `last`. -/
inductive Finds (holds : Nat → Bool) (last : Nat) : Loop → Nat → Prop
  | halved {low high : Nat} (h : high - low ≤ 1) : Finds holds last (.halve low high) low
  | upper {low high n : Nat} (h : 1 < high - low) (hlook : Looks holds last ((low + high) / 2) true)
      (hrest : Finds holds last (.halve ((low + high) / 2) high) n) : Finds holds last (.halve low high) n
  | lower {low high n : Nat} (h : 1 < high - low) (hlook : Looks holds last ((low + high) / 2) false)
      (hrest : Finds holds last (.halve low ((low + high) / 2)) n) : Finds holds last (.halve low high) n
  | counted {low : Nat} (hlook : Looks holds last (low + 1) false) : Finds holds last (.count low) low
  | next {low n : Nat} (hlook : Looks holds last (low + 1) true) (hrest : Finds holds last (.count (low + 1)) n) :
      Finds holds last (.count low) n
  | doubled {low high n : Nat} (hlook : Looks holds last high false)
      (hrest : Finds holds last (.halve low high) n) : Finds holds last (.double low high) n
  | further {low high n : Nat} (hlook : Looks holds last high true) (h : high ≤ 0x3fffffffffffffff)
      (hrest : Finds holds last (.double high (high * 2)) n) : Finds holds last (.double low high) n
  | over {low high n : Nat} (hlook : Looks holds last high true) (h : 0x3fffffffffffffff < high)
      (hrest : Finds holds last (.count 0) n) : Finds holds last (.double low high) n

/-- How the length comes about: an array part that ends with nil is halved, behind one that does not the keys of the
hash part are searched by doubling. -/
inductive Measures (ctx : Context) (t : Table) : Nat → Prop
  | inside {n : Nat} (hsize : 0 < t.array.size) (hlast : (t.array[t.array.size - 1]?.getD .nil).isNil = true)
      (hfinds : Finds (fun n => !(t.array[n - 1]?.getD .nil).isNil) t.array.size (.halve 0 t.array.size) n) :
      Measures ctx t n
  | full (hlast : t.array.size = 0 ∨ (t.array[t.array.size - 1]?.getD .nil).isNil = false)
      (hnodes : t.part.nodes = 0) : Measures ctx t t.array.size
  | beyond {n : Nat} (hlast : t.array.size = 0 ∨ (t.array[t.array.size - 1]?.getD .nil).isNil = false)
      (hnodes : t.part.nodes ≠ 0)
      (hfinds : Finds (t.hasNat ctx) maxPlaces (.double t.array.size (t.array.size + 1)) n) : Measures ctx t n

section Loops

variable {holds : Nat → Bool} {last : Nat}

/-- Halving ends if it may halve often enough, and stays between its ends. -/
theorem finds_bisect (fuel : Nat) {low high : Nat} (horder : low < high) (hfuel : high ≤ low + 2 ^ fuel)
    (hrange : high ≤ last) : Finds holds last (.halve low high) (bisect holds fuel low high) := by
  induction fuel generalizing low high with
  | zero => exact .halved (by simp only [Nat.pow_zero] at hfuel; omega)
  | succ fuel ih =>
    rw [bisect]
    split
    · rename_i hdone
      exact .halved hdone
    · rename_i hwide
      have hpow : 2 ^ (fuel + 1) = 2 ^ fuel + 2 ^ fuel := by rw [Nat.pow_succ]; omega
      have hlook {live : Bool} (hlive : holds ((low + high) / 2) = live) : Looks holds last ((low + high) / 2) live :=
        ⟨by omega, by omega, hlive⟩
      dsimp only
      split
      · rename_i hmiddle
        exact .upper (by omega) (hlook hmiddle) (ih (by omega) (by omega) hrange)
      · rename_i hmiddle
        exact .lower (by omega) (hlook (by simpa using hmiddle)) (ih (by omega) (by omega) (by omega))

/-- Counting ends if no value comes next where it may count no further. -/
theorem finds_lastInRow (fuel : Nat) {low : Nat} (hrange : lastInRow holds fuel low < last)
    (hnext : holds (lastInRow holds fuel low + 1) = false) :
    Finds holds last (.count low) (lastInRow holds fuel low) := by
  induction fuel generalizing low with
  | zero => exact .counted ⟨Nat.succ_pos low, hrange, hnext⟩
  | succ fuel ih =>
    have hle := (lastInRow_spec holds (fuel + 1) low).1
    rw [lastInRow] at hrange hnext hle ⊢
    split at hrange
    · rename_i hlive
      rw [if_pos hlive] at hnext hle ⊢
      exact .next ⟨Nat.succ_pos low, (lastInRow_spec holds fuel (low + 1)).1.trans (Nat.le_of_lt hrange), hlive⟩
        (ih hrange hnext)
    · rename_i hstop
      rw [if_neg hstop] at hnext ⊢
      exact .counted ⟨Nat.succ_pos low, hrange, hnext⟩

end Loops

section Searching

variable {ctx : Context} {K : Set Value} {t : Table}

/-- Doubling ends in a table in memory. -/
theorem Sound.finds_unboundSearch (ht : t.Sound ctx.hash K) (hmemory : t.array.size + t.part.nodes < maxExact)
    (fuel : Nat) {low high : Nat} (horder : low < high) (hlow : low = 0 ∨ t.hasNat ctx low = true)
    (hrange : high ≤ maxPlaces) (hfuel : 2 ^ 64 ≤ high * 2 ^ fuel) :
    Finds (t.hasNat ctx) maxPlaces (.double low high) (t.unboundSearch ctx fuel low high) := by
  have hlook {n : Nat} {live : Bool} (hn : n ≤ maxPlaces) (hpos : 0 < n) (hlive : t.hasNat ctx n = live) :
      Looks (t.hasNat ctx) maxPlaces n live := ⟨hpos, hn, hlive⟩
  induction fuel generalizing low high with
  | zero => simp only [maxPlaces] at hrange; omega
  | succ fuel ih =>
    rw [unboundSearch]
    split
    · rename_i hhigh
      have hlive := hlook hrange (by omega) hhigh
      split
      · rename_i hhalf
        have hlt : lastInRow (t.hasNat ctx) (t.array.size + t.part.nodes) 0 < maxPlaces :=
          (lastInRow_le _ 0).trans_lt (by simp only [maxExact, maxPlaces] at *; omega)
        exact .over hlive hhalf (finds_lastInRow _ hlt ((ht.lastInRow_border hmemory).2 hlt))
      · rename_i hhalf
        have hdouble : high * 2 ^ (fuel + 1) = high * 2 * 2 ^ fuel := by rw [Nat.pow_succ]; ring
        exact .further hlive (Nat.not_lt.mp hhalf)
          (ih (show high < high * 2 by omega) (.inr hhigh) (by simp only [maxPlaces]; omega) (hdouble ▸ hfuel))
    · rename_i hhigh
      have hnil : t.hasNat ctx high = false := by simpa using hhigh
      have hfuel : high ≤ low + 2 ^ 64 := by simp only [maxPlaces] at hrange; omega
      exact .doubled (hlook hrange (by omega) hnil) (finds_bisect 64 horder hfuel hrange)

/-- The search for the length of a table in memory ends. -/
theorem Sound.measures_length (ht : t.Sound ctx.hash K) (hmemory : t.array.size + t.part.nodes < maxExact) :
    t.Measures ctx (t.length ctx) := by
  rw [length]
  split
  · rename_i hlast
    obtain ⟨hsize, hnil⟩ := hlast
    have hfuel : t.array.size ≤ 0 + 2 ^ t.array.size := by
      have := Nat.lt_two_pow_self (n := t.array.size)
      omega
    exact .inside hsize hnil (finds_bisect _ hsize hfuel (Nat.le_refl _))
  · rename_i hlast
    have hfull : t.array.size = 0 ∨ (t.array[t.array.size - 1]?.getD .nil).isNil = false := by
      simpa [Nat.pos_iff_ne_zero, or_iff_not_imp_left] using hlast
    split
    · rename_i hnodes
      exact .full hfull hnodes
    · rename_i hnodes
      have hlow : t.array.size = 0 ∨ t.hasNat ctx t.array.size = true :=
        or_iff_not_imp_left.mpr fun hsize =>
          (ht.hasNat_of_live hsize (Nat.le_refl _) (hfull.resolve_left hsize)).2
      have hplaces : t.array.size + 1 ≤ maxPlaces := by simp only [maxExact, maxPlaces] at *; omega
      exact .beyond hfull hnodes
        (ht.finds_unboundSearch hmemory 64 (Nat.lt_succ_self _) hlow hplaces (by omega))

end Searching

/-- **The length is a border.** Whatever was done to a new table, whatever the hash function, and whatever has vanished
from the table, the search for its length ends, without looking at anything but places of the array part and integers.
The length is zero or a key with a value, and the next integer has none; so where the positive integers with a value
are `1 .. n`, it is `n`. The table has fewer than `2 ^ 53` places and nodes, as every table in memory has. -/
theorem border_changed (hash : Value → UInt64) (arraySize hashSize : Nat) (changes : List (Context × Change))
    (hhash : ∀ call ∈ changes, call.1.hash = hash) (ctx : Context) (hctx : ctx.hash = hash) :
    let t := (new arraySize hashSize).changed changes
    t.array.size + t.part.nodes < maxExact →
      t.Measures ctx (t.length ctx) ∧ t.length ctx < maxPlaces ∧
      (t.length ctx = 0 ∨ t.get ctx (.int (Int64.ofNat (t.length ctx))) ≠ .nil) ∧
      t.get ctx (.int (Int64.ofNat (t.length ctx + 1))) = .nil ∧
      ∀ n : Nat, (∀ i : Int64, 0 < i.toInt → (t.get ctx (.int i) ≠ .nil ↔ i.toInt ≤ n)) → t.length ctx = n := by
  subst hctx
  intro t hmemory
  have ht : t.Sound ctx.hash {key | IsStored key} :=
    ((wellFormed_new ctx.hash _ arraySize hashSize).changed hhash fun _ => isStored_of_mem_keysWritten).toSound
  obtain ⟨⟨hzero, hnext⟩, hlt⟩ := ht.length_border hmemory
  have hlive {n : Nat} : t.get ctx (.int (Int64.ofNat n)) ≠ .nil ↔ t.hasNat ctx n = true := by
    rw [ne_eq, ← Value.isNil_iff, hasNat, get, Bool.not_eq_true, Bool.not_eq_true']
  have hnil : t.get ctx (.int (Int64.ofNat (t.length ctx + 1))) = .nil := by
    by_contra hne
    rw [← ne_eq, hlive, hnext hlt] at hne
    cases hne
  refine ⟨ht.measures_length hmemory, hlt, hzero.imp_right hlive.mpr, hnil, fun n hrow => ?_⟩
  have hafter := (hrow (Int64.ofNat (t.length ctx + 1)) (by rw [toInt_placeKey hlt]; omega)).not.mp (not_not_intro hnil)
  rw [toInt_placeKey hlt] at hafter
  rcases Nat.eq_zero_or_pos (t.length ctx) with hempty | hpos
  · omega
  · obtain ⟨i, hi⟩ : ∃ i, t.length ctx = i + 1 := ⟨_, (Nat.sub_add_cancel hpos).symm⟩
    have hhere := hlive.mpr (hzero.resolve_left (by omega))
    rw [hi] at hhere
    have hle := (hrow _ (by rw [toInt_placeKey (by omega)]; omega)).mp hhere
    rw [toInt_placeKey (by omega)] at hle
    omega

/-- A table with weak values in which all keys have one hash: the third one vanishes, and the largest integer is a key
too. The keys 1, 2 and 4 are looked at, and then 3. -/
theorem border_changed_weak_values :
    let before : Context := ⟨fun _ => 0, fun _ _ => true, {}⟩
    let after : Context := ⟨fun _ => 0, fun _ r => r != .table ⟨2⟩, {}⟩
    let changes : List (Context × Change) := [(before, .setMetatable (some ⟨1⟩) ⟨false, true⟩),
      (before, .operate (.setInt 1 (.table ⟨7⟩))), (before, .operate (.setInt 2 (.int 5))),
      (before, .operate (.setInt 3 (.table ⟨2⟩))), (before, .operate (.setInt Int64.maxValue (.bool true)))]
    let t := (new 0 0).changed changes
    t.length before = 3 ∧ t.length after = 2 ∧ t.Measures after 2 ∧ t.get after (.int 3) = .nil := by
  intro before after changes t
  have hhash : ∀ call ∈ changes, call.1.hash = fun _ => 0 := by simp [changes, before]
  have hlength : t.length after = 2 := by decide +kernel
  have hborder := border_changed (fun _ => 0) 0 0 changes hhash after rfl (by decide +kernel)
  rw [hlength] at hborder
  exact ⟨by decide +kernel, hlength, hborder.1, hborder.2.2.2.1⟩

end LuaMachine.Table
