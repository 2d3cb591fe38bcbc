import LuaMachine.Proofs.Table.Alone
import LuaMachine.Proofs.Table.Operations

namespace LuaMachine.Table

/-- Zero or a key with a value, such that the next integer has none; behind the largest integer comes no other. -/
def IsBorder (holds : Nat → Bool) (n : Nat) : Prop :=
  (n = 0 ∨ holds n = true) ∧ (n < maxPlaces → holds (n + 1) = false)

/-- Halving finds a border between its ends if it may halve often enough. -/
theorem bisect_spec (holds : Nat → Bool) (fuel : Nat) {low high : Nat} (horder : low < high)
    (hfuel : high ≤ low + 2 ^ fuel) (hlow : low = 0 ∨ holds low = true) (hhigh : holds high = false) :
    IsBorder holds (bisect holds fuel low high) ∧ low ≤ bisect holds fuel low high ∧
      bisect holds fuel low high < high := by
  induction fuel generalizing low high with
  | zero =>
    have hnext : high = low + 1 := by simp only [Nat.pow_zero] at hfuel; omega
    exact ⟨⟨hlow, fun _ => hnext ▸ hhigh⟩, Nat.le_refl low, horder⟩
  | succ fuel ih =>
    rw [bisect]
    split
    · have hnext : high = low + 1 := by omega
      exact ⟨⟨hlow, fun _ => hnext ▸ hhigh⟩, Nat.le_refl low, horder⟩
    · have hpow : 2 ^ (fuel + 1) = 2 ^ fuel + 2 ^ fuel := by rw [Nat.pow_succ]; omega
      dsimp only
      split
      · rename_i hmiddle
        obtain ⟨hborder, hle, hlt⟩ := ih (show (low + high) / 2 < high by omega) (by omega)
          (.inr hmiddle) hhigh
        exact ⟨hborder, by omega, hlt⟩
      · rename_i hmiddle
        obtain ⟨hborder, hle, hlt⟩ := ih (show low < (low + high) / 2 by omega) (by omega) hlow
          (by simpa using hmiddle)
        exact ⟨hborder, hle, by omega⟩

/-- Counting stops behind the last key in a row, or where it may count no further. -/
theorem lastInRow_spec (holds : Nat → Bool) (fuel low : Nat) :
    low ≤ lastInRow holds fuel low ∧ (∀ n, low < n → n ≤ lastInRow holds fuel low → holds n = true) ∧
      (holds (lastInRow holds fuel low + 1) = false ∨ lastInRow holds fuel low = low + fuel) := by
  induction fuel generalizing low with
  | zero => exact ⟨Nat.le_refl low, fun n hlow hn => absurd hn (Nat.not_le.mpr hlow), .inr rfl⟩
  | succ fuel ih =>
    rw [lastInRow]
    split
    · rename_i hnext
      obtain ⟨hle, hrow, hend⟩ := ih (low + 1)
      refine ⟨by omega, fun n hn hlast => ?_, hend.imp_right fun h => by omega⟩
      by_cases hfirst : n = low + 1
      · exact hfirst ▸ hnext
      · exact hrow n (by omega) hlast
    · rename_i hnext
      exact ⟨Nat.le_refl low, fun n hlow hn => absurd hn (Nat.not_le.mpr hlow), .inl (by simpa using hnext)⟩

/-- Counting goes no further than it may. -/
theorem lastInRow_le {holds : Nat → Bool} (fuel low : Nat) : lastInRow holds fuel low ≤ low + fuel := by
  induction fuel generalizing low with
  | zero => exact Nat.le_refl low
  | succ fuel ih =>
    rw [lastInRow]
    split
    · exact (ih (low + 1)).trans (by omega)
    · exact Nat.le_add_right low _

section Reading

variable {ctx : Context} {K : Set Value} {t : Table}

/-- A natural key with a place has a value exactly if the place is not nil. -/
theorem hasNat_of_place {i : Nat} (hi : i < t.array.size) (hmax : i < maxPlaces) :
    t.hasNat ctx (i + 1) = !t.array[i].isNil := by
  have hplace : t.arrayIndex? (.int (Int64.ofNat (i + 1))) = some i := arrayIndex?_placeKey hi hmax
  rw [hasNat, getInt, hplace]
  simp [hi]

/-- A natural key that no other is taken for has a value exactly if it has an entry. -/
theorem Sound.hasNat_iff (ht : t.Sound ctx.hash K) {i : Nat} (hkey : Alone ctx.hash K (placeKey i)) :
    t.hasNat ctx (i + 1) = true ↔ ∃ v, (placeKey i, v) ∈ t.entries ctx := by
  simp only [ht.mem_entries_iff hkey]
  constructor
  · intro h
    exact ⟨_, rfl, by simpa [hasNat, placeKey, get] using h⟩
  · rintro ⟨v, rfl, hlive⟩
    simpa [hasNat, placeKey, get] using hlive

/-- The entries of the hash part that have not vanished, in order among all of them. -/
theorem HashPart.entries_sublist_pairs (ctx : Context) (p : HashPart) : (p.entries ctx).Sublist p.pairs := by
  rw [HashPart.entries_eq, HashPart.pairs]
  induction p.nodeList with
  | nil => exact List.Sublist.refl _
  | cons n rest ih =>
    simp only [Chain.entries, Chain.pairs, List.filterMap_cons, Slot.entry?_eq_ite ctx n.slot] at ih ⊢
    cases n.slot.pair? with
    | none => simpa using ih
    | some e =>
      split
      · rename_i h
        split at h
        · exact ih.cons e
        · cases h
      · rename_i h
        split at h
        · cases h
        · cases h
          exact ih.cons_cons e

/-- If no key of an entry is taken for another one, every key has one entry at most. -/
theorem Sound.nodup_entries {hash : Value → UInt64} (ht : t.Sound hash K) {ctx : Context}
    (halone : ∀ e ∈ t.entries ctx, Alone hash K e.1) : ((t.entries ctx).map (·.1)).Nodup := by
  have hpart : ((t.part.entries ctx).map (·.1)).Sublist t.part.keys :=
    ((t.part.entries_sublist_pairs ctx).map (·.1)).trans t.part.map_fst_pairs_sublist
  rw [entries, List.map_append, List.nodup_append]
  refine ⟨ht.nodup_arrayKeys 0, List.nodup_iff_count_le_one.mpr fun key => ?_, ?_⟩
  · by_cases hkey : key ∈ (t.part.entries ctx).map (·.1)
    · obtain ⟨e, he, rfl⟩ := List.mem_map.mp hkey
      exact (hpart.count_le _).trans (ht.part.single _ (halone e (List.mem_append_right _ he)))
    · exact (List.count_eq_zero_of_not_mem hkey).trans_le (Nat.zero_le 1)
  · rintro k hk l hl rfl
    obtain ⟨e, he, rfl⟩ := List.mem_map.mp hk
    obtain ⟨i, hi⟩ := ht.exists_place he
    rw [ht.outside _ (hpart.subset hl)] at hi
    cases hi

/-- A natural key without a place that has a value has a node that is taken for its own. -/
theorem exists_node_of_hasNat {i : Nat} (hi : t.array.size ≤ i) (hmax : i < maxPlaces)
    (hlive : t.hasNat ctx (i + 1) = true) : ∃ n ∈ t.part.nodeList,
      (t.part.chainOf ctx (placeKey i)).find? (ctx.hash (placeKey i)) (placeKey i) = some n ∧
        n.slot.key.rawEqual (placeKey i) = true := by
  have hplace : t.arrayIndex? (placeKey i) = none := by
    cases hindex : t.arrayIndex? (placeKey i) with
    | none => rfl
    | some j =>
      obtain ⟨hj, hmax', hsame⟩ := arrayIndex?_eq_some.mp hindex
      have := placeKey_injective hmax hmax' hsame
      omega
  have hread : t.hasNat ctx (i + 1) = !((t.part.get? ctx (placeKey i)).getD .nil).isNil := by
    rw [hasNat, getInt, show t.arrayIndex? (.int (Int64.ofNat (i + 1))) = none from hplace]
    rfl
  cases hget : t.part.get? ctx (placeKey i) with
  | none =>
    rw [hread, hget] at hlive
    cases hlive
  | some v =>
    obtain ⟨n, hfind, -⟩ := Option.bind_eq_some_iff.mp hget
    have hmem : n ∈ t.part.chainOf ctx (placeKey i) := List.mem_of_find?_eq_some hfind
    have hbelongs := List.find?_some (by unfold Chain.find? at hfind; exact hfind)
    simp only [Bool.and_eq_true] at hbelongs
    refine ⟨n, ?_, hfind, hbelongs.2⟩
    rw [HashPart.chainOf] at hmem
    cases hchain : t.part.buckets[t.part.bucketOf (ctx.hash (placeKey i))]? with
    | none =>
      rw [hchain] at hmem
      cases hmem
    | some chain =>
      rw [hchain] at hmem
      exact HashPart.mem_nodeList.mpr ⟨_, chain, hchain, hmem⟩

/-- The integers up to here are doubles. -/
def maxExact : Nat := 2 ^ 53

/-- Keys in a row from one on are no more than places and nodes: no node is taken for two of them. -/
theorem Sound.row_le (ht : t.Sound ctx.hash K) {n : Nat} (hmax : n ≤ maxExact)
    (hrow : ∀ i < n, t.hasNat ctx (i + 1) = true) : n ≤ t.array.size + t.part.nodes := by
  simp only [maxExact] at hmax
  -- the nodes found for the keys behind the array part
  let found (i : Nat) : Option Node := (t.part.chainOf ctx (placeKey (t.array.size + i))).find?
    (ctx.hash (placeKey (t.array.size + i))) (placeKey (t.array.size + i))
  have hfound {i : Nat} (hi : i < n - t.array.size) :
      ∃ m ∈ t.part.nodeList, found i = some m ∧ m.slot.key.rawEqual (placeKey (t.array.size + i)) = true :=
    exists_node_of_hasNat (Nat.le_add_right ..) (by simp only [maxPlaces]; omega) (hrow _ (by omega))
  have hsubset : (List.range (n - t.array.size)).map found ⊆ t.part.nodeList.map some := by
    intro m hm
    obtain ⟨i, hi, rfl⟩ := List.mem_map.mp hm
    obtain ⟨m, hmem, heq, -⟩ := hfound (List.mem_range.mp hi)
    exact heq ▸ List.mem_map.mpr ⟨m, hmem, rfl⟩
  have hnodup : ((List.range (n - t.array.size)).map found).Nodup := by
    refine List.Nodup.map_on (fun i hi j hj hsame => ?_) List.nodup_range
    obtain ⟨m, -, heq, hequal⟩ := hfound (List.mem_range.mp hi)
    obtain ⟨m', -, heq', hequal'⟩ := hfound (List.mem_range.mp hj)
    obtain rfl : m = m' := Option.some.inj (heq.symm.trans (hsame.trans heq'))
    have hexact {i : Nat} (hi : i ∈ List.range (n - t.array.size)) :
        (Int64.ofNat (t.array.size + i + 1)).toInt = t.array.size + i + 1 := by
      have hi := List.mem_range.mp hi
      rw [toInt_placeKey (by simp only [maxPlaces]; omega)]
      omega
    have hkeys := Value.eq_of_rawEqual_int (by rw [hexact hi]; simp only [List.mem_range] at hi; omega)
      (by rw [hexact hj]; simp only [List.mem_range] at hj; omega) hequal hequal'
    have hints := congrArg Int64.toInt hkeys
    rw [hexact hi, hexact hj] at hints
    omega
  have hle := (List.subperm_of_subset hnodup hsubset).length_le
  rw [List.length_map, List.length_range, List.length_map, ← ht.part.nodes_eq] at hle
  omega

/-- Counting from one finds a border of a table in memory: there are no more keys in a row than it may count. -/
theorem Sound.lastInRow_border (ht : t.Sound ctx.hash K) (hmemory : t.array.size + t.part.nodes < maxExact) :
    IsBorder (t.hasNat ctx) (lastInRow (t.hasNat ctx) (t.array.size + t.part.nodes) 0) := by
  obtain ⟨-, hrow, hend⟩ := lastInRow_spec (t.hasNat ctx) (t.array.size + t.part.nodes) 0
  generalize lastInRow (t.hasNat ctx) (t.array.size + t.part.nodes) 0 = n at hrow hend ⊢
  have hzero : n = 0 ∨ t.hasNat ctx n = true := by
    by_cases hn : n = 0
    · exact .inl hn
    · exact .inr (hrow n (by omega) (Nat.le_refl n))
  refine ⟨hzero, fun _ => hend.elim id fun hall => ?_⟩
  by_contra hlive
  have hmore := ht.row_le (n := n + 1) (by omega) fun i hi => by
    by_cases hlast : i = n
    · subst hlast
      simpa using hlive
    · exact hrow (i + 1) (by omega) (by omega)
  omega

/-- Doubling finds a border of a table in memory, among the integers. -/
theorem Sound.unboundSearch_border (ht : t.Sound ctx.hash K) (hmemory : t.array.size + t.part.nodes < maxExact)
    (fuel : Nat) {low high : Nat} (horder : low < high) (hlow : low = 0 ∨ t.hasNat ctx low = true)
    (hrange : high ≤ maxPlaces) (hfuel : 2 ^ 64 ≤ high * 2 ^ fuel) :
    IsBorder (t.hasNat ctx) (t.unboundSearch ctx fuel low high) ∧ t.unboundSearch ctx fuel low high < maxPlaces := by
  induction fuel generalizing low high with
  | zero => simp only [maxPlaces] at hrange; omega
  | succ fuel ih =>
    rw [unboundSearch]
    split
    · rename_i hhigh
      split
      · refine ⟨ht.lastInRow_border hmemory, (lastInRow_le _ 0).trans_lt ?_⟩
        simp only [maxExact, maxPlaces] at *
        omega
      · rename_i hhalf
        refine ih (by omega) (.inr hhigh) (by simp only [maxPlaces]; omega) ?_
        rw [Nat.pow_succ] at hfuel
        rw [Nat.mul_assoc, Nat.mul_comm 2]
        exact hfuel
    · rename_i hhigh
      obtain ⟨hborder, hle, hlt⟩ := bisect_spec _ 64 horder (by simp only [maxPlaces] at hrange; omega) hlow
        (by simpa using hhigh)
      exact ⟨hborder, by omega⟩

/-- The value in a place of the array is that of its key. -/
theorem Sound.hasNat_of_live (ht : t.Sound ctx.hash K) {n : Nat} (hpos : n ≠ 0) (hsize : n ≤ t.array.size)
    (hlive : (t.array[n - 1]?.getD .nil).isNil = false) : n ≤ maxPlaces ∧ t.hasNat ctx n = true := by
  have hplace : n - 1 < t.array.size := by omega
  rw [Array.getElem?_eq_getElem hplace, Option.getD_some] at hlive
  have hmax := (ht.places (n - 1) _ (Array.getElem?_eq_getElem hplace) hlive).1
  have hnat : t.hasNat ctx (n - 1 + 1) = _ := hasNat_of_place hplace hmax
  rw [Nat.sub_add_cancel (by omega), hlive] at hnat
  exact ⟨by omega, hnat⟩

/-- Behind the array comes no key of a table without nodes. -/
theorem Sound.hasNat_of_no_nodes (ht : t.Sound ctx.hash K) (hnodes : t.part.nodes = 0)
    (hmax : t.array.size < maxPlaces) : t.hasNat ctx (t.array.size + 1) = false := by
  by_contra hlive
  obtain ⟨n, hn, -⟩ := exists_node_of_hasNat (Nat.le_refl _) hmax (by simpa using hlive)
  have hempty : t.part.nodeList = [] := List.eq_nil_of_length_eq_zero (ht.part.nodes_eq ▸ hnodes)
  rw [hempty] at hn
  cases hn

/-- The length of a table in memory is a border, among the integers. -/
theorem Sound.length_border (ht : t.Sound ctx.hash K) (hmemory : t.array.size + t.part.nodes < maxExact) :
    IsBorder (t.hasNat ctx) (t.length ctx) ∧ t.length ctx < maxPlaces := by
  have hplaces : t.array.size < maxPlaces := by simp only [maxExact, maxPlaces] at *; omega
  have hread {n : Nat} (hsize : n ≤ t.array.size) (hlive : n = 0 ∨ (t.array[n - 1]?.getD .nil).isNil = false) :
      n = 0 ∨ t.hasNat ctx n = true :=
    or_iff_not_imp_left.mpr fun hpos => (ht.hasNat_of_live hpos hsize (hlive.resolve_left hpos)).2
  rw [length]
  split
  · rename_i hlast
    obtain ⟨hsize, hnil⟩ := hlast
    obtain ⟨⟨hzero, hnext⟩, -, hlt⟩ := bisect_spec
      (fun n => !(t.array[n - 1]?.getD .nil).isNil) t.array.size hsize
      (by have := Nat.lt_two_pow_self (n := t.array.size); omega) (.inl rfl) (by simp [hnil])
    generalize bisect _ t.array.size 0 t.array.size = n at hzero hnext hlt ⊢
    refine ⟨⟨hread (Nat.le_of_lt hlt) (by simpa using hzero), fun hmax => ?_⟩, by omega⟩
    rw [hasNat_of_place hlt hmax]
    simpa [hlt] using hnext hmax
  · rename_i hlast
    have hborder := hread (Nat.le_refl t.array.size) (by simpa [Nat.pos_iff_ne_zero, or_iff_not_imp_left] using hlast)
    split
    · rename_i hnodes
      exact ⟨⟨hborder, ht.hasNat_of_no_nodes hnodes⟩, hplaces⟩
    · exact ht.unboundSearch_border hmemory 64 (Nat.lt_succ_self _) hborder (by omega) (by omega)

/-- Where the positive integer keys are `1 .. n`, the length of a table in memory is `n`. -/
theorem Sound.length_eq (ht : t.Sound ctx.hash K) (hmemory : t.array.size + t.part.nodes < maxExact) {n : Nat}
    (hrow : ∀ i < maxPlaces, t.hasNat ctx (i + 1) = true ↔ i < n) : t.length ctx = n := by
  obtain ⟨⟨hzero, hnext⟩, hmax⟩ := ht.length_border hmemory
  generalize t.length ctx = r at hzero hnext hmax ⊢
  have hle : r ≤ n := by
    rcases Nat.eq_zero_or_pos r with h | h
    · omega
    · have hlive := hzero.resolve_left (by omega)
      rw [← Nat.sub_add_cancel h, hrow _ (by omega)] at hlive
      omega
  have hge : ¬r < n := fun hlt => by
    have hnil := hnext hmax
    rw [(hrow r hmax).mpr hlt] at hnil
    cases hnil
  omega

end Reading

end LuaMachine.Table
