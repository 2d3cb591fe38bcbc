import LuaMachine.Proofs.Table.HashPart.Update

namespace LuaMachine.Table

/-- The entries of an array part from a place on: the places that are not nil, under their keys. -/
theorem mem_arrayEntries {array : Array Value} {start : Nat} {e : Value × Value} :
    e ∈ arrayEntries array start ↔
      ∃ i v, start ≤ i ∧ array[i]? = some v ∧ v.isNil = false ∧ e = (placeKey i, v) := by
  simp only [arrayEntries, List.mem_filterMap, Prod.exists, List.mk_mem_zipIdx_iff_le_and_getElem?_sub,
    List.getElem?_drop, Array.getElem?_toList]
  constructor
  · rintro ⟨v, j, ⟨hj, hget⟩, hentry⟩
    split at hentry
    · cases hentry
    · rename_i hnil
      cases hentry
      refine ⟨j - 1, v, by omega, ?_, by simpa using hnil, ?_⟩
      · rw [← hget]
        congr 1
        omega
      · rw [placeKey, Nat.sub_add_cancel (by omega)]
  · rintro ⟨i, v, hi, hget, hnil, rfl⟩
    refine ⟨v, i + 1, ⟨by omega, ?_⟩, by simp [hnil, placeKey]⟩
    rw [← hget]
    congr 1
    omega

theorem arrayEntries_subset {array : Array Value} {start : Nat} {e : Value × Value}
    (h : e ∈ arrayEntries array start) : e ∈ arrayEntries array 0 := by
  obtain ⟨i, v, -, hget, hnil, rfl⟩ := mem_arrayEntries.mp h
  exact mem_arrayEntries.mpr ⟨i, v, Nat.zero_le i, hget, hnil, rfl⟩

/-- All entries, those included whose objects vanished: the array part first. -/
def pairs (t : Table) : List (Value × Value) := arrayEntries t.array 0 ++ t.part.pairs

theorem mem_pairs {t : Table} {e : Value × Value} :
    e ∈ t.pairs ↔ e ∈ arrayEntries t.array 0 ∨ e ∈ t.part.pairs := List.mem_append

theorem entries_of_everlasting {ctx : Context} (hlasting : ctx.Everlasting) (t : Table) :
    t.entries ctx = t.pairs := by
  rw [entries, HashPart.entries_of_everlasting hlasting, pairs]

/-- Both parts are in order and share no key. Which slots are weak, and how full the hash part is, does not
matter here. -/
structure Sound (hash : Value → UInt64) (K : Set Value) (t : Table) : Prop where
  part : t.part.WellFormed hash K
  outside : ∀ k ∈ t.part.keys, t.arrayIndex? k = none
  live : ∀ e ∈ t.part.pairs, e.2.isNil = false
  places : ∀ i v, t.array[i]? = some v → v.isNil = false → i < maxPlaces ∧ placeKey i ∈ K

/-- The representation invariant of a table. -/
structure WellFormed (hash : Value → UInt64) (K : Set Value) (t : Table) : Prop
    extends Sound hash K t where
  fits : t.part.Fits t.mode
  load : t.part.nodes ≤ 2 * t.part.buckets.size
  noArray : t.mode.values = true → t.array.size = 0

theorem HashPart.Fits.live {mode : WeakMode} {p : HashPart} (h : p.Fits mode) :
    ∀ e ∈ p.pairs, e.2.isNil = false := by
  intro e he
  obtain ⟨n, hn, hpair⟩ := List.mem_filterMap.mp he
  have hfits := h n hn
  cases hslot : n.slot with
  | live strength key value =>
    rw [hslot] at hfits hpair
    cases hpair
    exact hfits.2
  | dead key =>
    rw [hslot] at hpair
    cases hpair

theorem HashPart.mem_pairs_of_mem_entries {ctx : Context} {p : HashPart} {e : Value × Value}
    (h : e ∈ p.entries ctx) : e ∈ p.pairs := by
  rw [HashPart.entries_eq] at h
  obtain ⟨n, hn, hentry⟩ := List.mem_filterMap.mp h
  rw [Slot.entry?_eq_ite] at hentry
  split at hentry
  · cases hentry
  · exact List.mem_filterMap.mpr ⟨n, hn, hentry⟩

theorem mem_pairs_of_mem_entries {ctx : Context} {t : Table} {e : Value × Value} (he : e ∈ t.entries ctx) :
    e ∈ t.pairs := by
  rw [entries, List.mem_append] at he
  exact mem_pairs.mpr (he.imp_right HashPart.mem_pairs_of_mem_entries)

/-- The keys of entries are known, and their values are not nil. -/
theorem Sound.of_mem_pairs {hash : Value → UInt64} {K : Set Value} {t : Table} (ht : t.Sound hash K) {e : Value × Value}
    (he : e ∈ t.pairs) :
    e.1 ∈ K ∧ e.2.isNil = false := by
  rcases mem_pairs.mp he with harray | hpart
  · obtain ⟨i, v, -, hget, hnil, rfl⟩ := mem_arrayEntries.mp harray
    exact ⟨(ht.places i v hget hnil).2, hnil⟩
  · exact ⟨ht.part.known _ (HashPart.mem_keys_of_mem_pairs hpart), ht.live e hpart⟩

/-- More keys may be known. -/
theorem WellFormed.mono {hash : Value → UInt64} {K L : Set Value} {t : Table} (ht : t.WellFormed hash K) (hle : K ⊆ L) :
    t.WellFormed hash L where
  part :=
    { ht.part with
      known := fun k hk => hle (ht.part.known k hk)
      single := fun k hk => by
        by_cases hmem : k ∈ t.part.keys
        · exact ht.part.single k ⟨ht.part.known k hmem, hk.stored, fun l hl => hk.eq_of_rawEqual l (hle hl)⟩
        · exact (List.count_eq_zero_of_not_mem hmem).trans_le (Nat.zero_le 1) }
  outside := ht.outside
  live := ht.live
  places := fun i v hget hnil => (ht.places i v hget hnil).imp_right fun h => hle h
  fits := ht.fits
  load := ht.load
  noArray := ht.noArray

/-- The key of an entry of the array part has a place. -/
theorem Sound.exists_place {hash : Value → UInt64} {K : Set Value} {t : Table} (ht : t.Sound hash K)
    {e : Value × Value} (he : e ∈ arrayEntries t.array 0) : ∃ i, t.arrayIndex? e.1 = some i := by
  obtain ⟨i, v, -, hget, hnil, rfl⟩ := mem_arrayEntries.mp he
  exact ⟨i, arrayIndex?_placeKey (Array.getElem?_eq_some_iff.mp hget).1 (ht.places i v hget hnil).1⟩

section Reading

variable {ctx : Context} {K : Set Value} {t : Table} {key : Value}

/-- A key that no other is taken for has an entry exactly if reading it gives the entry's value. -/
theorem Sound.mem_entries_iff (ht : t.Sound ctx.hash K) (hkey : Alone ctx.hash K key) {v : Value} :
    (key, v) ∈ t.entries ctx ↔ t.get ctx key = v ∧ v.isNil = false := by
  rw [get_of_isStored ctx t hkey.stored, entries, List.mem_append]
  cases hplace : t.arrayIndex? key with
  | some i =>
    obtain ⟨hsize, hmax, rfl⟩ := arrayIndex?_eq_some.mp hplace
    have hpart : (placeKey i, v) ∉ t.part.entries ctx := by
      intro h
      have hmem := HashPart.mem_keys_of_mem_pairs (HashPart.mem_pairs_of_mem_entries h)
      rw [ht.outside _ hmem] at hplace
      cases hplace
    simp only [hpart, or_false, mem_arrayEntries, Array.getElem?_eq_getElem hsize, Option.getD_some]
    constructor
    · rintro ⟨j, w, -, hget, hnil, heq⟩
      simp only [Prod.mk.injEq] at heq
      have hj := (ht.places j w hget hnil).1
      have hij : i = j := placeKey_injective hmax hj heq.1
      subst hij
      rw [Array.getElem?_eq_getElem hsize] at hget
      cases hget
      exact ⟨heq.2.symm, by rw [heq.2]; exact hnil⟩
    · rintro ⟨rfl, hnil⟩
      exact ⟨i, _, Nat.zero_le i, Array.getElem?_eq_getElem hsize, hnil, rfl⟩
  | none =>
    have harray : (key, v) ∉ arrayEntries t.array 0 := by
      intro h
      obtain ⟨i, hi⟩ := ht.exists_place h
      rw [hplace] at hi
      cases hi
    simp only [harray, false_or]
    rw [← ht.part.get?_eq_some_iff hkey]
    cases hget : t.part.get? ctx key with
    | none =>
      constructor
      · intro h
        cases h
      · rintro ⟨rfl, hnil⟩
        cases hnil
    | some w =>
      have hw : w.isNil = false :=
        ht.live (key, w) (HashPart.mem_pairs_of_mem_entries ((ht.part.get?_eq_some_iff hkey).mp hget))
      simp only [Option.some.injEq, Option.getD_some]
      constructor
      · rintro rfl
        exact ⟨rfl, hw⟩
      · exact And.left

/-- What is read under a key stands under one that is taken for it. -/
theorem Sound.exists_mem_entries_of_get (ht : t.Sound ctx.hash K) (hstored : IsStored key)
    (hlive : (t.get ctx key).isNil = false) :
    ∃ k, ctx.hash k = ctx.hash key ∧ k.rawEqual key = true ∧ (k, t.get ctx key) ∈ t.entries ctx := by
  rw [get_of_isStored ctx t hstored] at hlive ⊢
  cases hplace : t.arrayIndex? key with
  | some i =>
    obtain ⟨hsize, -, rfl⟩ := arrayIndex?_eq_some.mp hplace
    simp only [hplace, Array.getElem?_eq_getElem hsize, Option.getD_some] at hlive ⊢
    refine ⟨placeKey i, rfl, (isStored_int _).rawEqual_self, List.mem_append_left _ ?_⟩
    exact mem_arrayEntries.mpr ⟨i, _, Nat.zero_le i, Array.getElem?_eq_getElem hsize, hlive, rfl⟩
  | none =>
    simp only [hplace] at hlive ⊢
    cases hget : t.part.get? ctx key with
    | none =>
      rw [hget] at hlive
      cases hlive
    | some v =>
      obtain ⟨k, hhash, hequal, he⟩ := ht.part.exists_of_get? hget
      exact ⟨k, hhash, hequal, List.mem_append_right _ he⟩

/-- Where no key of an entry is taken for another one, reading any known key gives the value of its entry. -/
theorem Sound.mem_entries_iff_of_alone (ht : t.Sound ctx.hash K) (halone : ∀ e ∈ t.entries ctx, Alone ctx.hash K e.1)
    (hkey : key ∈ K) (hstored : IsStored key) {v : Value} :
    (key, v) ∈ t.entries ctx ↔ t.get ctx key = v ∧ v.isNil = false := by
  constructor
  · exact fun he => (ht.mem_entries_iff (halone _ he)).mp he
  · rintro ⟨rfl, hlive⟩
    obtain ⟨k, hhash, hequal, he⟩ := ht.exists_mem_entries_of_get hstored hlive
    rw [Value.rawEqual_comm] at hequal
    obtain rfl : key = k := (halone _ he).eq_of_rawEqual key hkey hhash.symm hequal
    exact he

/-- Then a known key without an entry reads as nil. -/
theorem Sound.get_of_not_mem_entries (ht : t.Sound ctx.hash K) (halone : ∀ e ∈ t.entries ctx, Alone ctx.hash K e.1)
    (hkey : key ∈ K) (hstored : IsStored key) (hnot : ∀ v, (key, v) ∉ t.entries ctx) : t.get ctx key = .nil := by
  by_contra hlive
  refine hnot _ ((ht.mem_entries_iff_of_alone halone hkey hstored).mpr ⟨rfl, ?_⟩)
  rwa [← Bool.not_eq_true, Value.isNil_iff]

/-- Reading depends on the entry of the key alone. -/
theorem Sound.get_congr {u : Table} (ht : t.Sound ctx.hash K) (hu : u.Sound ctx.hash K)
    (hkey : Alone ctx.hash K key) (h : ∀ v, (key, v) ∈ t.entries ctx ↔ (key, v) ∈ u.entries ctx) :
    t.get ctx key = u.get ctx key := by
  simp only [ht.mem_entries_iff hkey, hu.mem_entries_iff hkey] at h
  cases hnil : (t.get ctx key).isNil with
  | false => exact ((h _).mp ⟨rfl, hnil⟩).1.symm
  | true =>
    cases hother : (u.get ctx key).isNil with
    | false => exact ((h _).mpr ⟨rfl, hother⟩).1
    | true => rw [Value.isNil_iff.mp hnil, Value.isNil_iff.mp hother]

end Reading

theorem pairs_new (arraySize hashSize : Nat) : (new arraySize hashSize).pairs = [] := by
  rw [List.eq_nil_iff_forall_not_mem]
  intro e he
  rcases mem_pairs.mp he with harray | hpart
  · obtain ⟨i, v, -, hget, hnil, -⟩ := mem_arrayEntries.mp harray
    simp only [new, Array.getElem?_replicate] at hget
    split at hget
    · cases hget
      cases hnil
    · cases hget
  · simp [new, HashPart.pairs, Chain.pairs] at hpart

/-- A new table is well formed, whatever room it makes. -/
theorem wellFormed_new (hash : Value → UInt64) (K : Set Value) (arraySize hashSize : Nat) :
    (new arraySize hashSize).WellFormed hash K := by
  refine ⟨⟨HashPart.wellFormed_empty hash K hashSize, ?_, ?_, ?_⟩, HashPart.fits_empty _ _, ?_, ?_⟩
  · simp [new, HashPart.keys, Chain.keys]
  · simp [new, HashPart.pairs, Chain.pairs]
  · intro i v hget hnil
    simp only [new, Array.getElem?_replicate] at hget
    split at hget
    · cases hget
      cases hnil
    · cases hget
  · simp [new, HashPart.empty]
  · intro h
    cases h

end LuaMachine.Table
