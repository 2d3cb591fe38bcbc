import LuaMachine.Proofs.Table.ArraySize
import LuaMachine.Proofs.Table.WellFormed
import LuaMachine.Proofs.Table.HashPart.Refill

namespace LuaMachine.Table

/-- Puts entries into their places, if they have one. -/
def fillPlaces (t : Table) (entries : List (Value × Value)) (array : Array Value) : Array Value :=
  entries.foldl (fun array (key, v) =>
    match t.arrayIndex? key with
    | some place => array.setIfInBounds place v
    | none => array) array

theorem fillPlaces_cons (t : Table) (e : Value × Value) (rest : List (Value × Value)) (array : Array Value) :
    fillPlaces t (e :: rest) array =
      fillPlaces t rest (((t.arrayIndex? e.1).map fun place => array.setIfInBounds place e.2).getD array) := by
  simp only [fillPlaces, List.foldl_cons]
  cases t.arrayIndex? e.1 <;> rfl

@[simp] theorem size_fillPlaces (t : Table) (entries : List (Value × Value)) (array : Array Value) :
    (fillPlaces t entries array).size = array.size := by
  induction entries generalizing array with
  | nil => rfl
  | cons e rest ih =>
    rw [fillPlaces_cons, ih]
    cases t.arrayIndex? e.1 <;> simp

/-- A place that no entry belongs to keeps its value. -/
theorem fillPlaces_of_forall_ne {t : Table} {entries : List (Value × Value)} {i : Nat}
    (h : ∀ e ∈ entries, t.arrayIndex? e.1 ≠ some i) (array : Array Value) :
    (fillPlaces t entries array)[i]? = array[i]? := by
  induction entries generalizing array with
  | nil => rfl
  | cons e rest ih =>
    rw [fillPlaces_cons, ih fun f hf => h f (by simp [hf])]
    cases hplace : t.arrayIndex? e.1 with
    | none => rfl
    | some place =>
      have hne : place ≠ i := by
        rintro rfl
        exact h e (by simp) hplace
      simp [hne]

/-- What stands in a place was there before or is the value of an entry that belongs there. -/
theorem of_getElem?_fillPlaces {t : Table} {entries : List (Value × Value)} {array : Array Value} {i : Nat} {v : Value}
    (h : (fillPlaces t entries array)[i]? = some v) :
    array[i]? = some v ∨ ∃ e ∈ entries, t.arrayIndex? e.1 = some i ∧ e.2 = v := by
  induction entries generalizing array with
  | nil => exact .inl h
  | cons e rest ih =>
    rw [fillPlaces_cons] at h
    rcases ih h with hthere | ⟨f, hf, hplace⟩
    · cases hplace : t.arrayIndex? e.1 with
      | none =>
        rw [hplace] at hthere
        exact .inl hthere
      | some place =>
        simp only [hplace, Option.map_some, Option.getD_some, Array.getElem?_setIfInBounds] at hthere
        split at hthere
        · rename_i hsame
          split at hthere
          · exact .inr ⟨e, List.mem_cons_self, hsame ▸ hplace, Option.some.inj hthere⟩
          · cases hthere
        · exact .inl hthere
    · exact .inr ⟨f, List.mem_cons_of_mem e hf, hplace⟩

/-- The place of the only entry with its key takes its value. -/
theorem fillPlaces_of_mem {t : Table} {entries : List (Value × Value)} {e : Value × Value}
    (honce : (entries.map (·.1)).count e.1 ≤ 1) (he : e ∈ entries) {i : Nat}
    (hplace : t.arrayIndex? e.1 = some i) {array : Array Value} (hi : i < array.size) :
    (fillPlaces t entries array)[i]? = some e.2 := by
  induction entries generalizing array with
  | nil => cases he
  | cons f rest ih =>
    rw [List.map_cons, List.count_cons] at honce
    rw [fillPlaces_cons]
    obtain rfl | hrest := List.mem_cons.mp he
    · have hother : ∀ g ∈ rest, t.arrayIndex? g.1 ≠ some i := by
        intro g hg hsame
        have hkey : g.1 = e.1 :=
          (arrayIndex?_eq_some.mp hsame).2.2.trans (arrayIndex?_eq_some.mp hplace).2.2.symm
        have hmore : 0 < (rest.map (·.1)).count e.1 := List.count_pos_iff.mpr (List.mem_map.mpr ⟨g, hg, hkey⟩)
        rw [beq_self_eq_true, if_pos rfl] at honce
        omega
      rw [fillPlaces_of_forall_ne hother, hplace]
      simp [hi]
    · apply ih (by omega) hrest
      cases t.arrayIndex? f.1 <;> simpa using hi

section Rehash

variable (ctx : Context) (t : Table) (extra : Option Value)

/-- The size of the array part after a rebuild. -/
def rehashedSize : Nat :=
  idealArraySize t.mode ((arrayEntries t.array 0 ++ t.part.drain ctx).map (·.1) ++ extra.toList)

/-- The array part in its new size, before entries of the hash part move into it. -/
def resized : Array Value :=
  t.array.take (rehashedSize ctx t extra) ++
    Array.replicate (rehashedSize ctx t extra - t.array.size) .nil

/-- The entries that look for a place in a rebuild: those of the hash part, and those cut from the array part. -/
def movedEntries : List (Value × Value) :=
  t.part.drain ctx ++ arrayEntries t.array (rehashedSize ctx t extra)

/-- The entries that go into the new hash part. -/
def hashedEntries : List (Value × Value) :=
  (movedEntries ctx t extra).filter fun (key, _) =>
    (arrayIndex? { t with array := resized ctx t extra, part := .empty 0 } key).isNone

/-- The number of entries that the new hash part makes room for. -/
def neededSlots : Nat :=
  (hashedEntries ctx t extra).length +
    (extra.filter fun key =>
      (arrayIndex? { t with array := resized ctx t extra, part := .empty 0 } key).isNone).toList.length

theorem rehash_eq : t.rehash ctx extra =
    { t with
      array := fillPlaces { t with array := resized ctx t extra, part := .empty 0 } (movedEntries ctx t extra)
        (resized ctx t extra)
      part := (hashedEntries ctx t extra).foldl (fun part (key, v) => part.insert ctx t.mode key v)
        (.empty (if neededSlots ctx t extra = 0 then 0 else max (neededSlots ctx t extra) minBuckets)) } := rfl

@[simp] theorem mode_rehash : (t.rehash ctx extra).mode = t.mode := rfl

theorem size_resized : (resized ctx t extra).size = rehashedSize ctx t extra := by
  simp [resized, Array.take]
  omega

theorem size_array_rehash : (t.rehash ctx extra).array.size = rehashedSize ctx t extra := by
  rw [rehash_eq]
  simp [size_resized]

theorem getElem?_resized {i : Nat} (hi : i < rehashedSize ctx t extra) :
    (resized ctx t extra)[i]? = some (t.array[i]?.getD .nil) := by
  by_cases hold : i < t.array.size
  · rw [resized, Array.getElem?_append_left (by simp; omega)]
    simp [hi, hold]
  · have hcut : (t.array.take (rehashedSize ctx t extra)).size = t.array.size := by
      simp [Array.take]
      omega
    rw [resized, Array.getElem?_append_right (by omega), hcut, Array.getElem?_replicate, if_pos (by omega),
      Array.getElem?_eq_none (by omega)]
    rfl

end Rehash

section Contents

variable {ctx : Context} {K : Set Value} {t : Table}

/-- The keys of the array part are those of its places, each once. -/
theorem Sound.nodup_arrayKeys {hash : Value → UInt64} (ht : t.Sound hash K) (start : Nat) :
    ((arrayEntries t.array start).map (·.1)).Nodup := by
  have hindices : (((t.array.toList.drop start).zipIdx (start + 1)).map (·.2)).Nodup := by
    rw [List.zipIdx_map_snd]
    exact List.nodup_range' _
  simp only [arrayEntries, List.map_filterMap, List.Nodup, List.pairwise_filterMap]
  refine (List.Nodup.of_map _ hindices).imp_of_mem ?_
  rintro ⟨v, i⟩ ⟨w, j⟩ hv hw hne k hi l hj rfl
  obtain ⟨hstart, hget⟩ := List.mk_mem_zipIdx_iff_le_and_getElem?_sub.mp hv
  obtain ⟨hstart', hget'⟩ := List.mk_mem_zipIdx_iff_le_and_getElem?_sub.mp hw
  rw [List.getElem?_drop, Array.getElem?_toList] at hget hget'
  cases hvn : v.isNil with
  | true => simp [hvn] at hi
  | false =>
    cases hwn : w.isNil with
    | true => simp [hwn] at hj
    | false =>
      simp only [hvn, hwn, Bool.false_eq_true, if_false, Option.map_some, Option.some.injEq] at hi hj
      have hsame : placeKey (start + (i - (start + 1))) = placeKey (start + (j - (start + 1))) := by
        have hi' : start + (i - (start + 1)) + 1 = i := by omega
        have hj' : start + (j - (start + 1)) + 1 = j := by omega
        rw [placeKey, placeKey, hi', hj', hi, hj]
      have heq := placeKey_injective (ht.places _ v hget hvn).1 (ht.places _ w hget' hwn).1 hsame
      have hij : i = j := by omega
      subst hij
      rw [hget] at hget'
      cases hget'
      exact hne rfl

/-- The entries that a rebuild starts from: those drained from the hash part and those of the array part. -/
theorem mem_movedEntries {extra : Option Value} {e : Value × Value} :
    e ∈ movedEntries ctx t extra ↔
      e ∈ t.part.drain ctx ∨ e ∈ arrayEntries t.array (rehashedSize ctx t extra) := List.mem_append

theorem Sound.mem_drain {hash : Value → UInt64} (ht : t.Sound hash K) {e : Value × Value}
    (he : e ∈ t.part.drain ctx) : e.1 ∈ K ∧ t.arrayIndex? e.1 = none ∧ e.2.isNil = false := by
  have hpair := (HashPart.drain_sublist ctx t.part).subset he
  have hkey := HashPart.mem_keys_of_mem_pairs hpair
  exact ⟨ht.part.known _ hkey, ht.outside _ hkey, ht.live e hpair⟩

theorem Sound.of_mem_movedEntries {hash : Value → UInt64} (ht : t.Sound hash K) {extra : Option Value}
    {e : Value × Value} (he : e ∈ movedEntries ctx t extra) : e.1 ∈ K ∧ e.2.isNil = false := by
  rcases Table.mem_movedEntries.mp he with hdrained | hcut
  · obtain ⟨hknown, -, hlive⟩ := ht.mem_drain hdrained
    exact ⟨hknown, hlive⟩
  · obtain ⟨i, v, -, hget, hnil, rfl⟩ := mem_arrayEntries.mp hcut
    exact ⟨(ht.places i v hget hnil).2, hnil⟩

/-- A key that no other is taken for has one entry at most among those drained and those of the array part. -/
theorem Sound.count_entries_le {hash : Value → UInt64} (ht : t.Sound hash K) {key : Value} (hkey : Alone hash K key)
    (start : Nat) :
    ((t.part.drain ctx).map (·.1)).count key + ((arrayEntries t.array start).map (·.1)).count key ≤ 1 := by
  have hdrained : ((t.part.drain ctx).map (·.1)).count key ≤ 1 :=
    (((HashPart.drain_sublist ctx t.part).map _).trans (HashPart.map_fst_pairs_sublist t.part)).count_le key |>.trans
      (ht.part.single key hkey)
  have hcut := List.nodup_iff_count_le_one.mp (ht.nodup_arrayKeys start) key
  by_contra hmore
  obtain ⟨e, he, rfl⟩ := List.mem_map.mp (List.count_pos_iff.mp
    (by omega : 0 < ((t.part.drain ctx).map (·.1)).count key))
  obtain ⟨f, hf, hsame⟩ := List.mem_map.mp (List.count_pos_iff.mp
    (by omega : 0 < ((arrayEntries t.array start).map (·.1)).count e.1))
  obtain ⟨i, hplace⟩ := ht.exists_place (arrayEntries_subset hf)
  rw [hsame, (ht.mem_drain he).2.1] at hplace
  cases hplace

/-- A key that no other is taken for moves once at most. -/
theorem Sound.count_movedEntries_le {hash : Value → UInt64} (ht : t.Sound hash K) (extra : Option Value) {key : Value}
    (hkey : Alone hash K key) : ((movedEntries ctx t extra).map (·.1)).count key ≤ 1 := by
  rw [movedEntries, List.map_append, List.count_append]
  exact ht.count_entries_le hkey _

/-- The array part after a rebuild holds what was there and what moved there. -/
theorem Sound.of_mem_arrayEntries_rehash {hash : Value → UInt64} (ht : t.Sound hash K) {extra : Option Value}
    {e : Value × Value} (he : e ∈ arrayEntries (t.rehash ctx extra).array 0) :
    ((t.rehash ctx extra).arrayIndex? e.1).isSome ∧ (e ∈ arrayEntries t.array 0 ∨ e ∈ t.part.drain ctx) := by
  obtain ⟨i, v, -, hget, hnil, rfl⟩ := mem_arrayEntries.mp he
  have hi := (Array.getElem?_eq_some_iff.mp hget).1
  rw [size_array_rehash] at hi
  have harray : (t.rehash ctx extra).array =
      fillPlaces { t with array := resized ctx t extra, part := .empty 0 } (movedEntries ctx t extra)
        (resized ctx t extra) := rfl
  rw [harray] at hget
  rcases of_getElem?_fillPlaces hget with hthere | ⟨f, hf, hplace, rfl⟩
  · rw [getElem?_resized ctx t extra hi] at hthere
    have hold : t.array[i]? = some v := by
      cases hcell : t.array[i]? with
      | none =>
        rw [hcell] at hthere
        cases hthere
        cases hnil
      | some w =>
        rw [hcell] at hthere
        exact hthere
    refine ⟨?_, .inl (mem_arrayEntries.mpr ⟨i, v, Nat.zero_le i, hold, hnil, rfl⟩)⟩
    rw [arrayIndex?_placeKey (by rw [size_array_rehash]; exact hi) (ht.places i v hold hnil).1]
    rfl
  · obtain ⟨-, hmax, hkey⟩ := arrayIndex?_eq_some.mp hplace
    refine ⟨?_, ?_⟩
    · rw [arrayIndex?_placeKey (by rw [size_array_rehash]; exact hi) hmax]
      rfl
    · rw [← hkey]
      exact (mem_movedEntries.mp hf).elim .inr fun hcut => .inl (arrayEntries_subset hcut)

/-- An entry whose key no other is taken for stands in the array part after a rebuild if its key has a place there. -/
theorem Sound.mem_arrayEntries_rehash {hash : Value → UInt64} (ht : t.Sound hash K) {extra : Option Value}
    {e : Value × Value} (hkey : Alone hash K e.1) {i : Nat} (hplace : (t.rehash ctx extra).arrayIndex? e.1 = some i)
    (he : e ∈ arrayEntries t.array 0 ∨ e ∈ t.part.drain ctx) : e ∈ arrayEntries (t.rehash ctx extra).array 0 := by
  set after : Table := { t with array := resized ctx t extra, part := .empty 0 } with hafter
  have hindex : after.arrayIndex? e.1 = some i := by
    rw [← hplace, hafter]
    exact arrayIndex?_congr (by rw [size_array_rehash]; exact size_resized ctx t extra) e.1
  obtain ⟨hi, hmax, hplaceKey⟩ := arrayIndex?_eq_some.mp hindex
  have hlive : e.2.isNil = false := by
    rcases he with he | he
    · obtain ⟨j, v, -, -, hnil, rfl⟩ := mem_arrayEntries.mp he
      exact hnil
    · exact (ht.mem_drain he).2.2
  refine mem_arrayEntries.mpr ⟨i, e.2, Nat.zero_le i, ?_, hlive, by rw [← hplaceKey]⟩
  by_cases hmoved : e ∈ movedEntries ctx t extra
  · exact fillPlaces_of_mem (ht.count_movedEntries_le extra hkey) hmoved hindex hi
  · -- an entry that does not move keeps its place
    rcases he with he | he
    · obtain ⟨j, v, -, hget, hnil, rfl⟩ := mem_arrayEntries.mp he
      have hij : i = j := placeKey_injective hmax (ht.places j v hget hnil).1 hplaceKey.symm
      subst hij
      have hsize : i < rehashedSize ctx t extra := size_resized ctx t extra ▸ hi
      have hstay : ∀ f ∈ movedEntries ctx t extra, after.arrayIndex? f.1 ≠ some i := by
        intro f hf hsame
        obtain ⟨-, -, hfkey⟩ := arrayIndex?_eq_some.mp hsame
        rcases mem_movedEntries.mp hf with hdrained | hcut
        · have hnone := (ht.mem_drain hdrained).2.1
          rw [hfkey, arrayIndex?_placeKey (Array.getElem?_eq_some_iff.mp hget).1 hmax] at hnone
          cases hnone
        · obtain ⟨l, w, hl, hgetl, hnill, rfl⟩ := mem_arrayEntries.mp hcut
          have hil := placeKey_injective hmax (ht.places l w hgetl hnill).1 hfkey.symm
          omega
      have hfilled := fillPlaces_of_forall_ne hstay (resized ctx t extra)
      rw [getElem?_resized ctx t extra hsize, hget] at hfilled
      exact hfilled
    · exact absurd (mem_movedEntries.mpr (Or.inl he)) hmoved

theorem Sound.mem_hashedEntries {hash : Value → UInt64} (ht : t.Sound hash K) (extra : Option Value)
    {e : Value × Value} :
    e ∈ hashedEntries ctx t extra ↔
      (t.rehash ctx extra).arrayIndex? e.1 = none ∧ (e ∈ arrayEntries t.array 0 ∨ e ∈ t.part.drain ctx) := by
  have hindex (k : Value) : (t.rehash ctx extra).arrayIndex? k =
      arrayIndex? { t with array := resized ctx t extra, part := .empty 0 } k :=
    arrayIndex?_congr (by rw [size_array_rehash]; exact (size_resized ctx t extra).symm) k
  simp only [hashedEntries, List.mem_filter, Option.isNone_iff_eq_none, ← hindex]
  constructor
  · rintro ⟨hmoved, hnone⟩
    rcases mem_movedEntries.mp hmoved with hdrained | hcut
    · exact ⟨hnone, Or.inr hdrained⟩
    · exact ⟨hnone, Or.inl (arrayEntries_subset hcut)⟩
  · rintro ⟨hnone, he | he⟩
    · obtain ⟨i, v, -, hget, hnil, rfl⟩ := mem_arrayEntries.mp he
      have hmax := (ht.places i v hget hnil).1
      -- a place that the new array part lacks is one of those that were cut
      have hcut : rehashedSize ctx t extra ≤ i := by
        by_contra hin
        rw [arrayIndex?_placeKey (by rw [size_array_rehash]; omega) hmax] at hnone
        cases hnone
      exact ⟨mem_movedEntries.mpr (Or.inr (mem_arrayEntries.mpr ⟨i, v, hcut, hget, hnil, rfl⟩)), hnone⟩
    · exact ⟨mem_movedEntries.mpr (Or.inl he), hnone⟩

/-- The number of buckets asked for in a rebuild. -/
def rehashedCapacity (ctx : Context) (t : Table) (extra : Option Value) : Nat :=
  if neededSlots ctx t extra = 0 then 0 else max (neededSlots ctx t extra) minBuckets

/-- The new hash part has a bucket for every entry to come. -/
theorem neededSlots_le_buckets (ctx : Context) (t : Table) (extra : Option Value) :
    neededSlots ctx t extra ≤ (HashPart.empty (rehashedCapacity ctx t extra)).buckets.size := by
  rw [HashPart.buckets_size_empty, rehashedCapacity]
  by_cases hneeded : neededSlots ctx t extra = 0
  · omega
  · rw [if_neg hneeded, if_neg (by omega)]
    exact (Nat.le_max_left _ _).trans (HashPart.le_powerAbove _)

/-- The new hash part holds exactly the entries without a place. -/
theorem Sound.part_rehash (ht : t.Sound ctx.hash K) (extra : Option Value) :
    let q := (t.rehash ctx extra).part
    q.WellFormed ctx.hash K ∧ q.Fits t.mode ∧
      q.buckets.size = (HashPart.empty (rehashedCapacity ctx t extra)).buckets.size ∧
      q.nodes = (hashedEntries ctx t extra).length ∧ (∀ e, e ∈ q.pairs ↔ e ∈ hashedEntries ctx t extra) ∧
      ∀ k, k ∈ q.keys ↔ k ∈ (hashedEntries ctx t extra).map (·.1) := by
  have hsub {e : Value × Value} (he : e ∈ hashedEntries ctx t extra) : e ∈ movedEntries ctx t extra :=
    List.mem_of_mem_filter he
  have hbuckets (hne : hashedEntries ctx t extra ≠ []) :
      0 < (HashPart.empty (rehashedCapacity ctx t extra)).buckets.size := by
    have hlength := List.length_pos_iff.mpr hne
    have hroom := neededSlots_le_buckets ctx t extra
    rw [neededSlots] at hroom
    omega
  have hsingle (k : Value) (hk : Alone ctx.hash K k) : ((hashedEntries ctx t extra).map (·.1)).count k +
      (HashPart.empty (rehashedCapacity ctx t extra)).keys.count k ≤ 1 := by
    have hfewer : (hashedEntries ctx t extra).Sublist (movedEntries ctx t extra) := List.filter_sublist
    simpa [HashPart.keys, Chain.keys] using
      ((hfewer.map _).count_le k).trans (ht.count_movedEntries_le extra hk)
  have hfilled := HashPart.foldl_insert_spec (hashedEntries ctx t extra) (HashPart.wellFormed_empty ctx.hash K _)
    (HashPart.fits_empty t.mode _) hbuckets (fun e he => (ht.of_mem_movedEntries (hsub he)).1)
    (fun e he => (ht.of_mem_movedEntries (hsub he)).2) hsingle
  obtain ⟨hwf, hfits, hsize, hnodes, hpairs, hkeys⟩ := hfilled
  refine ⟨hwf, hfits, hsize, ?_, ?_, ?_⟩
  · exact hnodes.trans (Nat.zero_add _)
  · intro e
    exact (hpairs e).trans (by simp [HashPart.pairs, Chain.pairs])
  · intro k
    exact (hkeys k).trans (by simp [HashPart.keys, Chain.keys])

/-- Rebuilding makes up no entry. -/
theorem Sound.of_mem_pairs_rehash (ht : t.Sound ctx.hash K) {extra : Option Value} {e : Value × Value}
    (he : e ∈ (t.rehash ctx extra).pairs) : e ∈ arrayEntries t.array 0 ∨ e ∈ t.part.drain ctx := by
  obtain ⟨-, -, -, -, hpairs, -⟩ := ht.part_rehash extra
  rcases mem_pairs.mp he with harray | hpart
  · exact (ht.of_mem_arrayEntries_rehash harray).2
  · exact ((ht.mem_hashedEntries extra).mp ((hpairs e).mp hpart)).2

/-- Rebuilding keeps the entries of the array part and those that can be drained whose keys no other is taken for. -/
theorem Sound.mem_pairs_rehash_of_alone (ht : t.Sound ctx.hash K) {extra : Option Value} {e : Value × Value}
    (hkey : Alone ctx.hash K e.1) (he : e ∈ arrayEntries t.array 0 ∨ e ∈ t.part.drain ctx) :
    e ∈ (t.rehash ctx extra).pairs := by
  obtain ⟨-, -, -, -, hpairs, -⟩ := ht.part_rehash extra
  rw [mem_pairs, hpairs, ht.mem_hashedEntries]
  cases hplace : (t.rehash ctx extra).arrayIndex? e.1 with
  | some i => exact .inl (ht.mem_arrayEntries_rehash hkey hplace he)
  | none => exact .inr ⟨rfl, he⟩

/-- The keys of the entries that a rebuild starts from are known. -/
theorem Sound.mem_of_arrayEntries_or_drain (ht : t.Sound ctx.hash K) {e : Value × Value}
    (he : e ∈ arrayEntries t.array 0 ∨ e ∈ t.part.drain ctx) : e.1 ∈ K := by
  rcases he with harray | hdrained
  · obtain ⟨i, v, -, hget, hnil, rfl⟩ := mem_arrayEntries.mp harray
    exact (ht.places i v hget hnil).2
  · exact (ht.mem_drain hdrained).1

/-- Where hash and raw equality tell the keys apart, rebuilding keeps the entries of the array part and those that can
be drained, and no others. -/
theorem Sound.mem_pairs_rehash (ht : t.Sound ctx.hash K) (hK : Separated ctx.hash K) (extra : Option Value)
    {e : Value × Value} : e ∈ (t.rehash ctx extra).pairs ↔ e ∈ arrayEntries t.array 0 ∨ e ∈ t.part.drain ctx :=
  ⟨ht.of_mem_pairs_rehash,
    fun he => ht.mem_pairs_rehash_of_alone (hK.alone (ht.mem_of_arrayEntries_or_drain he)) he⟩

/-- Rebuilding brings a sound table into its best form. -/
theorem Sound.rehash (ht : t.Sound ctx.hash K) (extra : Option Value) :
    (t.rehash ctx extra).WellFormed ctx.hash K := by
  obtain ⟨hpart, hfits, hsize, hnodes, hpairs, hkeys⟩ := ht.part_rehash extra
  refine ⟨⟨hpart, ?_, hfits.live, ?_⟩, hfits, ?_, ?_⟩
  · intro k hk
    obtain ⟨e, he, rfl⟩ := List.mem_map.mp ((hkeys k).mp hk)
    exact ((ht.mem_hashedEntries extra).mp he).1
  · intro i v hget hnil
    have hi : i < rehashedSize ctx t extra := by
      rw [← size_array_rehash]
      exact (Array.getElem?_eq_some_iff.mp hget).1
    have hmax : i < maxPlaces := by
      have := idealArraySize_le t.mode ((arrayEntries t.array 0 ++ t.part.drain ctx).map (·.1) ++ extra.toList)
      simp only [rehashedSize, maxArrayBits] at hi this
      simp only [maxPlaces]
      omega
    have hentry := mem_arrayEntries.mpr ⟨i, v, Nat.zero_le i, hget, hnil, rfl⟩
    refine ⟨hmax, ?_⟩
    exact ht.mem_of_arrayEntries_or_drain (ht.of_mem_arrayEntries_rehash hentry).2
  · have hroom := neededSlots_le_buckets ctx t extra
    rw [neededSlots] at hroom
    omega
  · intro hweak
    rw [mode_rehash] at hweak
    rw [size_array_rehash, rehashedSize, idealArraySize, if_pos hweak]

/-- After a rebuild there is room for the key that asked for it. -/
theorem Sound.room_rehash (ht : t.Sound ctx.hash K) {key : Value}
    (hplace : (t.rehash ctx (some key)).arrayIndex? key = none) :
    (t.rehash ctx (some key)).part.nodes < (t.rehash ctx (some key)).part.buckets.size := by
  obtain ⟨-, -, hsize, hnodes, -, -⟩ := ht.part_rehash (some key)
  have hroom := neededSlots_le_buckets ctx t (some key)
  have hindex : arrayIndex? { t with array := resized ctx t (some key), part := .empty 0 } key = none := by
    rw [← hplace]
    exact arrayIndex?_congr (by rw [size_array_rehash]; exact size_resized ctx t (some key)) key
  have hneeded : neededSlots ctx t (some key) = (hashedEntries ctx t (some key)).length + 1 := by
    rw [neededSlots, Option.filter_some, hindex]
    rfl
  omega

/-- A rebuild that finds a place for every key leaves no buckets. -/
theorem Sound.buckets_rehash_of_places (ht : t.Sound ctx.hash K) {key : Value}
    (hentries : ∀ e ∈ t.pairs, (t.rehash ctx (some key)).arrayIndex? e.1 ≠ none)
    (hkey : (t.rehash ctx (some key)).arrayIndex? key ≠ none) : (t.rehash ctx (some key)).part.buckets.size = 0 := by
  obtain ⟨-, -, hsize, -, -, -⟩ := ht.part_rehash (some key)
  have hhashed : hashedEntries ctx t (some key) = [] := by
    rw [List.eq_nil_iff_forall_not_mem]
    intro e he
    obtain ⟨hnone, hold⟩ := (ht.mem_hashedEntries (some key)).mp he
    exact hentries e (mem_pairs.mpr (hold.imp_right fun h => (HashPart.drain_sublist ctx t.part).subset h)) hnone
  have hindex : arrayIndex? { t with array := resized ctx t (some key), part := .empty 0 } key ≠ none := by
    rw [arrayIndex?_congr ((size_resized ctx t (some key)).trans (size_array_rehash ctx t (some key)).symm)]
    exact hkey
  obtain ⟨place, hplace⟩ := Option.ne_none_iff_exists'.mp hindex
  have hneeded : neededSlots ctx t (some key) = 0 := by
    rw [neededSlots, hhashed, Option.filter_some, hplace]
    rfl
  rw [hsize, HashPart.buckets_size_empty, rehashedCapacity, if_pos hneeded, if_pos rfl]

end Contents

end LuaMachine.Table
