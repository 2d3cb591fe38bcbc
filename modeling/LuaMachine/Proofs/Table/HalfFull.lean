import LuaMachine.Proofs.Table.Border
import LuaMachine.Proofs.Table.Layout
import LuaMachine.Proofs.Table.Strong

namespace LuaMachine.Table

theorem pow_maxArrayBits_le : 2 ^ maxArrayBits ≤ maxPlaces := by decide

/-- How many of the integers from one up to a bound are keys with a value. -/
def usedUpTo (ctx : Context) (t : Table) (n : Nat) : Nat := (List.range n).countP fun i => t.hasNat ctx (i + 1)

/-- Whether storing under a key in stored form rebuilds the table: the key has neither a place nor a slot, there is
a value to store, and the hash part is full. -/
def storeRebuilds (ctx : Context) (t : Table) (key value : Value) : Bool :=
  match t.arrayIndex? key with
  | some _ => false
  | none =>
    let (part, stored, ctx) := t.part.setExisting ctx t.mode key value
    !stored && !value.isNil && mustGrow ctx { t with part } key

/-- Whether a change rebuilds the table. -/
def Change.rebuilds (ctx : Context) (t : Table) : Change → Bool
  | operate .prune => true
  | operate (.setMode mode) => mode ≠ t.mode
  | setMetatable _ mode => mode ≠ t.mode
  | operate op => (op.write? ctx t).any fun w => storeRebuilds ctx t w.1 w.2

/-- No key of a set is taken for one that may have a place in an array part. -/
def PlacesAlone (hash : Value → UInt64) (K : Set Value) : Prop := ∀ i < 2 ^ maxArrayBits, Alone hash K (placeKey i)

section Counting

variable {hash : Value → UInt64} {K : Set Value} {t : Table}

/-- Where values are held, the entry of an integer cannot vanish. -/
theorem WellFormed.mem_entries_int (ht : t.WellFormed hash K) (hmode : t.mode.values = false) (ctx : Context)
    {i : Int64} {v : Value} : (Value.int i, v) ∈ t.entries ctx ↔ (Value.int i, v) ∈ t.pairs := by
  rw [entries, List.mem_append, mem_pairs]
  refine or_congr_right ⟨HashPart.mem_pairs_of_mem_entries, fun h => ?_⟩
  obtain ⟨n, hn, hpair⟩ := List.mem_filterMap.mp h
  rw [HashPart.entries_eq]
  refine List.mem_filterMap.mpr ⟨n, hn, ?_⟩
  have hfits := ht.fits n hn
  cases hslot : n.slot with
  | live strength key value =>
    rw [hslot] at hpair hfits
    cases hpair
    have hheld : (Slot.live strength (.int i) v).isVanished ctx = false := by
      simp [Slot.isVanished, hfits.1, hmode, Context.present, Value.ref?]
    rw [Slot.entry?, if_neg (by rw [hheld]; exact Bool.false_ne_true)]
  | dead key =>
    rw [hslot] at hpair
    cases hpair

/-- An integer that no other key is taken for is a key with a value exactly if it has an entry. -/
theorem WellFormed.hasNat_iff_mem_keys {ctx : Context} (ht : t.WellFormed ctx.hash K) (hmode : t.mode.values = false)
    {i : Nat} (hkey : Alone ctx.hash K (placeKey i)) :
    t.hasNat ctx (i + 1) = true ↔ placeKey i ∈ t.pairs.map (·.1) := by
  rw [ht.toSound.hasNat_iff hkey]
  simp only [placeKey, ht.mem_entries_int hmode ctx, List.mem_map, Prod.exists, exists_and_right, exists_eq_right]

/-- Counting the keys up to a bound counts the integers that have a value. -/
theorem WellFormed.countP_keys {ctx : Context} (ht : t.WellFormed ctx.hash K) (hplaces : PlacesAlone ctx.hash K)
    (hmode : t.mode.values = false) {keys : List Value} (hsingle : ∀ i < 2 ^ maxArrayBits, keys.count (placeKey i) ≤ 1)
    (hmem : ∀ i < 2 ^ maxArrayBits, placeKey i ∈ keys ↔ placeKey i ∈ t.pairs.map (·.1)) {n : Nat}
    (hn : n ≤ 2 ^ maxArrayBits) : keys.countP (isUpTo n) = t.usedUpTo ctx n := by
  have hmax := hn.trans pow_maxArrayBits_le
  have hnodup : (keys.filter (isUpTo n)).Nodup := by
    rw [List.nodup_iff_count_le_one]
    intro k
    by_cases hk : isUpTo n k = true
    · obtain ⟨i, hi, rfl⟩ := (isUpTo_iff hmax).mp hk
      exact (List.filter_sublist.count_le _).trans (hsingle i (by omega))
    · rw [List.count_eq_zero_of_not_mem fun hmem => hk (List.of_mem_filter hmem)]
      exact Nat.zero_le 1
  have hlive {i : Nat} (hi : i < n) : placeKey i ∈ keys ↔ t.hasNat ctx (i + 1) = true :=
    (hmem i (by omega)).trans (ht.hasNat_iff_mem_keys hmode (hplaces i (by omega))).symm
  have hperm : (keys.filter (isUpTo n)).Perm (((List.range n).filter fun i => t.hasNat ctx (i + 1)).map placeKey) := by
    refine (List.perm_ext_iff_of_nodup hnodup ?_).mpr fun k => ?_
    · exact (nodup_map_placeKey hmax).sublist (List.filter_sublist.map placeKey)
    · simp only [List.mem_filter, isUpTo_iff hmax, List.mem_map, List.mem_range]
      constructor
      · rintro ⟨hk, i, hi, rfl⟩
        exact ⟨i, ⟨hi, (hlive hi).mp hk⟩, rfl⟩
      · rintro ⟨i, ⟨hi, hheld⟩, rfl⟩
        exact ⟨(hlive hi).mpr hheld, i, hi, rfl⟩
  rw [List.countP_eq_length_filter, hperm.length_eq, List.length_map, usedUpTo, List.countP_eq_length_filter]

end Counting

section Rebuilding

variable {ctx now : Context} {K : Set Value} {t u : Table} {key value : Value}

/-- The keys that a rebuild counts. -/
def countedKeys (ctx : Context) (t : Table) (extra : Option Value) : List Value :=
  (arrayEntries t.array 0 ++ t.part.drain ctx).map (·.1) ++ extra.toList

/-- A rebuild counts no key twice that no other is taken for. -/
theorem Sound.count_countedKeys_le (ht : t.Sound ctx.hash K) {extra : Option Value}
    (hextra : ∀ k ∈ extra, t.arrayIndex? k = none ∧ k ∉ t.part.keys) {k : Value} (hk : Alone ctx.hash K k) :
    (countedKeys ctx t extra).count k ≤ 1 := by
  have hold : ((t.part.drain ctx).map (·.1)).count k + ((arrayEntries t.array 0).map (·.1)).count k ≤ 1 :=
    ht.count_entries_le hk 0
  rw [countedKeys, List.map_append, List.count_append, List.count_append]
  by_cases hself : k ∈ extra
  · obtain ⟨hplace, hnew⟩ := hextra k hself
    have hdrained : ((t.part.drain ctx).map (·.1)).count k = 0 :=
      List.count_eq_zero_of_not_mem fun hmem => hnew
        ((((HashPart.drain_sublist ctx t.part).map _).trans t.part.map_fst_pairs_sublist).subset hmem)
    have harray : ((arrayEntries t.array 0).map (·.1)).count k = 0 := by
      refine List.count_eq_zero_of_not_mem fun hmem => ?_
      obtain ⟨e, he, rfl⟩ := List.mem_map.mp hmem
      obtain ⟨i, hi⟩ := ht.exists_place he
      rw [hplace] at hi
      cases hi
    have hextra := List.nodup_iff_count_le_one.mp (Option.toList_nodup extra) k
    omega
  · have hextra : extra.toList.count k = 0 := List.count_eq_zero_of_not_mem (Option.mem_toList.not.mpr hself)
    omega

/-- A rebuild leaves the size that the keys of the table ask for which comes of it. -/
theorem Sound.isArraySize_of_rehash (ht : t.Sound ctx.hash K) (hu : u.WellFormed now.hash K)
    (hhash : now.hash = ctx.hash) (hplaces : PlacesAlone ctx.hash K) (hmode : t.mode.values = false)
    (hmode' : u.mode.values = false) (extra : Option Value)
    (hextra : ∀ k ∈ extra, t.arrayIndex? k = none ∧ k ∉ t.part.keys) (hsize : u.array.size = rehashedSize ctx t extra)
    (hmem : ∀ k, Alone ctx.hash K k → (k ∈ countedKeys ctx t extra ↔ k ∈ u.pairs.map (·.1))) :
    IsArraySize (u.usedUpTo now) u.array.size := by
  have hideal : u.array.size = idealArraySize t.mode (countedKeys ctx t extra) := hsize
  rw [hideal]
  refine (isArraySize_idealArraySize hmode _).congr fun n hn => ?_
  exact hu.countP_keys (hhash ▸ hplaces) hmode' (fun i hi => ht.count_countedKeys_le hextra (hplaces i hi))
    (fun i hi => hmem _ (hplaces i hi)) hn

/-- Which keys have an entry after a rebuild, of those that no other is taken for. -/
theorem Sound.mem_keys_rehash (ht : t.Sound ctx.hash K) {extra : Option Value} {k : Value} (hk : Alone ctx.hash K k) :
    k ∈ (t.rehash ctx extra).pairs.map (·.1) ↔ k ∈ (arrayEntries t.array 0 ++ t.part.drain ctx).map (·.1) := by
  simp only [List.mem_map, List.mem_append]
  constructor
  · rintro ⟨e, he, rfl⟩
    exact ⟨e, ht.of_mem_pairs_rehash he, rfl⟩
  · rintro ⟨e, he, rfl⟩
    exact ⟨e, ht.mem_pairs_rehash_of_alone hk he, rfl⟩

/-- Dropping what is dead rebuilds by the rule. -/
theorem Sound.isArraySize_rehash (ht : t.Sound ctx.hash K) (hplaces : PlacesAlone ctx.hash K)
    (hmode : t.mode.values = false) (hhash : now.hash = ctx.hash) :
    IsArraySize ((t.rehash ctx none).usedUpTo now) (t.rehash ctx none).array.size := by
  refine ht.isArraySize_of_rehash (hhash ▸ ht.rehash none) hhash hplaces hmode hmode none (by simp)
    (size_array_rehash ctx t none) fun k hk => ?_
  rw [ht.mem_keys_rehash hk, countedKeys, Option.toList_none, List.append_nil]

theorem size_array_insertNew (ctx : Context) (t : Table) (key value : Value) :
    (t.insertNew ctx key value).array.size = (Table.grown ctx t key).array.size := by
  rw [insertNew_eq]
  split <;> simp

/-- A key that makes the table grow counts already. -/
theorem WellFormed.isArraySize_insertNew (ht : t.WellFormed ctx.hash K) (hplaces : PlacesAlone ctx.hash K)
    (hmode : t.mode.values = false) (hkey : key ∈ K) (hplace : t.arrayIndex? key = none)
    (hnew : key ∉ t.part.keys) (hvalue : value.isNil = false) (hgrow : t.mustGrow ctx key = true)
    (hhash : now.hash = ctx.hash) :
    IsArraySize ((t.insertNew ctx key value).usedUpTo now) (t.insertNew ctx key value).array.size := by
  have hgrown : Table.grown ctx t key = t.rehash ctx (some key) := if_pos hgrow
  have hnext := ht.insertNew hkey hplace hnew hvalue
  have hmode' : (t.insertNew ctx key value).mode.values = false := by rw [mode_insertNew, hmode]
  have hentries (e : Value × Value) := ht.mem_pairs_insertNew hplace hnew hvalue (e := e)
  rw [hgrown] at hentries
  refine ht.toSound.isArraySize_of_rehash (hhash ▸ hnext) hhash hplaces hmode hmode' (some key) ?_ ?_ fun k hk => ?_
  · rintro k ⟨⟩
    exact ⟨hplace, hnew⟩
  · rw [size_array_insertNew, hgrown, size_array_rehash]
  · have hmoved : k ∈ (t.rehash ctx (some key)).pairs.map (·.1) ↔ _ := ht.toSound.mem_keys_rehash hk
    rw [countedKeys, List.mem_append, ← hmoved, Option.toList_some, List.mem_singleton]
    simp only [List.mem_map, hentries]
    constructor
    · rintro (⟨e, he, rfl⟩ | rfl)
      · exact ⟨e, .inl he, rfl⟩
      · exact ⟨_, .inr rfl, rfl⟩
    · rintro ⟨e, he | rfl, rfl⟩
      · exact .inl ⟨e, he, rfl⟩
      · exact .inr rfl

theorem storeRebuilds_of_place {i : Nat} (hplace : t.arrayIndex? key = some i) :
    storeRebuilds ctx t key value = false := by
  rw [storeRebuilds, hplace]

theorem storeRebuilds_of_no_place (hplace : t.arrayIndex? key = none) : storeRebuilds ctx t key value =
    let (part, stored, ctx) := t.part.setExisting ctx t.mode key value
    !stored && !value.isNil && mustGrow ctx { t with part } key := by
  rw [storeRebuilds, hplace]

/-- Storing without a rebuild leaves the array part as long as it was. -/
theorem size_array_setNormal (h : storeRebuilds ctx t key value = false) :
    (t.setNormal ctx key value).array.size = t.array.size := by
  cases hplace : t.arrayIndex? key with
  | some i => rw [setNormal_of_place hplace, Array.size_setIfInBounds]
  | none =>
    rw [storeRebuilds_of_no_place hplace] at h
    rw [setNormal_of_no_place ctx value hplace]
    dsimp only at h ⊢
    split
    · rfl
    · rename_i hnew
      simp only [Bool.or_eq_true, not_or, Bool.not_eq_true] at hnew
      simp only [hnew.1, hnew.2, Bool.not_false, Bool.true_and] at h
      rw [size_array_insertNew, Table.grown, if_neg (by rw [h]; exact Bool.false_ne_true)]

/-- Storing rebuilds by the rule. -/
theorem WellFormed.isArraySize_setNormal (ht : t.WellFormed ctx.hash K) (hplaces : PlacesAlone ctx.hash K)
    (hmode : t.mode.values = false) (hstored : IsStored key) (hkey : key ∈ K) (hhash : now.hash = ctx.hash)
    (h : storeRebuilds ctx t key value = true) :
    IsArraySize ((t.setNormal ctx key value).usedUpTo now) (t.setNormal ctx key value).array.size := by
  cases hplace : t.arrayIndex? key with
  | some i =>
    rw [storeRebuilds_of_place hplace] at h
    cases h
  | none =>
    have hworld := HashPart.setExisting_hash t.part ctx t.mode key value
    have hkept := ht.setExisting hkey hplace value
    rw [storeRebuilds_of_no_place hplace] at h
    simp only [Bool.and_eq_true, Bool.not_eq_true'] at h
    obtain ⟨⟨hfound, hvalue⟩, hgrow⟩ := h
    have hnew := ht.part.key_not_mem_setExisting hstored hfound
    rw [setNormal_of_no_place ctx value hplace]
    dsimp only
    rw [if_neg (by simp [hfound, hvalue])]
    rw [← hworld] at hkept hplaces hhash
    exact hkept.isArraySize_insertNew hplaces hmode hkey ((arrayIndex?_congr rfl key).trans hplace) hnew hvalue hgrow
      hhash

theorem storeRebuilds_nil (ctx : Context) (t : Table) (key : Value) : storeRebuilds ctx t key .nil = false := by
  cases hplace : t.arrayIndex? key with
  | some i => exact storeRebuilds_of_place hplace
  | none =>
    rw [storeRebuilds_of_no_place hplace]
    simp [Value.isNil]

theorem size_array_remove (ctx : Context) (t : Table) (key : Value) :
    (t.remove ctx key).1.array.size = t.array.size := by
  cases hnil : (t.get ctx key).isNil with
  | true => rw [remove_of_isNil hnil]
  | false =>
    cases hkey : normalizeKey key with
    | error e =>
      rw [get_of_normalizeKey_error ctx t hkey] at hnil
      cases hnil
    | ok stored =>
      rw [remove_of_normalizeKey hnil hkey]
      exact size_array_setNormal (storeRebuilds_nil _ t stored)

/-- Another mode rebuilds by the rule. -/
theorem Sound.isArraySize_setMode (ht : t.Sound ctx.hash K) (hplaces : PlacesAlone ctx.hash K) {mode : WeakMode}
    (hmode : mode.values = false) (hhash : now.hash = ctx.hash) (h : mode ≠ t.mode) :
    IsArraySize ((t.setMode ctx mode).usedUpTo now) (t.setMode ctx mode).array.size := by
  rw [setMode, if_neg h]
  exact (ht.withMode mode).isArraySize_rehash hplaces hmode hhash

/-- A change that rebuilds the table does so by the rule. -/
theorem WellFormed.isArraySize_change (ht : t.WellFormed ctx.hash K) (hplaces : PlacesAlone ctx.hash K)
    {change : Change} (hknown : ∀ w, change.write? ctx t = some w → w.1 ∈ K)
    (hmode : (change.apply ctx t).mode.values = false) (hhash : now.hash = ctx.hash)
    (h : change.rebuilds ctx t = true) :
    IsArraySize ((change.apply ctx t).usedUpTo now) (change.apply ctx t).array.size := by
  have hstore {key value : Value} (hstored : IsStored key) (hkey : key ∈ K)
      (hmode : (t.setNormal ctx key value).mode.values = false) (h : storeRebuilds ctx t key value = true) :=
    ht.isArraySize_setNormal hplaces (by rwa [mode_setNormal] at hmode) hstored hkey hhash h
  cases change with
  | setMetatable metatable mode =>
    exact (ht.withMetatable metatable).toSound.isArraySize_setMode hplaces (by simpa [Change.apply] using hmode) hhash
      (by simpa [Change.rebuilds] using h)
  | operate op =>
    cases op with
    | set key value =>
      cases hkey : normalizeKey key with
      | error e => simp [Change.rebuilds, Op.write?, hkey, Except.toOption] at h
      | ok stored =>
        simp only [Change.rebuilds, Change.apply, Change.write?, Op.write?, Op.apply, set, hkey, Except.toOption,
          Except.map, Option.map_some, Option.any_some, Option.getD_some] at h hmode hknown ⊢
        exact hstore (normalizeKey_idem hkey) (hknown _ rfl) hmode h
    | setInt i value => exact hstore rfl (hknown _ rfl) hmode h
    | setStr s value => exact hstore rfl (hknown _ rfl) hmode h
    | append value => exact hstore rfl (hknown _ rfl) hmode h
    | remove key =>
      cases hkey : normalizeKey key <;> simp [Change.rebuilds, Op.write?, hkey, Except.toOption, storeRebuilds_nil] at h
    | prune => exact ht.toSound.isArraySize_rehash hplaces hmode hhash
    | setMode mode =>
      exact ht.toSound.isArraySize_setMode hplaces (by simpa [Change.apply, Op.apply] using hmode) hhash
        (by simpa [Change.rebuilds] using h)

/-- A change that does not rebuild the table leaves the array part as long as it was. -/
theorem size_array_change {change : Change} (h : change.rebuilds ctx t = false) :
    (change.apply ctx t).array.size = t.array.size := by
  cases change with
  | setMetatable metatable mode =>
    have hsame : mode = t.mode := by simpa [Change.rebuilds] using h
    rw [Change.apply, setMode, if_pos hsame]
  | operate op =>
    cases op with
    | set key value =>
      cases hkey : normalizeKey key with
      | error e => simp [Change.apply, Op.apply, set, hkey, Except.map, Except.toOption]
      | ok stored =>
        simp only [Change.rebuilds, Change.apply, Op.write?, Op.apply, set, hkey, Except.toOption, Except.map,
          Option.map_some, Option.any_some, Option.getD_some] at h ⊢
        exact size_array_setNormal h
    | setInt i value => exact size_array_setNormal h
    | setStr s value => exact size_array_setNormal h
    | append value => exact size_array_setNormal h
    | remove key => exact size_array_remove ctx t key
    | prune => cases h
    | setMode mode =>
      have hsame : mode = t.mode := by simpa [Change.rebuilds] using h
      rw [Change.apply, Op.apply, setMode, if_pos hsame]

end Rebuilding

section Storing

variable {ctx now : Context} {t : Table} {keys : List Int64}

/-- The changes that store values under integers. -/
def stores (calls : List (Context × Int64 × Value)) : List (Context × Change) :=
  calls.map fun (ctx, key, value) => (ctx, .operate (.setInt key value))

/-- Raw equality tells integers apart. -/
theorem separated_int (hash : Value → UInt64) : Separated hash (Set.range Value.int) := by
  refine ⟨?_, ?_⟩
  · rintro _ ⟨i, rfl⟩
    exact isStored_int i
  · rintro _ ⟨i, rfl⟩ _ ⟨j, rfl⟩ - hequal
    simpa [Value.rawEqual] using hequal

/-- Integers are no other integers, so none is taken for one that may have a place. -/
theorem placesAlone_int (hash : Value → UInt64) : PlacesAlone hash (Set.range Value.int) :=
  fun _ _ => (separated_int hash).alone ⟨_, rfl⟩

/-- No other canonical key is taken for one that may have a place. -/
theorem placesAlone_canonicalKeys (hash : Value → UInt64) : PlacesAlone hash canonicalKeys := by
  intro i hi
  refine alone_int hash ?_
  rw [toInt_placeKey (hi.trans_le pow_maxArrayBits_le)]
  simp only [maxArrayBits] at hi
  omega

/-- A table that holds all it has, under some integers. -/
structure HoldsIntegers (hash : Value → UInt64) (keys : List Int64) (t : Table) : Prop where
  wellFormed : t.WellFormed hash (Set.range Value.int)
  mode : t.mode = .strong
  mem_keys : ∀ k, k ∈ t.pairs.map (·.1) ↔ k ∈ keys.map Value.int

/-- The array part has less than twice as many places as there are integers. -/
def Proportional (keys : List Int64) (t : Table) : Prop := t.array.size = 0 ∨ t.array.size < 2 * keys.dedup.length

theorem holdsIntegers_new (hash : Value → UInt64) : HoldsIntegers hash [] (new 0 0) :=
  ⟨wellFormed_new hash _ 0 0, rfl, by simp [pairs_new]⟩

theorem HoldsIntegers.isHeld {hash : Value → UInt64} (h : t.HoldsIntegers hash keys) : t.mode.values = false := by
  rw [h.mode]
  rfl

/-- Every integer has one entry at most, those included whose objects vanished. -/
theorem HoldsIntegers.nodup_pairs {hash : Value → UInt64} (h : t.HoldsIntegers hash keys) :
    (t.pairs.map (·.1)).Nodup := by
  rw [← entries_of_everlasting (Context.everlasting_strong hash)]
  refine h.wellFormed.nodup_entries fun e he => (separated_int hash).alone ?_
  exact (h.wellFormed.of_mem_pairs (mem_pairs_of_mem_entries he)).1

/-- The keys of the entries are the integers, each once. -/
theorem HoldsIntegers.keys_perm {hash : Value → UInt64} (h : t.HoldsIntegers hash keys) :
    (t.pairs.map (·.1)).Perm (keys.dedup.map Value.int) := by
  refine (List.perm_ext_iff_of_nodup h.nodup_pairs ?_).mpr fun k => ?_
  · exact (List.nodup_dedup keys).map fun i j hij => Value.int.inj hij
  · rw [h.mem_keys]
    simp

/-- No more integers are in use than there are. -/
theorem HoldsIntegers.usedUpTo_le (h : t.HoldsIntegers ctx.hash keys) {n : Nat} (hn : n ≤ 2 ^ maxArrayBits) :
    t.usedUpTo ctx n ≤ keys.dedup.length := by
  rw [← h.wellFormed.countP_keys (placesAlone_int ctx.hash) h.isHeld
    (fun i _ => List.nodup_iff_count_le_one.mp h.nodup_pairs _) (fun _ _ => Iff.rfl) hn]
  refine List.countP_le_length.trans ?_
  rw [h.keys_perm.length_eq, List.length_map]

/-- Storing a value adds its key. -/
theorem HoldsIntegers.setInt (h : t.HoldsIntegers ctx.hash keys) (key : Int64) {value : Value}
    (hvalue : value.isNil = false) : (t.setInt ctx key value).HoldsIntegers ctx.hash (keys ++ [key]) := by
  have hK := separated_int ctx.hash
  have hkey : Value.int key ∈ Set.range Value.int := ⟨key, rfl⟩
  refine ⟨h.wellFormed.setNormal (isStored_int key) hkey value, (mode_setNormal ..).trans h.mode, fun k => ?_⟩
  have hentries (e : Value × Value) := h.wellFormed.mem_pairs_setNormal_of_strong hK hkey h.mode value (e := e)
  simp only [List.map_append, List.mem_append, List.map_cons, List.map_nil, List.mem_singleton, ← h.mem_keys,
    List.mem_map, Table.setInt, hentries, hvalue, true_and]
  constructor
  · rintro ⟨e, ⟨he, -⟩ | rfl, rfl⟩
    · exact .inl ⟨e, he, rfl⟩
    · exact .inr rfl
  · rintro (⟨e, he, rfl⟩ | rfl)
    · by_cases hsame : e.1 = .int key
      · exact ⟨_, .inr rfl, hsame.symm⟩
      · exact ⟨e, .inl ⟨he, hsame⟩, rfl⟩
    · exact ⟨_, .inr rfl, rfl⟩

/-- Storing a value keeps the array part in proportion. -/
theorem HoldsIntegers.proportional_setInt (h : t.HoldsIntegers ctx.hash keys) (hsize : t.Proportional keys)
    (key : Int64) {value : Value} (hvalue : value.isNil = false) :
    (t.setInt ctx key value).Proportional (keys ++ [key]) := by
  have hnext := h.setInt key hvalue
  cases hrebuilds : storeRebuilds ctx t (.int key) value with
  | false =>
    have hsame : (t.setInt ctx key value).array.size = t.array.size := size_array_setNormal hrebuilds
    have hmore : keys.dedup.length ≤ (keys ++ [key]).dedup.length :=
      ((List.nodup_dedup keys).subperm fun i hi => by simp_all).length_le
    rw [Proportional, hsame]
    exact hsize.imp_right fun hlt => by omega
  | true =>
    have hrule : IsArraySize ((t.setInt ctx key value).usedUpTo ctx) (t.setInt ctx key value).array.size :=
      h.wellFormed.isArraySize_setNormal (placesAlone_int ctx.hash) h.isHeld (isStored_int key) ⟨key, rfl⟩ rfl hrebuilds
    refine or_iff_not_imp_left.mpr fun hne => ?_
    have hfull := hrule.full hne
    have hused := hnext.usedUpTo_le hrule.le
    omega

/-- Storing values adds their keys, in an array part that stays in proportion. -/
theorem HoldsIntegers.changed_stores {hash : Value → UInt64} (h : t.HoldsIntegers hash keys)
    (hsize : t.Proportional keys) {calls : List (Context × Int64 × Value)} (hhash : ∀ call ∈ calls, call.1.hash = hash)
    (hvalues : ∀ call ∈ calls, call.2.2.isNil = false) :
    (t.changed (stores calls)).HoldsIntegers hash (keys ++ calls.map (·.2.1)) ∧
      (t.changed (stores calls)).Proportional (keys ++ calls.map (·.2.1)) := by
  induction calls generalizing t keys with
  | nil =>
    rw [List.map_nil, List.append_nil]
    exact ⟨h, hsize⟩
  | cons call calls ih =>
    obtain ⟨ctx, key, value⟩ := call
    obtain rfl : ctx.hash = hash := hhash (ctx, key, value) (by simp)
    have hvalue : value.isNil = false := hvalues (ctx, key, value) (by simp)
    have hnext := ih (h.setInt key hvalue) (h.proportional_setInt hsize key hvalue)
      (fun call hcall => hhash call (by simp [hcall])) fun call hcall => hvalues call (by simp [hcall])
    rwa [List.append_assoc] at hnext

/-- The first integers, from one on. -/
def row (n : Nat) : List Int64 := (List.range n).map fun i => Int64.ofNat (i + 1)

/-- A class is no wider than the keys below it. -/
theorem two_pow_sizeClass_lt (n : Nat) : 2 ^ sizeClass (n + 1) < 2 * (n + 1) := by
  cases hclass : sizeClass (n + 1) with
  | zero => omega
  | succ bits =>
    have hlow : ¬n + 1 ≤ 2 ^ bits := by
      rw [← sizeClass_le_iff, hclass]
      omega
    rw [Nat.pow_succ]
    omega

theorem HoldsIntegers.hasNat_row {n i : Nat} (h : t.HoldsIntegers ctx.hash (row n)) (hi : i < n) :
    t.hasNat ctx (i + 1) = true := by
  rw [h.wellFormed.hasNat_iff_mem_keys h.isHeld ((separated_int ctx.hash).alone ⟨_, rfl⟩), h.mem_keys]
  exact List.mem_map.mpr ⟨_, List.mem_map.mpr ⟨i, List.mem_range.mpr hi, rfl⟩, rfl⟩

/-- All of the integers of a row are in use. -/
theorem HoldsIntegers.le_usedUpTo {n m : Nat} (h : t.HoldsIntegers ctx.hash (row n)) (hm : n ≤ m) :
    n ≤ t.usedUpTo ctx m := by
  have hall : (List.range n).countP (fun i => t.hasNat ctx (i + 1)) = n := by
    rw [List.countP_eq_length.mpr fun i hi => h.hasNat_row (List.mem_range.mp hi), List.length_range]
  calc n = (List.range n).countP (fun i => t.hasNat ctx (i + 1)) := hall.symm
    _ ≤ t.usedUpTo ctx m := (List.range_sublist.mpr hm).countP_le

/-- A row of integers, all with a place: the hash part has no buckets. -/
structure HoldsRow (hash : Value → UInt64) (n : Nat) (t : Table) : Prop extends HoldsIntegers hash (row n) t where
  places : n ≤ t.array.size
  buckets : t.part.buckets.size = 0

theorem holdsRow_new (hash : Value → UInt64) : HoldsRow hash 0 (new 0 0) :=
  ⟨holdsIntegers_new hash, Nat.zero_le _, rfl⟩

theorem row_succ (n : Nat) : row (n + 1) = row n ++ [Int64.ofNat (n + 1)] := by simp [row, List.range_succ]

/-- The array part of a row grows by the rule when the next integer finds it full. -/
theorem HoldsRow.setInt {n : Nat} (h : t.HoldsRow ctx.hash n) (hn : n < 2 ^ maxArrayBits) {value : Value}
    (hvalue : value.isNil = false) : (t.setInt ctx (Int64.ofNat (n + 1)) value).HoldsRow ctx.hash (n + 1) := by
  have hnext := h.toHoldsIntegers.setInt (Int64.ofNat (n + 1)) hvalue
  have hmax : n < maxPlaces := hn.trans_le pow_maxArrayBits_le
  rw [← row_succ] at hnext
  by_cases hplace : n < t.array.size
  · have hset : t.setInt ctx (Int64.ofNat (n + 1)) value = { t with array := t.array.setIfInBounds n value } :=
      setNormal_of_place (arrayIndex?_placeKey hplace hmax)
    rw [hset] at hnext ⊢
    exact ⟨hnext, by rw [Array.size_setIfInBounds]; exact hplace, h.buckets⟩
  · have hnone : t.arrayIndex? (placeKey n) = none := by
      cases hindex : t.arrayIndex? (placeKey n) with
      | none => rfl
      | some i =>
        obtain ⟨hi, hmax', hsame⟩ := arrayIndex?_eq_some.mp hindex
        exact absurd (placeKey_injective hmax hmax' hsame ▸ hi) hplace
    have hpart := HashPart.setExisting_of_empty ctx t.mode (placeKey n) value
      (HashPart.bucket_eq_none_iff.mpr h.buckets)
    have hgrow : t.mustGrow ctx (placeKey n) = true := by simp [mustGrow, h.buckets]
    have hrebuilds : storeRebuilds ctx t (placeKey n) value = true := by
      rw [storeRebuilds_of_no_place hnone, hpart]
      simp [hvalue, hgrow]
    have hstore : t.setInt ctx (Int64.ofNat (n + 1)) value = t.insertNew ctx (placeKey n) value := by
      change t.setNormal ctx (placeKey n) value = _
      rw [setNormal_of_no_place ctx value hnone, hpart]
      simp [hvalue]
    have hrule : IsArraySize ((t.setInt ctx (Int64.ofNat (n + 1)) value).usedUpTo ctx)
        (t.setInt ctx (Int64.ofNat (n + 1)) value).array.size :=
      h.wellFormed.isArraySize_setNormal (placesAlone_int ctx.hash) h.isHeld (isStored_int _) ⟨_, rfl⟩ rfl hrebuilds
    -- the bound of the class of the next integer is a size of which more than half is in use
    have hclass : n + 1 ≤ 2 ^ sizeClass (n + 1) := sizeClass_le_iff.mp (Nat.le_refl _)
    have hused := hnext.le_usedUpTo hclass
    have hplaces : n + 1 ≤ (t.setInt ctx (Int64.ofNat (n + 1)) value).array.size :=
      hclass.trans (hrule.largest _ (sizeClass_le_iff.mpr hn) (by have := two_pow_sizeClass_lt n; omega))
    refine ⟨hnext, hplaces, ?_⟩
    have hgrown : grown ctx t (placeKey n) = t.rehash ctx (some (placeKey n)) := if_pos hgrow
    rw [hstore, size_array_insertNew, hgrown] at hplaces
    have hindex {i : Nat} (hi : i ≤ n) : (t.rehash ctx (some (placeKey n))).arrayIndex? (placeKey i) = some i :=
      arrayIndex?_placeKey (by omega) (by omega)
    rw [hstore, insertNew_eq, hgrown, hindex (Nat.le_refl n)]
    refine h.wellFormed.toSound.buckets_rehash_of_places (fun e he => ?_) fun hkey => ?_
    rotate_left
    · rw [hindex (Nat.le_refl n)] at hkey
      cases hkey
    obtain ⟨i, hi, hkey⟩ := List.mem_map.mp ((h.mem_keys e.1).mp (List.mem_map.mpr ⟨e, he, rfl⟩))
    obtain ⟨j, hj, rfl⟩ := List.mem_map.mp hi
    rw [← hkey]
    change (t.rehash ctx (some (placeKey n))).arrayIndex? (placeKey j) ≠ none
    rw [hindex (Nat.le_of_lt (List.mem_range.mp hj))]
    exact Option.some_ne_none j

/-- Storing a row of values keeps all of them in the array part. -/
theorem HoldsRow.changed_stores {hash : Value → UInt64} {n : Nat} (h : t.HoldsRow hash n)
    {calls : List (Context × Int64 × Value)} (hhash : ∀ call ∈ calls, call.1.hash = hash)
    (hvalues : ∀ call ∈ calls, call.2.2.isNil = false) (hmax : n + calls.length ≤ 2 ^ maxArrayBits)
    (hrow : calls.map (·.2.1) = (List.range' n calls.length).map fun i => Int64.ofNat (i + 1)) :
    (t.changed (stores calls)).HoldsRow hash (n + calls.length) := by
  induction calls generalizing t n with
  | nil => exact h
  | cons call calls ih =>
    obtain ⟨ctx, key, value⟩ := call
    obtain rfl : ctx.hash = hash := hhash (ctx, key, value) (by simp)
    simp only [List.map_cons, List.length_cons, List.range'_succ, List.cons.injEq] at hrow hmax ⊢
    obtain ⟨rfl, hrest⟩ := hrow
    have hnext := ih (h.setInt (by omega) (hvalues _ List.mem_cons_self))
      (fun call hcall => hhash call (List.mem_cons_of_mem _ hcall))
      (fun call hcall => hvalues call (List.mem_cons_of_mem _ hcall)) (by omega) hrest
    rwa [Nat.add_right_comm, Nat.add_assoc] at hnext

/-- The hash part has the keys that have no place. -/
theorem Sound.mem_part_keys_iff {hash : Value → UInt64} {K : Set Value} (ht : t.Sound hash K) {k : Value} :
    k ∈ t.part.pairs.map (·.1) ↔ k ∈ t.pairs.map (·.1) ∧ t.arrayIndex? k = none := by
  constructor
  · intro h
    obtain ⟨e, he, rfl⟩ := List.mem_map.mp h
    exact ⟨List.mem_map.mpr ⟨e, mem_pairs.mpr (.inr he), rfl⟩, ht.outside _ (HashPart.mem_keys_of_mem_pairs he)⟩
  · rintro ⟨h, hnone⟩
    obtain ⟨e, he, rfl⟩ := List.mem_map.mp h
    refine List.mem_map.mpr ⟨e, (mem_pairs.mp he).resolve_left fun harray => ?_, rfl⟩
    obtain ⟨i, hi⟩ := ht.exists_place harray
    rw [hnone] at hi
    cases hi

/-- Of positive integers, those that the array part is too short for are in the hash part. -/
theorem HoldsIntegers.part_keys_perm {hash : Value → UInt64} (h : t.HoldsIntegers hash keys)
    (hpositive : ∀ key ∈ keys, 0 < key.toInt) (ctx : Context) : ((t.part.entries ctx).map (·.1)).Perm
      ((keys.dedup.filter fun key => (t.array.size : Int) < key.toInt).map Value.int) := by
  rw [HashPart.entries_of_strong (h.mode ▸ h.wellFormed.fits)]
  refine (List.perm_ext_iff_of_nodup ?_ ?_).mpr fun k => ?_
  · exact h.nodup_pairs.sublist ((List.sublist_append_right _ _).map _)
  · exact ((List.nodup_dedup keys).filter _).map fun i j hij => Value.int.inj hij
  · rw [h.wellFormed.toSound.mem_part_keys_iff, h.mem_keys]
    simp only [List.mem_map, List.mem_filter, List.mem_dedup, decide_eq_true_eq]
    constructor
    · rintro ⟨⟨key, hkey, rfl⟩, hnone⟩
      refine ⟨key, ⟨hkey, ?_⟩, rfl⟩
      have hpos := hpositive key hkey
      by_contra hle
      rw [arrayIndex?, if_pos (by omega)] at hnone
      cases hnone
    · rintro ⟨key, ⟨hkey, hlarge⟩, rfl⟩
      exact ⟨⟨key, hkey, rfl⟩, by rw [arrayIndex?, if_neg (by omega)]⟩

end Storing

/-- **More than half of the array part is in use.** Whatever was done to a new table, a change that rebuilds it, to
store under a new key, to drop what is dead or for another weak mode, and that leaves no values weak, gives the array
part the largest power of two of places of which more than half are keys with a value, and none if there is no such
power; no other change resizes it. So values stored under `1 .. n` in a row fill an array part of at least `n` and less
than `2 * n` places alone, and values stored under any positive integers leave it at most twice as long as there are
keys, with exactly those in the hash part that it is too short for. The hash function is any, and the keys are
canonical, as all numbers are kept: no double among them equals an integer of 64 bits but negative zero. -/
theorem halfFull_changed (hash : Value → UInt64) (arraySize hashSize : Nat) (changes : List (Context × Change))
    (hhash : ∀ call ∈ changes, call.1.hash = hash)
    (hcanonical : ∀ key ∈ (new arraySize hashSize).keysWritten changes, key.IsCanonical) :
    (let before := (new arraySize hashSize).changed changes
      ∀ (ctx : Context) (change : Change), ctx.hash = hash →
        let t := change.apply ctx before
        (change.rebuilds ctx before = true → t.mode.values = false →
          (∀ w, change.write? ctx before = some w → w.1.IsCanonical) →
          ∀ now : Context, now.hash = hash → IsArraySize (t.usedUpTo now) t.array.size) ∧
        (change.rebuilds ctx before = false → t.array.size = before.array.size)) ∧
    ∀ calls : List (Context × Int64 × Value), (∀ call ∈ calls, call.1.hash = hash ∧ call.2.2.isNil = false) →
      let t := (new 0 0).changed (stores calls)
      let keys := calls.map (·.2.1)
      (∀ n, 0 < n → n ≤ 2 ^ maxArrayBits → keys = row n →
        n ≤ t.array.size ∧ t.array.size < 2 * n ∧ ∀ now, t.part.entries now = []) ∧
      ((∀ key ∈ keys, 0 < key.toInt) → t.array.size ≤ 2 * keys.dedup.length ∧
        ∀ now, ((t.part.entries now).map (·.1)).Perm
          ((keys.dedup.filter fun key => (t.array.size : Int) < key.toInt).map Value.int)) := by
  refine ⟨fun ctx change hctx => ⟨?_, size_array_change⟩, fun calls hcalls => ?_⟩
  · subst hctx
    intro hrebuilds hmode hwrite now hnow
    have ht : ((new arraySize hashSize).changed changes).WellFormed ctx.hash canonicalKeys :=
      (wellFormed_new ctx.hash _ arraySize hashSize).changed hhash fun key hkey =>
        ⟨isStored_of_mem_keysWritten hkey, hcanonical key hkey⟩
    exact ht.isArraySize_change (placesAlone_canonicalKeys ctx.hash)
      (fun w hw => ⟨change.isStored_of_write? hw, hwrite w hw⟩) hmode hnow hrebuilds
  · have hhash (call : Context × Int64 × Value) (hcall : call ∈ calls) := (hcalls call hcall).1
    have hvalues (call : Context × Int64 × Value) (hcall : call ∈ calls) := (hcalls call hcall).2
    obtain ⟨hholds, hsize⟩ := (holdsIntegers_new hash).changed_stores (.inl rfl) hhash hvalues
    intro t keys
    refine ⟨fun n hn hmax hrow => ?_, fun hpositive => ⟨?_, hholds.part_keys_perm hpositive⟩⟩
    · have hlength : calls.length = n := by simpa [keys, row] using congrArg List.length hrow
      subst hlength
      have hheld := (holdsRow_new hash).changed_stores hhash hvalues (by omega)
        (by rw [← List.range_eq_range']; exact hrow)
      rw [Nat.zero_add] at hheld
      have hfew : keys.dedup.length ≤ calls.length := by
        simpa [keys] using (List.dedup_sublist keys).length_le
      have hlt := hsize.resolve_left (by have := hheld.places; omega)
      refine ⟨hheld.places, hlt.trans_le (Nat.mul_le_mul_left 2 hfew), fun now => ?_⟩
      rw [HashPart.entries_eq, HashPart.nodeList_of_no_buckets hheld.buckets]
      rfl
    · rcases hsize with hempty | hlt
      · exact hempty ▸ Nat.zero_le _
      · exact Nat.le_of_lt hlt

/-- Where all keys have one hash, a table with weak keys, in which five integers had room in the hash part and the last
was removed, gets four places when it is pruned; three values in a row; and three keys of which one is out of line. -/
theorem halfFull_changed_weak_keys :
    let ctx : Context := ⟨fun _ => 0, fun _ r => r != .table ⟨7⟩, {}⟩
    let changes : List (Context × Change) :=
      (ctx, .setMetatable (some ⟨1⟩) ⟨true, false⟩) :: (ctx, .operate (.set (.float 0.5) (.int 9))) ::
      stores [(ctx, 1, .int 5), (ctx, 2, .table ⟨7⟩), (ctx, 3, .int 6), (ctx, 4, .int 7), (ctx, 5, .int 8)] ++
      [(ctx, .operate (.remove (.int 5)))]
    let before := (new 0 1).changed changes
    let pruned := Change.apply ctx before (.operate .prune)
    let inRow : List (Context × Int64 × Value) := [(ctx, 1, .int 5), (ctx, 2, .int 6), (ctx, 3, .int 7)]
    let apart : List (Context × Int64 × Value) :=
      [(ctx, 9, .int 5), (ctx, 1, .int 6), (ctx, 2, .int 7), (ctx, 9, .int 8)]
    let t := (new 0 0).changed (stores apart)
    before.array.size = 0 ∧ pruned.array.size = 4 ∧ IsArraySize (pruned.usedUpTo ctx) pruned.array.size ∧
      ((new 0 0).changed (stores inRow)).array.size < 2 * 3 ∧
      ((t.part.entries ctx).map (·.1)).Perm
        (((apart.map (·.2.1)).dedup.filter fun key => (t.array.size : Int) < key.toInt).map Value.int) := by
  intro ctx changes before pruned inRow apart t
  have hhash : ∀ call ∈ changes, call.1.hash = fun _ => 0 := by simp [changes, stores, ctx]
  have hwritten : (new 0 1).keysWritten changes =
      [.float 0.5, .int 1, .int 2, .int 3, .int 4, .int 5, .int 5] := by decide +kernel
  have hhalf : Value.number 0.5 = .float 0.5 := by decide +kernel
  have hcanonical : ∀ key ∈ (new 0 1).keysWritten changes, key.IsCanonical := by
    rw [hwritten]
    intro key hkey x hx
    subst hx
    obtain rfl : x = 0.5 := by simpa using hkey
    exact hhalf
  obtain ⟨hchange, hstores⟩ := halfFull_changed (fun _ => 0) 0 1 changes hhash hcanonical
  obtain ⟨hrule, -⟩ := hchange ctx (.operate .prune) rfl
  obtain ⟨hrow, -⟩ := hstores inRow (by simp [inRow, ctx, Value.isNil])
  obtain ⟨-, hapart⟩ := hstores apart (by simp [apart, ctx, Value.isNil])
  have hpositive : ∀ key ∈ apart.map (·.2.1), 0 < key.toInt := by simp [apart]
  have hnone : ∀ w, (Change.operate .prune).write? ctx before = some w → w.1.IsCanonical := by
    intro w hw
    cases hw
  exact ⟨by decide +kernel, by decide +kernel, hrule rfl (by decide +kernel) hnone ctx rfl,
    (hrow 3 (by decide) (by decide) (by decide)).2.1, (hapart hpositive).2 ctx⟩

end LuaMachine.Table
