import LuaMachine.Proofs.Table.Rehash

namespace LuaMachine.Table

variable {ctx : Context} {K : Set Value} {t : Table} {key value : Value}

section Place

theorem setNormal_of_place {i : Nat} (hplace : t.arrayIndex? key = some i) :
    t.setNormal ctx key value = { t with array := t.array.setIfInBounds i value } := by
  rw [setNormal, hplace]

/-- A value in a place of the array part does not touch the form of the table. -/
theorem WellFormed.setPlace {hash : Value → UInt64} (ht : t.WellFormed hash K) (hkey : key ∈ K) {i : Nat}
    (hplace : t.arrayIndex? key = some i) (value : Value) :
    WellFormed hash K { t with array := t.array.setIfInBounds i value } := by
  obtain ⟨-, hmax, rfl⟩ := arrayIndex?_eq_some.mp hplace
  refine ⟨⟨ht.part, ?_, ht.live, ?_⟩, ht.fits, ht.load, ?_⟩
  · intro k hk
    rw [← ht.outside k hk]
    exact arrayIndex?_congr (Array.size_setIfInBounds ..) k
  · intro j v hget hnil
    by_cases hj : i = j
    · subst hj
      exact ⟨hmax, hkey⟩
    · exact ht.places j v (by simpa [Array.getElem?_setIfInBounds, hj] using hget) hnil
  · intro hweak
    rw [Array.size_setIfInBounds]
    exact ht.noArray hweak

theorem Sound.mem_pairs_setPlace {hash : Value → UInt64} (ht : t.Sound hash K) {i : Nat}
    (hplace : t.arrayIndex? key = some i) (value : Value) {e : Value × Value} :
    e ∈ pairs { t with array := t.array.setIfInBounds i value } ↔
      (e ∈ t.pairs ∧ e.1 ≠ key) ∨ (value.isNil = false ∧ e = (key, value)) := by
  obtain ⟨hsize, hmax, rfl⟩ := arrayIndex?_eq_some.mp hplace
  have hpart (he : e ∈ t.part.pairs) : e.1 ≠ placeKey i := by
    intro hsame
    have hnone := ht.outside _ (HashPart.mem_keys_of_mem_pairs he)
    rw [hsame, hplace] at hnone
    cases hnone
  have hother {j : Nat} {v : Value} (hget : t.array[j]? = some v) (hnil : v.isNil = false) (hne : i ≠ j) :
      placeKey j ≠ placeKey i := fun hsame =>
    hne (placeKey_injective (ht.places j v hget hnil).1 hmax hsame).symm
  simp only [mem_pairs, mem_arrayEntries, Array.getElem?_setIfInBounds]
  constructor
  · rintro (⟨j, v, -, hget, hnil, rfl⟩ | he)
    · split at hget
      · rename_i hj
        subst hj
        cases hget
        exact Or.inr ⟨hnil, rfl⟩
      · rename_i hj
        exact Or.inl ⟨Or.inl ⟨j, v, Nat.zero_le j, hget, hnil, rfl⟩, hother hget hnil hj⟩
    · exact Or.inl ⟨Or.inr he, hpart he⟩
  · rintro (⟨⟨j, v, -, hget, hnil, rfl⟩ | he, hne⟩ | ⟨hnil, rfl⟩)
    · have hj : i ≠ j := by
        rintro rfl
        exact hne rfl
      exact Or.inl ⟨j, v, Nat.zero_le j, by rw [if_neg hj]; exact hget, hnil, rfl⟩
    · exact Or.inr he
    · exact Or.inl ⟨i, value, Nat.zero_le i, by simp [hsize], hnil, rfl⟩

end Place

section InsertNew

/-- The table that takes a new key: rebuilt if it is full. -/
def grown (ctx : Context) (t : Table) (key : Value) : Table :=
  if t.mustGrow ctx key then t.rehash ctx (some key) else t

theorem insertNew_eq (ctx : Context) (t : Table) (key value : Value) :
    t.insertNew ctx key value =
      match (grown ctx t key).arrayIndex? key with
      | some place => { grown ctx t key with array := (grown ctx t key).array.setIfInBounds place value }
      | none => { grown ctx t key with part := (grown ctx t key).part.insert ctx (grown ctx t key).mode key value } :=
  rfl

@[simp] theorem mode_grown (ctx : Context) (t : Table) (key : Value) : (grown ctx t key).mode = t.mode := by
  unfold grown
  split <;> rfl

theorem WellFormed.grown (ht : t.WellFormed ctx.hash K) (key : Value) :
    (grown ctx t key).WellFormed ctx.hash K := by
  unfold Table.grown
  split
  · exact ht.toSound.rehash _
  · exact ht

/-- A rebuild gives no slot to a key that had neither a place nor a slot. -/
theorem Sound.key_not_mem_rehash (ht : t.Sound ctx.hash K) (extra : Option Value)
    (hplace : t.arrayIndex? key = none) (hnew : key ∉ t.part.keys) : key ∉ (t.rehash ctx extra).part.keys := by
  intro hmem
  obtain ⟨-, -, -, -, -, hkeys⟩ := ht.part_rehash extra
  obtain ⟨e, he, rfl⟩ := List.mem_map.mp ((hkeys key).mp hmem)
  rcases ((ht.mem_hashedEntries extra).mp he).2 with harray | hdrained
  · obtain ⟨i, hi⟩ := ht.exists_place harray
    rw [hplace] at hi
    cases hi
  · exact hnew (HashPart.mem_keys_of_mem_pairs ((HashPart.drain_sublist ctx t.part).subset hdrained))

theorem WellFormed.key_not_mem_grown (ht : t.WellFormed ctx.hash K) (hplace : t.arrayIndex? key = none)
    (hnew : key ∉ t.part.keys) : key ∉ (Table.grown ctx t key).part.keys := by
  unfold Table.grown
  split
  · exact ht.toSound.key_not_mem_rehash _ hplace hnew
  · exact hnew

/-- A key that still has no place finds a bucket with room. -/
theorem WellFormed.room_grown (ht : t.WellFormed ctx.hash K)
    (hplace : (Table.grown ctx t key).arrayIndex? key = none) :
    (Table.grown ctx t key).part.nodes < 2 * (Table.grown ctx t key).part.buckets.size := by
  unfold Table.grown at hplace ⊢
  split at hplace
  · rename_i hfull
    have hroom := ht.toSound.room_rehash hplace
    rw [if_pos hfull]
    omega
  · rename_i hfree
    rw [if_neg hfree]
    simp only [mustGrow, Bool.or_eq_true, beq_iff_eq, decide_eq_true_eq, not_or] at hfree
    omega

theorem WellFormed.insertNew (ht : t.WellFormed ctx.hash K) (hkey : key ∈ K) (hplace : t.arrayIndex? key = none)
    (hnew : key ∉ t.part.keys) (hvalue : value.isNil = false) :
    (t.insertNew ctx key value).WellFormed ctx.hash K := by
  have hgrown := ht.grown key
  rw [insertNew_eq]
  cases hindex : (Table.grown ctx t key).arrayIndex? key with
  | some i => exact hgrown.setPlace hkey hindex value
  | none =>
    have hroom := ht.room_grown hindex
    have hbuckets : 0 < (Table.grown ctx t key).part.buckets.size := by omega
    have hfits := hgrown.fits.insert hbuckets ctx key hvalue
    refine ⟨⟨hgrown.part.insert _ value hbuckets hkey fun _ => ht.key_not_mem_grown hplace hnew, ?_, hfits.live,
      hgrown.places⟩, hfits, ?_, hgrown.noArray⟩
    · intro k hk
      obtain rfl | hk := List.mem_cons.mp ((HashPart.keys_insert_perm ctx _ key value hbuckets).mem_iff.mp hk)
      · exact hindex
      · exact hgrown.outside k hk
    · rw [HashPart.nodes_insert, HashPart.buckets_size_insert]
      omega

/-- The moments at which adding a key asks what has vanished: those of the rebuild, if there is one. -/
def growMoments (ctx : Context) (t : Table) (key : Value) : List Context :=
  if t.mustGrow ctx key then HashPart.drainMoments ctx t.part else []

theorem growMoments_everlasting (t : Table) (hlasting : ctx.Everlasting) (key : Value) :
    ∀ c ∈ growMoments ctx t key, c.Everlasting := by
  unfold growMoments
  split
  · exact t.part.drainMoments_everlasting hlasting
  · simp

theorem Sound.of_mem_pairs_grown (ht : t.Sound ctx.hash K) {e : Value × Value}
    (he : e ∈ (Table.grown ctx t key).pairs) : e ∈ t.pairs := by
  unfold Table.grown at he
  split at he
  · exact mem_pairs.mpr ((ht.of_mem_pairs_rehash he).imp_right fun h => (HashPart.drain_sublist ctx t.part).subset h)
  · exact he

/-- Growing loses no entry whose objects exist at every moment of it, if no other key is taken for its. -/
theorem Sound.mem_pairs_grown (ht : t.Sound ctx.hash K) {e : Value × Value} (he : e ∈ t.pairs)
    (halone : Alone ctx.hash K e.1) (hkept : ∀ c ∈ growMoments ctx t key, c.Keeps e) :
    e ∈ (Table.grown ctx t key).pairs := by
  unfold Table.grown
  unfold growMoments at hkept
  split
  · rename_i hfull
    rw [if_pos hfull] at hkept
    exact ht.mem_pairs_rehash_of_alone halone ((mem_pairs.mp he).imp_right fun h => HashPart.mem_drain h hkept)
  · exact he

/-- A new key adds its entry to those of the table that takes it. -/
theorem WellFormed.mem_pairs_insertNew (ht : t.WellFormed ctx.hash K) (hplace : t.arrayIndex? key = none)
    (hnew : key ∉ t.part.keys) (hvalue : value.isNil = false) {e : Value × Value} :
    e ∈ (t.insertNew ctx key value).pairs ↔ e ∈ (Table.grown ctx t key).pairs ∨ e = (key, value) := by
  have hgrown := ht.grown key
  -- the key has no entry yet
  have hnone (he : e ∈ (Table.grown ctx t key).pairs) : e.1 ≠ key := by
    rintro rfl
    rcases mem_pairs.mp (ht.toSound.of_mem_pairs_grown he) with harray | hpart
    · obtain ⟨i, hi⟩ := ht.toSound.exists_place harray
      rw [hplace] at hi
      cases hi
    · exact hnew (HashPart.mem_keys_of_mem_pairs hpart)
  rw [insertNew_eq]
  cases hindex : (Table.grown ctx t key).arrayIndex? key with
  | some i =>
    dsimp only
    rw [hgrown.mem_pairs_setPlace hindex value]
    constructor
    · rintro (⟨he, -⟩ | ⟨-, rfl⟩)
      · exact Or.inl he
      · exact Or.inr rfl
    · rintro (he | rfl)
      · exact Or.inl ⟨he, hnone he⟩
      · exact Or.inr ⟨hvalue, rfl⟩
  | none =>
    have hroom := ht.room_grown hindex
    dsimp only
    rw [mem_pairs, mem_pairs, HashPart.mem_pairs_insert (by omega)]
    tauto

end InsertNew

section SetNormal

theorem setNormal_of_no_place (ctx : Context) (value : Value) (hplace : t.arrayIndex? key = none) :
    t.setNormal ctx key value =
      let (part, stored, ctx') := t.part.setExisting ctx t.mode key value
      if stored || value.isNil then { t with part } else insertNew ctx' { t with part } key value := by
  rw [setNormal, hplace]

/-- A table keeps its form when its slots are overwritten in place. -/
theorem WellFormed.setExisting (ht : t.WellFormed ctx.hash K) (hkey : key ∈ K) (hplace : t.arrayIndex? key = none)
    (value : Value) : WellFormed ctx.hash K { t with part := (t.part.setExisting ctx t.mode key value).1 } := by
  have hfits := ht.fits.setExisting ctx key value
  obtain ⟨hsize, hnodes⟩ := t.part.setExisting_size ctx t.mode key value
  refine ⟨⟨ht.part.setExisting hkey t.mode value, ?_, hfits.live, ht.places⟩, hfits, ?_, ht.noArray⟩
  · intro k hk
    refine (arrayIndex?_congr rfl k).trans ?_
    obtain rfl | hold := HashPart.of_mem_keys_setExisting hk
    · exact hplace
    · exact ht.outside k hold
  · dsimp only
    rw [hsize, hnodes]
    exact ht.load

/-- Storing under a key in stored form keeps a table well formed. -/
theorem WellFormed.setNormal (ht : t.WellFormed ctx.hash K) (hstored : IsStored key) (hkey : key ∈ K)
    (value : Value) : (t.setNormal ctx key value).WellFormed ctx.hash K := by
  cases hplace : t.arrayIndex? key with
  | some i =>
    rw [setNormal_of_place hplace]
    exact ht.setPlace hkey hplace value
  | none =>
    have hkept := ht.setExisting hkey hplace value
    rw [setNormal_of_no_place ctx value hplace]
    dsimp only
    split
    · exact hkept
    · rename_i hdone
      simp only [Bool.or_eq_true, not_or, Bool.not_eq_true] at hdone
      have hnew := ht.part.key_not_mem_setExisting hstored hdone.1
      have hhash := HashPart.setExisting_hash t.part ctx t.mode key value
      rw [← hhash] at hkept ⊢
      exact hkept.insertNew hkey ((arrayIndex?_congr rfl key).trans hplace) hnew hdone.2

@[simp] theorem mode_insertNew (ctx : Context) (t : Table) (key value : Value) :
    (t.insertNew ctx key value).mode = t.mode := by
  rw [insertNew_eq]
  split <;> simp

@[simp] theorem mode_setNormal (ctx : Context) (t : Table) (key value : Value) :
    (t.setNormal ctx key value).mode = t.mode := by
  cases hplace : t.arrayIndex? key with
  | some i => rw [setNormal_of_place hplace]
  | none =>
    rw [setNormal_of_no_place ctx value hplace]
    dsimp only
    split
    · rfl
    · rw [mode_insertNew]

@[simp] theorem mode_setMode (ctx : Context) (t : Table) (mode : WeakMode) : (t.setMode ctx mode).mode = mode := by
  rw [setMode]
  split
  · rename_i h
    exact h.symm
  · rfl

/-- The moments at which storing under a key in stored form asks what has vanished. -/
def storeMoments (ctx : Context) (t : Table) (key value : Value) : List Context :=
  match t.arrayIndex? key with
  | some _ => []
  | none =>
    let (part, stored, ctx') := t.part.setExisting ctx t.mode key value
    HashPart.storeMoments ctx t.part key ++
      if stored || value.isNil then [] else growMoments ctx' { t with part } key

theorem storeMoments_of_no_place (ctx : Context) (value : Value) (hplace : t.arrayIndex? key = none) :
    storeMoments ctx t key value = HashPart.storeMoments ctx t.part key ++
      if (t.part.setExisting ctx t.mode key value).2.1 || value.isNil then []
      else growMoments (t.part.setExisting ctx t.mode key value).2.2
        { t with part := (t.part.setExisting ctx t.mode key value).1 } key := by
  rw [storeMoments, hplace]

theorem storeMoments_everlasting (t : Table) (hlasting : ctx.Everlasting) (key value : Value) :
    ∀ c ∈ storeMoments ctx t key value, c.Everlasting := by
  intro c hc
  cases hplace : t.arrayIndex? key with
  | some i => simp [storeMoments, hplace] at hc
  | none =>
    rw [storeMoments_of_no_place ctx value hplace, List.mem_append] at hc
    rcases hc with hc | hc
    · exact t.part.storeMoments_everlasting hlasting key c hc
    · split at hc
      · cases hc
      · exact growMoments_everlasting _ (HashPart.setExisting_everlasting t.part hlasting t.mode key value) key c hc

/-- Storing under a key that no other is taken for adds no entry but its own. -/
theorem WellFormed.of_mem_pairs_setNormal (ht : t.WellFormed ctx.hash K) (halone : Alone ctx.hash K key) {value : Value}
    {e : Value × Value} (he : e ∈ (t.setNormal ctx key value).pairs) :
    (e ∈ t.pairs ∧ e.1 ≠ key) ∨ (value.isNil = false ∧ e = (key, value)) := by
  cases hplace : t.arrayIndex? key with
  | some i =>
    rw [setNormal_of_place hplace] at he
    exact (ht.toSound.mem_pairs_setPlace hplace value).mp he
  | none =>
    have hset (he : e ∈ pairs { t with part := (t.part.setExisting ctx t.mode key value).1 }) :
        (e ∈ t.pairs ∧ e.1 ≠ key) ∨ (value.isNil = false ∧ e = (key, value)) := by
      rcases mem_pairs.mp he with he | he
      · refine .inl ⟨mem_pairs.mpr (.inl he), fun hkey => ?_⟩
        obtain ⟨i, hi⟩ := ht.toSound.exists_place he
        rw [hkey, hplace] at hi
        cases hi
      · rcases ht.part.of_mem_pairs_setExisting halone he with ⟨hold, hne⟩ | ⟨-, hvalue, hsame⟩
        · exact .inl ⟨mem_pairs.mpr (.inr hold), hne⟩
        · exact .inr ⟨hvalue, hsame⟩
    have hkept := ht.setExisting halone.mem hplace value
    rw [setNormal_of_no_place ctx value hplace] at he
    dsimp only at he
    split at he
    · exact hset he
    · rename_i hdone
      simp only [Bool.or_eq_true, not_or, Bool.not_eq_true] at hdone
      have hnew := ht.part.key_not_mem_setExisting halone.stored hdone.1
      rw [← HashPart.setExisting_hash t.part ctx t.mode key value] at hkept
      rw [hkept.mem_pairs_insertNew ((arrayIndex?_congr rfl key).trans hplace) hnew hdone.2] at he
      exact he.elim (fun he => hset (hkept.toSound.of_mem_pairs_grown he)) fun he => .inr ⟨hdone.2, he⟩

/-- Storing under a key that no other is taken for leaves it the new entry, or none for nil. -/
theorem WellFormed.mem_pairs_setNormal_self (ht : t.WellFormed ctx.hash K) (halone : Alone ctx.hash K key)
    (value v : Value) : (key, v) ∈ (t.setNormal ctx key value).pairs ↔ value.isNil = false ∧ v = value := by
  constructor
  · intro he
    rcases ht.of_mem_pairs_setNormal halone he with ⟨-, hne⟩ | ⟨hvalue, hsame⟩
    · exact absurd rfl hne
    · exact ⟨hvalue, congrArg Prod.snd hsame⟩
  rintro ⟨hvalue, rfl⟩
  cases hplace : t.arrayIndex? key with
  | some i =>
    rw [setNormal_of_place hplace, ht.mem_pairs_setPlace hplace]
    exact .inr ⟨hvalue, rfl⟩
  | none =>
    have hkept := ht.setExisting halone.mem hplace v
    rw [setNormal_of_no_place ctx v hplace]
    dsimp only
    split
    · rename_i hdone
      rw [Bool.or_eq_true, ht.part.setExisting_stored halone] at hdone
      have howned : key ∈ t.part.keys := hdone.resolve_right (by simp [hvalue])
      exact mem_pairs.mpr (.inr (ht.part.mem_pairs_setExisting_self halone t.mode hvalue howned))
    · rename_i hdone
      simp only [Bool.or_eq_true, not_or, Bool.not_eq_true] at hdone
      have hnew := ht.part.key_not_mem_setExisting halone.stored hdone.1
      rw [← HashPart.setExisting_hash t.part ctx t.mode key v] at hkept
      rw [hkept.mem_pairs_insertNew ((arrayIndex?_congr rfl key).trans hplace) hnew hdone.2]
      exact .inr rfl

/-- Storing leaves an entry alone whose objects exist at every moment of it, if its key is another one that none is
taken for. -/
theorem WellFormed.mem_pairs_setNormal_other (ht : t.WellFormed ctx.hash K) (hstored : IsStored key) (hkey : key ∈ K)
    (value : Value) {e : Value × Value} (halone : Alone ctx.hash K e.1) (hne : e.1 ≠ key)
    (hlasts : e ∈ t.pairs → ∀ c ∈ storeMoments ctx t key value, c.Keeps e) :
    e ∈ (t.setNormal ctx key value).pairs ↔ e ∈ t.pairs := by
  cases hplace : t.arrayIndex? key with
  | some i =>
    rw [setNormal_of_place hplace, ht.mem_pairs_setPlace hplace]
    exact ⟨fun he => he.elim And.left fun he => absurd (congrArg Prod.fst he.2) hne, fun he => .inl ⟨he, hne⟩⟩
  | none =>
    have hkept := ht.setExisting hkey hplace value
    rw [storeMoments_of_no_place ctx value hplace] at hlasts
    have hsame : e ∈ pairs { t with part := (t.part.setExisting ctx t.mode key value).1 } ↔ e ∈ t.pairs := by
      rw [mem_pairs, mem_pairs, ht.part.mem_pairs_setExisting_iff hkey t.mode value halone hne]
      exact fun he c hc => hlasts (mem_pairs.mpr (.inr he)) c (List.mem_append_left _ hc)
    rw [setNormal_of_no_place ctx value hplace]
    dsimp only
    split
    · exact hsame
    · rename_i hdone
      rw [if_neg hdone] at hlasts
      simp only [Bool.or_eq_true, not_or, Bool.not_eq_true] at hdone
      have hnew := ht.part.key_not_mem_setExisting hstored hdone.1
      rw [← HashPart.setExisting_hash t.part ctx t.mode key value] at hkept halone
      rw [hkept.mem_pairs_insertNew ((arrayIndex?_congr rfl key).trans hplace) hnew hdone.2, ← hsame]
      constructor
      · rintro (he | rfl)
        · exact hkept.toSound.of_mem_pairs_grown he
        · exact absurd rfl hne
      · intro he
        exact .inl (hkept.toSound.mem_pairs_grown he halone fun c hc =>
          hlasts (hsame.mp he) c (List.mem_append_right _ hc))

/-- Storing replaces the entry of its key. It keeps another entry whose objects exist at every moment of it, if no other
key is taken for that entry's. -/
theorem WellFormed.mem_pairs_setNormal (ht : t.WellFormed ctx.hash K) (hstored : IsStored key) (hkey : key ∈ K)
    (value : Value) {e : Value × Value} (halone : Alone ctx.hash K e.1)
    (hlasts : e ∈ t.pairs → ∀ c ∈ storeMoments ctx t key value, c.Keeps e) :
    e ∈ (t.setNormal ctx key value).pairs ↔
      (e ∈ t.pairs ∧ e.1 ≠ key) ∨ (value.isNil = false ∧ e = (key, value)) := by
  obtain ⟨k, v⟩ := e
  by_cases hsame : k = key
  · subst hsame
    rw [ht.mem_pairs_setNormal_self halone]
    simp
  · rw [ht.mem_pairs_setNormal_other hstored hkey value halone hsame hlasts]
    simp [hsame]

/-- While nothing vanishes, storing replaces the entry of its key. -/
theorem WellFormed.mem_pairs_setNormal_of_everlasting (ht : t.WellFormed ctx.hash K) (hstored : IsStored key)
    (hkey : key ∈ K) (hlasting : ctx.Everlasting) (value : Value) {e : Value × Value} (halone : Alone ctx.hash K e.1) :
    e ∈ (t.setNormal ctx key value).pairs ↔
      (e ∈ t.pairs ∧ e.1 ≠ key) ∨ (value.isNil = false ∧ e = (key, value)) :=
  ht.mem_pairs_setNormal hstored hkey value halone fun _ c hc =>
    (t.storeMoments_everlasting hlasting key value c hc).keeps e

end SetNormal

end LuaMachine.Table
