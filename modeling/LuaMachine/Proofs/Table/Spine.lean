import LuaMachine.Proofs.Table.Operations

namespace LuaMachine.Table

/-- The keys of the array places. -/
def placeKeys (t : Table) : List Value := (List.range (min t.array.size maxPlaces)).map placeKey

/-- The keys that own an array place or a slot, in traversal order. -/
def spine (t : Table) : List Value := t.placeKeys ++ t.part.keys

/-- The entry of a key, if it has one. -/
def entryOf (ctx : Context) (t : Table) (key : Value) : Option (Value × Value) :=
  if (t.get ctx key).isNil then none else some (key, t.get ctx key)

/-- A key owns an array place or a slot, dead or alive. -/
def Owns (t : Table) (key : Value) : Prop := (t.arrayIndex? key).isSome ∨ key ∈ t.part.keys

theorem mem_placeKeys {t : Table} {key : Value} : key ∈ t.placeKeys ↔ (t.arrayIndex? key).isSome := by
  simp only [placeKeys, List.mem_map, List.mem_range, Option.isSome_iff_exists, arrayIndex?_eq_some, Nat.lt_min]
  constructor
  · rintro ⟨i, ⟨hsize, hmax⟩, rfl⟩
    exact ⟨i, hsize, hmax, rfl⟩
  · rintro ⟨i, hsize, hmax, rfl⟩
    exact ⟨i, ⟨hsize, hmax⟩, rfl⟩

/-- The spine consists of the keys that own something. -/
theorem mem_spine {t : Table} {key : Value} : key ∈ t.spine ↔ t.Owns key := by
  rw [spine, List.mem_append, mem_placeKeys, Owns]

section Spine

variable {ctx : Context} {K : Set Value} {t : Table} {key : Value}

theorem nodup_placeKeys (t : Table) : t.placeKeys.Nodup := nodup_map_placeKey (Nat.min_le_right ..)

/-- No key occurs twice on the spine. -/
theorem Sound.nodup_spine {hash : Value → UInt64} (ht : t.Sound hash K) (hK : Distinguished K) : t.spine.Nodup := by
  rw [spine, List.nodup_append]
  refine ⟨t.nodup_placeKeys, ht.part.nodup (hK.separated hash), ?_⟩
  rintro k hplace l hslot rfl
  rw [mem_placeKeys, ht.outside k hslot] at hplace
  cases hplace

/-- A key with a value is on the spine. -/
theorem Sound.mem_spine_of_get (ht : t.Sound ctx.hash K) (hK : Distinguished K) (hkey : key ∈ K)
    (hlive : (t.get ctx key).isNil = false) : key ∈ t.spine := by
  have hentry := (ht.mem_entries_iff ((hK.separated _).alone hkey)).mpr ⟨rfl, hlive⟩
  rw [mem_spine]
  rcases List.mem_append.mp hentry with harray | hpart
  · exact Or.inl (Option.isSome_iff_exists.mpr (ht.exists_place harray))
  · exact Or.inr (HashPart.mem_keys_of_mem_pairs (HashPart.mem_pairs_of_mem_entries hpart))

theorem entryOf_eq_some {v : Value} : t.entryOf ctx key = some (key, v) ↔ t.get ctx key = v ∧ v.isNil = false := by
  unfold entryOf
  constructor
  · intro h
    split at h
    · cases h
    · rename_i hlive
      cases h
      exact ⟨rfl, by simpa using hlive⟩
  · rintro ⟨rfl, hlive⟩
    simp [hlive]

theorem entryOf_fst {e : Value × Value} (h : t.entryOf ctx key = some e) : e.1 = key := by
  unfold entryOf at h
  split at h
  · cases h
  · cases h
    rfl

/-- The entry of a key's slot is the key's entry. -/
theorem Sound.entry?_eq_entryOf (ht : t.Sound ctx.hash K) (hK : Distinguished K) {n : Node}
    (hn : n ∈ t.part.nodeList) : n.slot.entry? ctx = t.entryOf ctx n.slot.key := by
  have hslot : n.slot.key ∈ t.part.keys := List.mem_map.mpr ⟨n, hn, rfl⟩
  have hknown := ht.part.known _ hslot
  cases hentry : n.slot.entry? ctx with
  | some e =>
    obtain ⟨k, v⟩ := e
    obtain rfl : k = n.slot.key := Slot.entry?_fst hentry
    have hmem : (n.slot.key, v) ∈ t.part.entries ctx := by
      rw [HashPart.entries_eq]
      exact List.mem_filterMap.mpr ⟨n, hn, hentry⟩
    have hread := (ht.mem_entries_iff ((hK.separated _).alone hknown)).mp (List.mem_append_right _ hmem)
    exact (entryOf_eq_some.mpr hread).symm
  | none =>
    cases hof : t.entryOf ctx n.slot.key with
    | none => rfl
    | some e =>
      obtain ⟨k, v⟩ := e
      obtain rfl : k = n.slot.key := entryOf_fst hof
      -- the entry must stand in the key's only slot
      have hmem := (ht.mem_entries_iff ((hK.separated _).alone hknown)).mpr (entryOf_eq_some.mp hof)
      rcases List.mem_append.mp hmem with harray | hpart
      · obtain ⟨i, hi⟩ := ht.exists_place harray
        rw [ht.outside _ hslot] at hi
        cases hi
      · rw [HashPart.entries_eq] at hpart
        obtain ⟨m, hm, hsome⟩ := List.mem_filterMap.mp hpart
        have hsame : m = n :=
          List.inj_on_of_nodup_map (ht.part.nodup (hK.separated _)) hm hn (Slot.entry?_fst hsome).symm
        rw [hsame, hentry] at hsome
        cases hsome

theorem Sound.filterMap_entryOf_keys (ht : t.Sound ctx.hash K) (hK : Distinguished K) {nodes : Chain}
    (hsub : ∀ n ∈ nodes, n ∈ t.part.nodeList) :
    nodes.keys.filterMap (t.entryOf ctx) = Chain.entries ctx nodes := by
  rw [Chain.keys, List.filterMap_map, Chain.entries]
  exact List.filterMap_congr fun n hn => (ht.entry?_eq_entryOf hK (hsub n hn)).symm

theorem arrayEntries_of_none {array : Array Value} {i : Nat} (h : array[i]? = none) : arrayEntries array i = [] := by
  rw [arrayEntries, List.drop_eq_nil_of_le (by simpa using h)]
  rfl

theorem arrayEntries_of_some {array : Array Value} {i : Nat} {v : Value} (h : array[i]? = some v) :
    arrayEntries array i =
      if v.isNil then arrayEntries array (i + 1) else (placeKey i, v) :: arrayEntries array (i + 1) := by
  obtain ⟨hi, rfl⟩ := Array.getElem?_eq_some_iff.mp h
  rw [arrayEntries, List.drop_eq_getElem_cons (by simpa using hi), List.zipIdx_cons, List.filterMap_cons,
    Array.getElem_toList]
  dsimp only
  cases hnil : array[i].isNil <;> simp [arrayEntries, placeKey]

theorem entryOf_placeKey {i : Nat} {v : Value} (hget : t.array[i]? = some v) (hmax : i < maxPlaces) :
    t.entryOf ctx (placeKey i) = if v.isNil then none else some (placeKey i, v) := by
  have hread : t.get ctx (placeKey i) = v := by
    have hstored : IsStored (placeKey i) := rfl
    rw [get_of_isStored ctx t hstored, arrayIndex?_placeKey (Array.getElem?_eq_some_iff.mp hget).1 hmax]
    simp [hget]
  rw [entryOf, hread]

/-- Listing the array part from a place on goes along its keys. -/
theorem Sound.arrayEntries_eq {hash : Value → UInt64} (ht : t.Sound hash K) (ctx : Context) (i : Nat) :
    arrayEntries t.array i = (t.placeKeys.drop i).filterMap (t.entryOf ctx) := by
  cases hget : t.array[i]? with
  | none =>
    have hend : t.placeKeys.length ≤ i := by
      simp only [placeKeys, List.length_map, List.length_range]
      rw [Array.getElem?_eq_none_iff] at hget
      omega
    rw [arrayEntries_of_none hget, List.drop_eq_nil_of_le hend]
    rfl
  | some v =>
    have hsize := (Array.getElem?_eq_some_iff.mp hget).1
    have hrest := ht.arrayEntries_eq ctx (i + 1)
    rw [arrayEntries_of_some hget, hrest]
    by_cases hmax : i < maxPlaces
    · have hi : i < t.placeKeys.length := by simpa [placeKeys] using ⟨hsize, hmax⟩
      have hkey : t.placeKeys[i] = placeKey i := by simp [placeKeys]
      rw [List.drop_eq_getElem_cons hi, List.filterMap_cons, hkey, entryOf_placeKey hget hmax]
      cases v.isNil <;> simp
    · -- places without a key of their own are never in use
      have hnil : v.isNil = true := by
        by_contra hlive
        exact hmax (ht.places i v hget (by simpa using hlive)).1
      have hend (j : Nat) (hj : i ≤ j) : t.placeKeys.drop j = [] := by
        apply List.drop_eq_nil_of_le
        simp only [placeKeys, List.length_map, List.length_range]
        omega
      rw [if_pos hnil, hend i (Nat.le_refl i), hend (i + 1) (Nat.le_succ i)]
termination_by t.array.size - i

/-- Listing the entries goes along the spine. -/
theorem Sound.entries_eq_filterMap_spine (ht : t.Sound ctx.hash K) (hK : Distinguished K) :
    t.entries ctx = t.spine.filterMap (t.entryOf ctx) := by
  rw [entries, spine, List.filterMap_append]
  congr 1
  · exact ht.arrayEntries_eq ctx 0
  · rw [HashPart.entries_eq]
    exact (ht.filterMap_entryOf_keys hK fun n hn => hn).symm

end Spine

section Next

variable {ctx : Context} {K : Set Value} {t : Table} {key : Value}

theorem firstInArray?_eq (t : Table) (i : Nat) : t.firstInArray? i = (arrayEntries t.array i).head? := by
  have hlook (fuel i : Nat) (hfuel : t.array.size ≤ i + fuel) :
      firstInArray?.look t fuel i = (arrayEntries t.array i).head? := by
    induction fuel generalizing i with
    | zero =>
      rw [arrayEntries_of_none (Array.getElem?_eq_none (by omega))]
      rfl
    | succ fuel ih =>
      rw [firstInArray?.look]
      cases hget : t.array[i]? with
      | none =>
        rw [arrayEntries_of_none hget]
        rfl
      | some v =>
        rw [arrayEntries_of_some hget]
        dsimp only
        split
        · exact ih (i + 1) (by omega)
        · rfl
  exact hlook _ i (by omega)

theorem Chain.first?_eq (ctx : Context) (chain : Chain) :
    Chain.first? ctx chain = (Chain.entries ctx chain).head? := (List.head?_filterMap ..).symm

/-- The nodes from a bucket on. -/
def HashPart.nodesFrom (p : HashPart) (i : Nat) : Chain := (p.buckets.toList.drop i).flatten

theorem HashPart.firstFrom?_eq (p : HashPart) (ctx : Context) {fuel i : Nat} (hfuel : p.buckets.size ≤ i + fuel) :
    p.firstFrom? ctx fuel i = (Chain.entries ctx (p.nodesFrom i)).head? := by
  induction fuel generalizing i with
  | zero =>
    rw [firstFrom?, nodesFrom, List.drop_eq_nil_of_le (by simpa using hfuel)]
    rfl
  | succ fuel ih =>
    rw [firstFrom?]
    cases hchain : p.buckets[i]? with
    | none =>
      rw [nodesFrom, List.drop_eq_nil_of_le (by simpa using hchain)]
      rfl
    | some chain =>
      obtain ⟨hi, rfl⟩ := Array.getElem?_eq_some_iff.mp hchain
      have hnodes : p.nodesFrom i = p.buckets[i] ++ p.nodesFrom (i + 1) := by
        rw [nodesFrom, List.drop_eq_getElem_cons (by simpa using hi), List.flatten_cons, Array.getElem_toList]
        rfl
      have happend : Chain.entries ctx (p.buckets[i] ++ p.nodesFrom (i + 1)) =
          Chain.entries ctx p.buckets[i] ++ Chain.entries ctx (p.nodesFrom (i + 1)) := List.filterMap_append ..
      rw [hnodes, happend, List.head?_append]
      dsimp only
      rw [Chain.first?_eq]
      cases (Chain.entries ctx p.buckets[i]).head? with
      | some e => rfl
      | none => exact ih (by omega)

/-- Behind the node of a key, the rest of its chain comes next. -/
theorem Chain.Keyed.after?_eq {h : UInt64} {chain : Chain} (hkeyed : Chain.Keyed h key chain)
    (hmem : key ∈ chain.keys) : ∃ before n behind, chain = before ++ n :: behind ∧ n.slot.key = key ∧
      Chain.after? h key chain = some behind := by
  induction chain with
  | nil => cases hmem
  | cons n rest ih =>
    rw [Chain.after?]
    split
    · rename_i hfound
      exact ⟨[], n, rest, rfl, hkeyed.head.mp hfound, rfl⟩
    · rename_i hother
      have hne : n.slot.key ≠ key := fun heq => hother (hkeyed.head.mpr heq)
      have hrest : key ∈ Chain.keys rest := by
        rcases List.mem_cons.mp hmem with heq | hrest
        · exact absurd heq.symm hne
        · exact hrest
      obtain ⟨before, m, behind, hsplit, hm, hafter⟩ := ih hkeyed.tail hrest
      exact ⟨n :: before, m, behind, by rw [hsplit]; rfl, hm, hafter⟩

/-- Behind a key that owns a slot comes the first entry of the nodes behind that slot. -/
theorem HashPart.WellFormed.after?_eq {p : HashPart} (hp : p.WellFormed ctx.hash K) (hK : Distinguished K)
    (hmem : key ∈ p.keys) : ∃ before n behind, p.nodeList = before ++ n :: behind ∧ n.slot.key = key ∧
      p.after? ctx key = some ((Chain.entries ctx behind).head?) := by
  have hkey := hp.known key hmem
  cases hchain : p.buckets[p.bucketOf (ctx.hash key)]? with
  | none =>
    rw [HashPart.keys, nodeList_of_no_buckets (bucket_eq_none_iff.mp hchain)] at hmem
    cases hmem
  | some chain =>
    obtain ⟨before, n, behind, hsplit, hn, hafter⟩ :=
      (hp.keyed ((hK.separated _).alone hkey) hchain).after?_eq ((hp.mem_keys_iff hchain).mp hmem)
    obtain ⟨hi, hget⟩ := Array.getElem?_eq_some_iff.mp hchain
    set i := p.bucketOf (ctx.hash key) with hbucket
    refine ⟨(p.buckets.toList.take i).flatten ++ before, n, behind ++ p.nodesFrom (i + 1), ?_, hn, ?_⟩
    · have hcut : p.buckets.toList = p.buckets.toList.take i ++ chain :: p.buckets.toList.drop (i + 1) := by
        rw [← hget, ← Array.getElem_toList, List.getElem_cons_drop, List.take_append_drop]
      have hflat := congrArg List.flatten hcut
      simpa [nodeList, nodesFrom, hsplit] using hflat
    · have hown : p.chainOf ctx key = chain := by
        rw [chainOf, ← hbucket, hchain]
        rfl
      have happend : Chain.entries ctx (behind ++ p.nodesFrom (i + 1)) =
          Chain.entries ctx behind ++ Chain.entries ctx (p.nodesFrom (i + 1)) := List.filterMap_append ..
      rw [after?, hown, hafter, Option.map_some, ← hbucket, firstFrom?_eq p ctx (by omega), happend,
        List.head?_append, Chain.first?_eq]
      cases (Chain.entries ctx behind).head? <;> rfl

/-- Looking from an array place on goes along the spine. -/
theorem Sound.entryFrom?_eq (ht : t.Sound ctx.hash K) (hK : Distinguished K) (i : Nat) :
    t.entryFrom? ctx i = ((t.placeKeys.drop i ++ t.part.keys).filterMap (t.entryOf ctx)).head? := by
  have hpart : t.part.keys.filterMap (t.entryOf ctx) = Chain.entries ctx t.part.nodeList :=
    ht.filterMap_entryOf_keys hK fun n hn => hn
  have hfirst : t.part.first? ctx = (Chain.entries ctx t.part.nodeList).head? := by
    rw [HashPart.first?, HashPart.firstFrom?_eq _ ctx (by omega)]
    rfl
  rw [entryFrom?, firstInArray?_eq, hfirst, List.filterMap_append, ← ht.arrayEntries_eq ctx i, hpart, List.head?_append]
  cases (arrayEntries t.array i).head? <;> rfl

/-- A traversal starts with the first key on the spine that has a value. -/
theorem Sound.next_nil (ht : t.Sound ctx.hash K) (hK : Distinguished K) :
    t.next ctx .nil = .ok ((t.spine.filterMap (t.entryOf ctx)).head?) := by
  have hnext : t.next ctx .nil = .ok (t.entryFrom? ctx 0) := rfl
  rw [hnext, ht.entryFrom?_eq hK]
  rfl

/-- A traversal goes from a key on the spine to the first one behind it that has a value. -/
theorem Sound.next_eq (ht : t.Sound ctx.hash K) (hK : Distinguished K) {before behind : List Value}
    (hspine : t.spine = before ++ key :: behind) :
    t.next ctx key = .ok ((behind.filterMap (t.entryOf ctx)).head?) := by
  have hnodup := ht.nodup_spine hK
  rw [hspine, List.nodup_append, List.nodup_cons] at hnodup
  have hbehind : key ∉ behind := hnodup.2.1.1
  have hbefore : key ∉ before := fun h => hnodup.2.2 key h key (by simp) rfl
  have hunique {before' behind' : List Value} (h : t.spine = before' ++ key :: behind') : behind' = behind := by
    rw [hspine] at h
    exact ((List.append_cons_inj_of_notMem hbefore hbehind).mp h).2.2.symm
  have hmem : key ∈ t.spine := by simp [hspine]
  cases hplace : t.arrayIndex? key with
  | some i =>
    obtain ⟨hsize, hmax, rfl⟩ := arrayIndex?_eq_some.mp hplace
    have hi : i < t.placeKeys.length := by simpa [placeKeys] using ⟨hsize, hmax⟩
    have hkey : t.placeKeys[i] = placeKey i := by simp [placeKeys]
    have hsplit : t.spine = t.placeKeys.take i ++ placeKey i :: (t.placeKeys.drop (i + 1) ++ t.part.keys) := by
      rw [← List.cons_append, ← hkey, List.getElem_cons_drop, ← List.append_assoc, List.take_append_drop, spine]
    have hstored : normalizeKey (placeKey i) = .ok (placeKey i) := rfl
    rw [next, if_neg (by simp [placeKey, Value.isNil]), hstored]
    dsimp only
    rw [hplace]
    dsimp only
    rw [← hunique hsplit, ht.entryFrom?_eq hK]
  | none =>
    have hslot : key ∈ t.part.keys := by
      rcases mem_spine.mp hmem with howned | hslot
      · rw [hplace] at howned
        cases howned
      · exact hslot
    obtain ⟨front, n, rest, hnodes, hn, hafter⟩ := ht.part.after?_eq hK hslot
    have hsplit : t.spine = (t.placeKeys ++ Chain.keys front) ++ key :: Chain.keys rest := by
      rw [spine, HashPart.keys, hnodes, ← hn]
      simp [Chain.keys]
    have hstored : normalizeKey key = .ok key := hK.stored key (ht.part.known key hslot)
    have hnil : key.isNil = false := by
      rw [← Bool.not_eq_true, Value.isNil_iff]
      exact (hK.stored key (ht.part.known key hslot)).ne_nil
    rw [next, if_neg (by simp [hnil]), hstored]
    dsimp only
    rw [hplace, hafter, ← hunique hsplit,
      ht.filterMap_entryOf_keys hK fun m hm => by rw [hnodes]; simp [hm]]

end Next

end LuaMachine.Table
