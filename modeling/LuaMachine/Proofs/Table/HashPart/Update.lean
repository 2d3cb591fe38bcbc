import LuaMachine.Proofs.Table.HashPart

namespace LuaMachine.Table.HashPart

theorem setExisting_of_empty {p : HashPart} (ctx : Context) (mode : WeakMode) (key value : Value)
    (h : p.buckets[p.bucketOf (ctx.hash key)]? = none) : p.setExisting ctx mode key value = (p, false, ctx) := by
  unfold setExisting
  dsimp only
  split
  · rfl
  · rename_i hchain
    rw [h] at hchain
    cases hchain

theorem setExisting_of_chain {p : HashPart} (ctx : Context) (mode : WeakMode) (key value : Value) {chain : Chain}
    (h : p.buckets[p.bucketOf (ctx.hash key)]? = some chain) :
    p.setExisting ctx mode key value =
      let result := Chain.store mode (ctx.hash key) key value ctx p.dead chain
      (⟨p.buckets.setIfInBounds (p.bucketOf (ctx.hash key)) result.chain, p.nodes, result.dead⟩,
        result.stored, result.context) := by
  unfold setExisting
  dsimp only
  split
  · rename_i hnone
    rw [h] at hnone
    cases hnone
  · rename_i hchain
    rw [h] at hchain
    cases hchain
    rfl

theorem bucket_eq_none_iff {p : HashPart} {w : UInt64} :
    p.buckets[p.bucketOf w]? = none ↔ p.buckets.size = 0 := by
  rw [Array.getElem?_eq_none_iff]
  constructor
  · intro hle
    by_contra hne
    exact absurd (bucketOf_lt (Nat.pos_of_ne_zero hne) w) (by omega)
  · omega

theorem nodeList_of_no_buckets {p : HashPart} (h : p.buckets.size = 0) : p.nodeList = [] := by
  simp [nodeList, Array.eq_empty_of_size_eq_zero h]

/-- The dead of one chain are at most all dead. -/
theorem WellFormed.deadCount_le {hash : Value → UInt64} {K : Set Value} {p : HashPart}
    (hp : p.WellFormed hash K) {i : Nat} {chain : Chain} (h : p.buckets[i]? = some chain) :
    chain.deadCount ≤ p.dead := by
  obtain ⟨before, behind, hnodes, -⟩ := exists_nodeList_split h
  rw [hp.dead_eq, hnodes]
  simp only [Chain.deadCount, List.countP_append]
  omega

section SetExisting

variable {ctx : Context} {K : Set Value} {p : HashPart} {mode : WeakMode} {key value : Value}

/-- Overwriting the slot of a key that no other is taken for moves no node and changes no key. -/
theorem WellFormed.setExisting_labels (hp : p.WellFormed ctx.hash K) (hkey : Alone ctx.hash K key)
    (mode : WeakMode) (value : Value) : (p.setExisting ctx mode key value).1.labels = p.labels := by
  cases hchain : p.buckets[p.bucketOf (ctx.hash key)]? with
  | none => rw [setExisting_of_empty ctx mode key value hchain]
  | some chain =>
    have hkept := Chain.store_labels mode value (hp.keyed hkey hchain) ctx p.dead
    rw [setExisting_of_chain ctx mode key value hchain]
    apply List.ext_getElem?
    intro j
    simp only [labels, Array.toList_setIfInBounds, List.map_set, List.getElem?_set, List.getElem?_map, hkept,
      List.length_map, Array.length_toList, Array.getElem?_toList]
    split
    · rename_i heq
      subst heq
      split
      · simp [hchain]
      · rename_i hout
        rw [Array.getElem?_eq_none (by omega)]
        rfl
    · rfl

theorem WellFormed.setExisting_keys (hp : p.WellFormed ctx.hash K) (hkey : Alone ctx.hash K key)
    (mode : WeakMode) (value : Value) : (p.setExisting ctx mode key value).1.keys = p.keys := by
  rw [keys_eq_labels, keys_eq_labels, hp.setExisting_labels hkey mode value]

/-- Overwriting labels no node anew but with the key, if it was taken for the key's. -/
theorem setExisting_relabels (p : HashPart) (ctx : Context) (mode : WeakMode) (key value : Value) :
    List.Forall₂ (List.Forall₂ (Chain.Relabels (ctx.hash key) key)) p.labels
      (p.setExisting ctx mode key value).1.labels := by
  cases hchain : p.buckets[p.bucketOf (ctx.hash key)]? with
  | none =>
    rw [setExisting_of_empty ctx mode key value hchain]
    exact List.forall₂_same.mpr fun labels _ => Chain.relabels_refl _ key labels
  | some chain =>
    have hrelabels := Chain.store_relabels mode (ctx.hash key) key value chain ctx p.dead
    rw [setExisting_of_chain ctx mode key value hchain]
    refine List.forall₂_iff_get.mpr ⟨by simp [labels], fun i hi hi' => ?_⟩
    simp only [labels, List.get_eq_getElem, Array.toList_setIfInBounds, List.map_set, List.getElem_set,
      List.getElem_map, Array.getElem_toList]
    split
    · rename_i heq
      subst heq
      obtain ⟨hbucket, rfl⟩ := Array.getElem?_eq_some_iff.mp hchain
      exact hrelabels
    · exact Chain.relabels_refl _ key _

theorem WellFormed.setExisting (hp : p.WellFormed ctx.hash K) (hkey : key ∈ K) (mode : WeakMode) (value : Value) :
    (p.setExisting ctx mode key value).1.WellFormed ctx.hash K := by
  apply hp.of_relabels hkey (p.setExisting_relabels ctx mode key value)
  · cases hchain : p.buckets[p.bucketOf (ctx.hash key)]? with
    | none => rw [setExisting_of_empty ctx mode key value hchain]
    | some chain => rw [setExisting_of_chain ctx mode key value hchain]
  · cases hchain : p.buckets[p.bucketOf (ctx.hash key)]? with
    | none =>
      rw [setExisting_of_empty ctx mode key value hchain]
      exact hp.dead_eq
    | some chain =>
      have hexact := Chain.store_dead mode (ctx.hash key) key value ctx p.dead
        (hp.deadCount_le hchain)
      obtain ⟨before, behind, hnodes, hset⟩ := exists_nodeList_split hchain
      have hdead := hp.dead_eq
      rw [setExisting_of_chain ctx mode key value hchain]
      dsimp only
      rw [hset]
      rw [hnodes] at hdead
      simp only [Chain.deadCount, List.countP_append] at hdead hexact ⊢
      omega

/-- Overwriting that finds no slot changes no key. -/
theorem keys_setExisting_of_eq_false (h : (p.setExisting ctx mode key value).2.1 = false) :
    (p.setExisting ctx mode key value).1.keys = p.keys := by
  cases hchain : p.buckets[p.bucketOf (ctx.hash key)]? with
  | none => rw [setExisting_of_empty ctx mode key value hchain]
  | some chain =>
    obtain ⟨before, behind, hnodes, hset⟩ := exists_nodeList_split hchain
    rw [setExisting_of_chain ctx mode key value hchain] at h ⊢
    have hlabels := Chain.labels_store_of_stored_eq_false mode (ctx.hash key) key value h
    have hkeys := congrArg (List.map (·.2)) hlabels
    rw [Chain.keys_eq_labels, Chain.keys_eq_labels] at hkeys
    dsimp only
    rw [keys, keys, hset, hnodes]
    simp only [Chain.keys, List.map_append] at hkeys ⊢
    rw [hkeys]

/-- Overwriting keeps the number of buckets and of nodes. -/
theorem setExisting_size (p : HashPart) (ctx : Context) (mode : WeakMode) (key value : Value) :
    (p.setExisting ctx mode key value).1.buckets.size = p.buckets.size ∧
      (p.setExisting ctx mode key value).1.nodes = p.nodes := by
  cases hchain : p.buckets[p.bucketOf (ctx.hash key)]? with
  | none => simp [setExisting_of_empty ctx mode key value hchain]
  | some chain => simp [setExisting_of_chain ctx mode key value hchain]

/-- The keys that own a slot behind overwriting are the key and keys that owned one before. -/
theorem of_mem_keys_setExisting {k : Value} (hk : k ∈ (p.setExisting ctx mode key value).1.keys) :
    k = key ∨ k ∈ p.keys := by
  rw [keys_eq_labels] at hk ⊢
  obtain ⟨l, hl, rfl⟩ := List.mem_map.mp hk
  obtain ⟨old, hold, rfl | ⟨-, -, rfl⟩⟩ :=
    Chain.exists_relabels (List.rel_flatten (p.setExisting_relabels ctx mode key value)) hl
  · exact .inr (List.mem_map.mpr ⟨_, hold, rfl⟩)
  · exact .inl rfl

/-- Overwriting finds exactly the keys that own a slot, if no other is taken for them. -/
theorem WellFormed.setExisting_stored (hp : p.WellFormed ctx.hash K) (hkey : Alone ctx.hash K key)
    (mode : WeakMode) (value : Value) : (p.setExisting ctx mode key value).2.1 = true ↔ key ∈ p.keys := by
  cases hchain : p.buckets[p.bucketOf (ctx.hash key)]? with
  | none =>
    rw [setExisting_of_empty ctx mode key value hchain]
    simp [keys, nodeList_of_no_buckets (bucket_eq_none_iff.mp hchain), Chain.keys]
  | some chain =>
    rw [setExisting_of_chain ctx mode key value hchain, hp.mem_keys_iff hchain]
    exact Chain.store_stored value (hp.keyed hkey hchain) ctx p.dead

theorem setExisting_hash (p : HashPart) (ctx : Context) (mode : WeakMode) (key value : Value) :
    (p.setExisting ctx mode key value).2.2.hash = ctx.hash := by
  cases hchain : p.buckets[p.bucketOf (ctx.hash key)]? with
  | none => rw [setExisting_of_empty ctx mode key value hchain]
  | some chain =>
    rw [setExisting_of_chain ctx mode key value hchain]
    exact Chain.store_hash value chain ctx p.dead

theorem setExisting_everlasting (p : HashPart) {ctx : Context} (hlasting : ctx.Everlasting) (mode : WeakMode)
    (key value : Value) : (p.setExisting ctx mode key value).2.2.Everlasting := by
  cases hchain : p.buckets[p.bucketOf (ctx.hash key)]? with
  | none =>
    rw [setExisting_of_empty ctx mode key value hchain]
    exact hlasting
  | some chain =>
    rw [setExisting_of_chain ctx mode key value hchain]
    exact Chain.store_everlasting value hlasting chain p.dead

theorem Fits.setExisting (hfits : p.Fits mode) (ctx : Context) (key value : Value) :
    (p.setExisting ctx mode key value).1.Fits mode := by
  cases hchain : p.buckets[p.bucketOf (ctx.hash key)]? with
  | none =>
    rw [setExisting_of_empty ctx mode key value hchain]
    exact hfits
  | some chain =>
    obtain ⟨before, behind, hnodes, hset⟩ := exists_nodeList_split hchain
    rw [Fits, hnodes] at hfits
    rw [setExisting_of_chain ctx mode key value hchain, Fits]
    dsimp only
    rw [hset]
    have hmiddle := Chain.store_fits (ctx.hash key) key value
      (fun n hn => hfits n (List.mem_append_left _ (List.mem_append_right _ hn))) ctx p.dead
    intro n hn
    simp only [List.mem_append] at hn hfits
    obtain (hn | hn) | hn := hn
    · exact hfits n (Or.inl (Or.inl hn))
    · exact hmiddle n hn
    · exact hfits n (Or.inr hn)

/-- Overwriting finds the slot of a key that owns one. -/
theorem WellFormed.setExisting_stored_of_mem (hp : p.WellFormed ctx.hash K) (hstored : IsStored key)
    (hmem : key ∈ p.keys) (mode : WeakMode) (value : Value) : (p.setExisting ctx mode key value).2.1 = true := by
  cases hchain : p.buckets[p.bucketOf (ctx.hash key)]? with
  | none =>
    rw [keys, nodeList_of_no_buckets (bucket_eq_none_iff.mp hchain)] at hmem
    cases hmem
  | some chain =>
    obtain ⟨n, hn, rfl⟩ := List.mem_map.mp ((hp.mem_keys_iff hchain).mp hmem)
    rw [setExisting_of_chain ctx mode _ value hchain]
    exact Chain.store_stored_of_mem mode value hn (hp.placed _ chain hchain n hn).1 hstored.rawEqual_self ctx p.dead

/-- A key for which no slot is found owns none. -/
theorem WellFormed.key_not_mem_setExisting (hp : p.WellFormed ctx.hash K) (hstored : IsStored key) {value : Value}
    (h : (p.setExisting ctx mode key value).2.1 = false) : key ∉ (p.setExisting ctx mode key value).1.keys := by
  intro hmem
  rw [keys_setExisting_of_eq_false h] at hmem
  rw [hp.setExisting_stored_of_mem hstored hmem] at h
  cases h

/-- The entries of one chain and the others, which the chain's key has no part in if no other is taken for it. -/
theorem WellFormed.exists_pairs_split (hp : p.WellFormed ctx.hash K) (hkey : Alone ctx.hash K key) {chain : Chain}
    (hchain : p.buckets[p.bucketOf (ctx.hash key)]? = some chain) :
    ∃ others : List (Value × Value), (∀ e ∈ others, e.1 ≠ key) ∧
      (∀ e, e ∈ p.pairs ↔ e ∈ chain.pairs ∨ e ∈ others) ∧
      ∀ (new : Chain) (nodes dead : Nat) (e : Value × Value),
        e ∈ pairs ⟨p.buckets.setIfInBounds (p.bucketOf (ctx.hash key)) new, nodes, dead⟩ ↔
          e ∈ new.pairs ∨ e ∈ others := by
  obtain ⟨before, behind, hnodes, hset⟩ := exists_nodeList_split hchain
  have happend (c : Chain) (e : Value × Value) : e ∈ Chain.pairs (before ++ c ++ behind) ↔
      e ∈ c.pairs ∨ e ∈ before.pairs ++ behind.pairs := by
    simp only [Chain.pairs, List.filterMap_append, List.mem_append]
    tauto
  refine ⟨before.pairs ++ behind.pairs, ?_, ?_, ?_⟩
  · rintro e he rfl
    have honce := hp.single e.1 hkey
    rw [keys, hnodes] at honce
    simp only [Chain.keys, List.map_append, List.count_append] at honce
    have hothers : e.1 ∈ before.keys ∨ e.1 ∈ behind.keys :=
      (List.mem_append.mp he).imp Chain.mem_keys_of_mem_pairs Chain.mem_keys_of_mem_pairs
    have hin : e.1 ∈ chain.keys := by
      rw [← hp.mem_keys_iff hchain, keys, hnodes]
      simp only [Chain.keys, List.map_append, List.mem_append] at hothers ⊢
      exact hothers.elim (fun h => .inl (.inl h)) .inr
    have hone := List.count_pos_iff.mpr hin
    rcases hothers with h | h
    · have hmore := List.count_pos_iff.mpr h
      simp only [Chain.keys] at hone hmore
      omega
    · have hmore := List.count_pos_iff.mpr h
      simp only [Chain.keys] at hone hmore
      omega
  · intro e
    rw [pairs, hnodes, happend]
  · intro new nodes dead e
    rw [pairs, hset, happend]

/-- The moments at which overwriting the entry of a key asks what has vanished. -/
def storeMoments (ctx : Context) (p : HashPart) (key : Value) : List Context :=
  Chain.storeMoments (ctx.hash key) key ctx (p.chainOf ctx key)

theorem storeMoments_everlasting (p : HashPart) {ctx : Context} (hlasting : ctx.Everlasting) (key : Value) :
    ∀ c ∈ storeMoments ctx p key, c.Everlasting := Chain.storeMoments_everlasting hlasting _ _ _

/-- Overwriting makes up no entry but that of the key, and leaves no other entry of the key behind. -/
theorem WellFormed.of_mem_pairs_setExisting (hp : p.WellFormed ctx.hash K) (hkey : Alone ctx.hash K key)
    {value : Value} {e : Value × Value} (he : e ∈ (p.setExisting ctx mode key value).1.pairs) :
    (e ∈ p.pairs ∧ e.1 ≠ key) ∨ (key ∈ p.keys ∧ value.isNil = false ∧ e = (key, value)) := by
  cases hchain : p.buckets[p.bucketOf (ctx.hash key)]? with
  | none =>
    rw [setExisting_of_empty ctx mode key value hchain] at he
    simp [pairs, nodeList_of_no_buckets (bucket_eq_none_iff.mp hchain), Chain.pairs] at he
  | some chain =>
    obtain ⟨others, hothers, hpairs, hset⟩ := hp.exists_pairs_split hkey hchain
    rw [setExisting_of_chain ctx mode key value hchain] at he
    have honce : chain.keys.count key ≤ 1 :=
      ((chain_keys_sublist hchain).count_le key).trans (hp.single key hkey)
    rw [hp.mem_keys_iff hchain, hpairs]
    rcases (hset _ _ _ _).mp he with hin | hout
    · rcases Chain.of_mem_pairs_store (hp.keyed hkey hchain) honce hin with hold | hnew
      · exact Or.inl ⟨Or.inl hold.1, hold.2⟩
      · exact Or.inr hnew
    · exact Or.inl ⟨Or.inr hout, hothers e hout⟩

/-- Overwriting leaves an entry alone whose objects exist at every moment of it, if its key is another one that none is
taken for. -/
theorem WellFormed.mem_pairs_setExisting_iff (hp : p.WellFormed ctx.hash K) (hkey : key ∈ K) (mode : WeakMode)
    (value : Value) {e : Value × Value} (halone : Alone ctx.hash K e.1) (hne : e.1 ≠ key)
    (hkept : e ∈ p.pairs → ∀ c ∈ storeMoments ctx p key, c.Keeps e) :
    e ∈ (p.setExisting ctx mode key value).1.pairs ↔ e ∈ p.pairs := by
  cases hchain : p.buckets[p.bucketOf (ctx.hash key)]? with
  | none => rw [setExisting_of_empty ctx mode key value hchain]
  | some chain =>
    obtain ⟨before, behind, hnodes, hset⟩ := exists_nodeList_split hchain
    have happend (c : Chain) : e ∈ Chain.pairs (before ++ c ++ behind) ↔
        (e ∈ before.pairs ∨ e ∈ c.pairs) ∨ e ∈ behind.pairs := by
      simp only [Chain.pairs, List.filterMap_append, List.mem_append]
    have hapart : ∀ n ∈ chain, n.slot.key = e.1 → ¬(n.hash == ctx.hash key && n.slot.holds key) = true := by
      intro n hn hsame
      rw [(hp.placed _ chain hchain n hn).1, Slot.holds, hsame]
      exact halone.not_belongs hkey hne
    rw [storeMoments, chainOf, hchain, Option.getD_some, pairs, hnodes, happend] at hkept
    rw [setExisting_of_chain ctx mode key value hchain, pairs, pairs, hset, hnodes, happend, happend,
      Chain.mem_pairs_store_iff mode value hapart hne p.dead fun he => hkept (.inl (.inr he))]

/-- The slot of the key takes the value. -/
theorem WellFormed.mem_pairs_setExisting_self (hp : p.WellFormed ctx.hash K) (hkey : Alone ctx.hash K key)
    (mode : WeakMode) {value : Value} (hvalue : value.isNil = false) (hmem : key ∈ p.keys) :
    (key, value) ∈ (p.setExisting ctx mode key value).1.pairs := by
  cases hchain : p.buckets[p.bucketOf (ctx.hash key)]? with
  | none =>
    rw [keys, nodeList_of_no_buckets (bucket_eq_none_iff.mp hchain)] at hmem
    cases hmem
  | some chain =>
    obtain ⟨others, -, -, hset⟩ := hp.exists_pairs_split hkey hchain
    rw [setExisting_of_chain ctx mode key value hchain]
    exact (hset _ _ _ _).mpr (Or.inl (Chain.mem_pairs_store_self mode hvalue (hp.keyed hkey hchain) p.dead
      ((hp.mem_keys_iff hchain).mp hmem)))

end SetExisting

section Insert

variable {ctx : Context} {K : Set Value} {p : HashPart} {mode : WeakMode} {key value : Value}

theorem buckets_size_insert (p : HashPart) (ctx : Context) (mode : WeakMode) (key value : Value) :
    (p.insert ctx mode key value).buckets.size = p.buckets.size := by
  simp [insert]

theorem nodes_insert (p : HashPart) (ctx : Context) (mode : WeakMode) (key value : Value) :
    (p.insert ctx mode key value).nodes = p.nodes + 1 := rfl

/-- Adding puts one live node among the others. -/
theorem nodeList_insert_perm (ctx : Context) (mode : WeakMode) (key value : Value) (hbuckets : 0 < p.buckets.size) :
    (p.insert ctx mode key value).nodeList.Perm (⟨ctx.hash key, .live mode key value⟩ :: p.nodeList) := by
  have hlt := bucketOf_lt hbuckets (ctx.hash key)
  obtain ⟨before, behind, hnodes, hset⟩ := exists_nodeList_split (Array.getElem?_eq_getElem hlt)
  have hinsert : (p.insert ctx mode key value).nodeList =
      before ++ (⟨ctx.hash key, .live mode key value⟩ :: p.buckets[p.bucketOf (ctx.hash key)]) ++ behind := by
    rw [← hset _ (p.nodes + 1) p.dead]
    simp only [insert]
    congr 2
  rw [hinsert, hnodes, List.append_assoc, List.append_assoc, List.cons_append]
  exact List.perm_middle

theorem keys_insert_perm (ctx : Context) (mode : WeakMode) (key value : Value) (hbuckets : 0 < p.buckets.size) :
    (p.insert ctx mode key value).keys.Perm (key :: p.keys) :=
  (nodeList_insert_perm ctx mode key value hbuckets).map fun n : Node => n.slot.key

theorem mem_pairs_insert (hbuckets : 0 < p.buckets.size) {e : Value × Value} :
    e ∈ (p.insert ctx mode key value).pairs ↔ e = (key, value) ∨ e ∈ p.pairs := by
  have hperm := (nodeList_insert_perm ctx mode key value hbuckets).filterMap
    (·.slot.pair?)
  rw [pairs, Chain.pairs, hperm.mem_iff]
  simp [Slot.pair?, pairs, Chain.pairs, eq_comm]

theorem WellFormed.insert (hp : p.WellFormed ctx.hash K) (mode : WeakMode) (value : Value)
    (hbuckets : 0 < p.buckets.size) (hkey : key ∈ K) (hnew : Alone ctx.hash K key → key ∉ p.keys) :
    (p.insert ctx mode key value).WellFormed ctx.hash K := by
  have hperm := nodeList_insert_perm ctx mode key value hbuckets
  have hkeys := keys_insert_perm ctx mode key value hbuckets
  refine ⟨by rw [buckets_size_insert]; exact hp.size, ?_, ?_, ?_, ?_, ?_⟩
  · intro i chain hchain n hn
    have hbucket : (p.insert ctx mode key value).bucketOf = p.bucketOf := by
      funext w
      simp only [bucketOf, buckets_size_insert]
    rw [hbucket]
    simp only [HashPart.insert, Array.getElem?_modify] at hchain
    split at hchain
    · rename_i hi
      obtain ⟨old, hold, rfl⟩ := Option.map_eq_some_iff.mp hchain
      obtain rfl | hn := List.mem_cons.mp hn
      · exact ⟨rfl, hi⟩
      · exact hp.placed i old hold n hn
    · exact hp.placed i chain hchain n hn
  · intro k hk
    obtain rfl | hk := List.mem_cons.mp (hkeys.mem_iff.mp hk)
    · exact hkey
    · exact hp.known k hk
  · intro k hk
    rw [hkeys.count_eq, List.count_cons]
    have honce := hp.single k hk
    split
    · rename_i hsame
      obtain rfl := beq_iff_eq.mp hsame
      rw [List.count_eq_zero_of_not_mem (hnew hk)]
    · exact honce
  · rw [nodes_insert, hp.nodes_eq, hperm.length_eq, List.length_cons]
  · rw [Chain.deadCount, hperm.countP_eq, List.countP_cons]
    exact hp.dead_eq

theorem Fits.insert (hfits : p.Fits mode) (hbuckets : 0 < p.buckets.size) (ctx : Context) (key : Value)
    (hvalue : value.isNil = false) : (p.insert ctx mode key value).Fits mode := by
  intro n hn
  obtain rfl | hn := List.mem_cons.mp ((nodeList_insert_perm ctx mode key value hbuckets).mem_iff.mp hn)
  · exact ⟨rfl, hvalue⟩
  · exact hfits n hn

end Insert

/-- The number of buckets is the least power of two with room for all entries. -/
theorem le_powerAbove (n : Nat) : n ≤ powerAbove n := by
  unfold powerAbove
  split
  · assumption
  · have hlt : n - 1 < 2 ^ (Nat.log2 (n - 1) + 1) := Nat.lt_log2_self
    change n ≤ 2 ^ _
    omega

theorem exists_powerAbove (n : Nat) : ∃ k, powerAbove n = 2 ^ k := by
  unfold powerAbove
  split
  · exact ⟨0, rfl⟩
  · exact ⟨_, rfl⟩

theorem buckets_size_empty (capacity : Nat) :
    (empty capacity).buckets.size = if capacity = 0 then 0 else powerAbove capacity := by
  unfold empty
  split <;> simp

@[simp] theorem nodeList_empty (capacity : Nat) : (empty capacity).nodeList = [] := by
  unfold empty nodeList
  split <;> simp

theorem wellFormed_empty (hash : Value → UInt64) (K : Set Value) (capacity : Nat) :
    (empty capacity).WellFormed hash K := by
  refine ⟨?_, ?_, by simp [keys, Chain.keys], by simp [keys, Chain.keys], by rw [nodeList_empty]; rfl,
    by rw [nodeList_empty]; rfl⟩
  · rw [buckets_size_empty]
    split
    · exact Or.inl rfl
    · exact Or.inr (exists_powerAbove capacity)
  · intro i chain hchain n hn
    have hmem : n ∈ (empty capacity).nodeList := mem_nodeList.mpr ⟨i, chain, hchain, hn⟩
    simp at hmem

theorem fits_empty (mode : WeakMode) (capacity : Nat) : (empty capacity).Fits mode := by simp [Fits]

end LuaMachine.Table.HashPart
