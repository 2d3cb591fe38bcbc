import LuaMachine.Proofs.Table.Chain

namespace LuaMachine.Table.HashPart

/-- The nodes of all chains in traversal order. -/
def nodeList (p : HashPart) : Chain := p.buckets.toList.flatten

/-- The keys that own a slot, dead or alive, in traversal order. -/
def keys (p : HashPart) : List Value := p.nodeList.keys

/-- The entries, those included whose objects vanished. -/
def pairs (p : HashPart) : List (Value × Value) := p.nodeList.pairs

/-- The hashes and keys of all nodes, chain by chain. -/
def labels (p : HashPart) : List (List (UInt64 × Value)) := p.buckets.toList.map Chain.labels

/-- Every live slot holds as strongly as the mode asks for. -/
def Fits (mode : WeakMode) (p : HashPart) : Prop := ∀ n ∈ p.nodeList, n.slot.Fits mode

/-- Each node caches the hash of its key and stands in the bucket of that hash; no key owns two slots that no other
key is taken for; and the counters are exact. -/
structure WellFormed (hash : Value → UInt64) (K : Set Value) (p : HashPart) : Prop where
  size : p.buckets.size = 0 ∨ ∃ k, p.buckets.size = 2 ^ k
  placed : ∀ i chain, p.buckets[i]? = some chain →
    ∀ n ∈ chain, n.hash = hash n.slot.key ∧ p.bucketOf n.hash = i
  known : ∀ k ∈ p.keys, k ∈ K
  single : ∀ k, Alone hash K k → p.keys.count k ≤ 1
  nodes_eq : p.nodes = p.nodeList.length
  dead_eq : p.dead = p.nodeList.deadCount

theorem mem_nodeList {p : HashPart} {n : Node} :
    n ∈ p.nodeList ↔ ∃ (i : Nat) (chain : Chain), p.buckets[i]? = some chain ∧ n ∈ chain := by
  simp only [nodeList, List.mem_flatten, Array.mem_toList_iff, Array.mem_iff_getElem?]
  constructor
  · rintro ⟨chain, ⟨i, hi⟩, hn⟩
    exact ⟨i, chain, hi, hn⟩
  · rintro ⟨i, chain, hi, hn⟩
    exact ⟨chain, ⟨i, hi⟩, hn⟩

theorem keys_eq_labels (p : HashPart) : p.keys = (p.labels.flatten).map (·.2) := by
  simp [keys, labels, nodeList, Chain.keys, Chain.labels, List.map_flatten, Function.comp_def]

theorem length_nodeList_eq (p : HashPart) : p.nodeList.length = p.labels.flatten.length := by
  simp [labels, nodeList, Chain.labels, List.length_flatten, Function.comp_def]

theorem size_eq_labels (p : HashPart) : p.buckets.size = p.labels.length := by simp [labels]

theorem entries_eq (ctx : Context) (p : HashPart) : p.entries ctx = Chain.entries ctx p.nodeList := by
  simp [entries, nodeList, Chain.entries, List.filterMap_flatten, List.flatMap_def]

theorem mem_keys_of_mem_pairs {p : HashPart} {e : Value × Value} (h : e ∈ p.pairs) : e.1 ∈ p.keys :=
  Chain.mem_keys_of_mem_pairs h

theorem entries_of_everlasting {ctx : Context} (hlasting : ctx.Everlasting) (p : HashPart) :
    p.entries ctx = p.pairs := by
  simp only [entries_eq, Chain.entries, pairs, Chain.pairs, Slot.entry?_of_everlasting hlasting]

/-- Where hash and raw equality tell the known keys apart, none owns two slots. -/
theorem WellFormed.nodup {hash : Value → UInt64} {K : Set Value} {p : HashPart} (hp : p.WellFormed hash K)
    (hK : Separated hash K) : p.keys.Nodup := by
  rw [List.nodup_iff_count_le_one]
  intro k
  by_cases hk : k ∈ p.keys
  · exact hp.single k (hK.alone (hp.known k hk))
  · exact (List.count_eq_zero_of_not_mem hk).trans_le (Nat.zero_le 1)

/-- A key that no other is taken for owns no more slots after labels have changed. -/
theorem count_le_of_relabels {hash : Value → UInt64} {K : Set Value} {key k : Value} (hk : Alone hash K k)
    {before after : List (UInt64 × Value)} (h : List.Forall₂ (Chain.Relabels (hash key) key) before after)
    (hplaced : ∀ l ∈ before, l.1 = hash l.2 ∧ l.2 ∈ K) :
    (after.map (·.2)).count k ≤ (before.map (·.2)).count k := by
  induction h with
  | nil => exact Nat.le_refl _
  | @cons l l' before after hl _ ih =>
    have hrest := ih fun m hm => hplaced m (List.mem_cons_of_mem l hm)
    have hhead : l'.2 = k → l.2 = k := by
      rintro rfl
      obtain ⟨hhash, hknown⟩ := hplaced l List.mem_cons_self
      rcases hl with rfl | ⟨hsame, hequal, rfl⟩
      · rfl
      · exact hk.eq_of_rawEqual l.2 hknown (hhash.symm.trans hsame) hequal
    simp only [List.map_cons, List.count_cons, beq_iff_eq]
    split
    · rename_i hnew
      rw [if_pos (hhead hnew)]
      omega
    · omega

/-- The label of a node in a chain is one of those of the part. -/
theorem WellFormed.of_mem_labels {hash : Value → UInt64} {K : Set Value} {p : HashPart} (hp : p.WellFormed hash K)
    {l : UInt64 × Value} (hl : l ∈ p.labels.flatten) : l.1 = hash l.2 ∧ l.2 ∈ K := by
  have hkey : l.2 ∈ p.keys := by
    rw [keys_eq_labels]
    exact List.mem_map.mpr ⟨l, hl, rfl⟩
  obtain ⟨labels, hlabels, hmem⟩ := List.mem_flatten.mp hl
  obtain ⟨chain, hchain, rfl⟩ := List.mem_map.mp hlabels
  obtain ⟨n, hn, rfl⟩ := List.mem_map.mp hmem
  obtain ⟨i, hi⟩ := Array.mem_iff_getElem?.mp (Array.mem_toList_iff.mp hchain)
  exact ⟨(hp.placed i chain hi n hn).1, hp.known _ hkey⟩

/-- A part keeps its form under a change that labels nodes anew with a key that they were taken for, and leaves the
counters exact. -/
theorem WellFormed.of_relabels {hash : Value → UInt64} {K : Set Value} {p q : HashPart} {key : Value}
    (hp : p.WellFormed hash K) (hkey : key ∈ K)
    (hlabels : List.Forall₂ (List.Forall₂ (Chain.Relabels (hash key) key)) p.labels q.labels)
    (hnodes : q.nodes = p.nodes) (hdead : q.dead = q.nodeList.deadCount) : q.WellFormed hash K := by
  have hflat := List.rel_flatten hlabels
  have hsize : q.buckets.size = p.buckets.size := by
    rw [size_eq_labels, size_eq_labels, hlabels.length_eq]
  have hknown {l : UInt64 × Value} (hl : l ∈ q.labels.flatten) : l.1 = hash l.2 ∧ l.2 ∈ K := by
    obtain ⟨old, hold, rfl | ⟨-, -, rfl⟩⟩ := Chain.exists_relabels hflat hl
    · exact hp.of_mem_labels hold
    · exact ⟨rfl, hkey⟩
  refine ⟨hsize ▸ hp.size, ?_, ?_, ?_, ?_, hdead⟩
  · intro i chain hchain n hn
    obtain ⟨hi, rfl⟩ := Array.getElem?_eq_some_iff.mp hchain
    have hi' : i < p.buckets.size := hsize ▸ hi
    have hmem : (n.hash, n.slot.key) ∈ q.labels.flatten :=
      List.mem_flatten.mpr ⟨_, List.mem_map.mpr ⟨_, by simp, rfl⟩, Chain.mem_labels hn⟩
    have hchains : List.Forall₂ (Chain.Relabels (hash key) key) (Chain.labels p.buckets[i])
        (Chain.labels q.buckets[i]) := by
      have hget := hlabels.get (i := i) (by simpa [labels] using hi') (by simpa [labels] using hi)
      simpa [labels] using hget
    obtain ⟨_, hold, hlabel⟩ := Chain.exists_relabels hchains (Chain.mem_labels hn)
    obtain ⟨m, hm, rfl⟩ := List.mem_map.mp hold
    have hbucket := (hp.placed i _ (Array.getElem?_eq_getElem hi') m hm).2
    have hsame : n.hash = m.hash := hlabel.fst_eq
    exact ⟨(hknown hmem).1, by simpa only [bucketOf, hsize, hsame] using hbucket⟩
  · intro k hk
    rw [keys_eq_labels] at hk
    obtain ⟨l, hl, rfl⟩ := List.mem_map.mp hk
    exact (hknown hl).2
  · intro k hk
    have hcount := count_le_of_relabels hk hflat fun l hl => hp.of_mem_labels hl
    rw [keys_eq_labels]
    exact hcount.trans (keys_eq_labels p ▸ hp.single k hk)
  · rw [hnodes, hp.nodes_eq, length_nodeList_eq, length_nodeList_eq, hflat.length_eq]

theorem bucketOf_lt {p : HashPart} (h : 0 < p.buckets.size) (w : UInt64) : p.bucketOf w < p.buckets.size :=
  Nat.mod_lt _ h

/-- Replacing one chain replaces its stretch of the nodes. -/
theorem exists_nodeList_split {p : HashPart} {i : Nat} {chain : Chain} (h : p.buckets[i]? = some chain) :
    ∃ before behind : Chain, p.nodeList = before ++ chain ++ behind ∧
      ∀ (new : Chain) (nodes dead : Nat),
        nodeList ⟨p.buckets.setIfInBounds i new, nodes, dead⟩ = before ++ new ++ behind := by
  obtain ⟨hi, hget⟩ := Array.getElem?_eq_some_iff.mp h
  refine ⟨(p.buckets.toList.take i).flatten, (p.buckets.toList.drop (i + 1)).flatten, ?_, ?_⟩
  · have hsplit : p.buckets.toList = p.buckets.toList.take i ++ chain :: p.buckets.toList.drop (i + 1) := by
      rw [← hget, ← Array.getElem_toList, List.getElem_cons_drop, List.take_append_drop]
    have hflat := congrArg List.flatten hsplit
    simpa only [nodeList, List.flatten_append, List.flatten_cons, List.append_assoc] using hflat
  · intro new nodes dead
    simp [nodeList, List.set_eq_take_append_cons_drop, hi]

section Chains

variable {ctx : Context} {K : Set Value} {p : HashPart} {key : Value}

/-- In the bucket of a key that no other is taken for, exactly its node is taken for it. -/
theorem WellFormed.keyed (hp : p.WellFormed ctx.hash K) (hkey : Alone ctx.hash K key) {i : Nat} {chain : Chain}
    (hchain : p.buckets[i]? = some chain) : Chain.Keyed (ctx.hash key) key chain := by
  intro n hn
  obtain ⟨hhash, -⟩ := hp.placed i chain hchain n hn
  have hknown : n.slot.key ∈ K :=
    hp.known _ (List.mem_map.mpr ⟨n, mem_nodeList.mpr ⟨i, chain, hchain, hn⟩, rfl⟩)
  rw [hhash]
  exact hkey.belongs_iff hknown

/-- A key's node stands in the key's bucket. -/
theorem WellFormed.mem_bucket (hp : p.WellFormed ctx.hash K) {chain : Chain}
    (hchain : p.buckets[p.bucketOf (ctx.hash key)]? = some chain) {n : Node} (hn : n ∈ p.nodeList)
    (hkey : n.slot.key = key) : n ∈ chain := by
  obtain ⟨i, own, hown, hmem⟩ := mem_nodeList.mp hn
  obtain ⟨hhash, hbucket⟩ := hp.placed i own hown n hmem
  rw [← hkey, ← hhash, hbucket, hown] at hchain
  cases hchain
  exact hmem

/-- The keys of one chain are among all keys, in order. -/
theorem chain_keys_sublist {i : Nat} {chain : Chain} (hchain : p.buckets[i]? = some chain) :
    chain.keys.Sublist p.keys := by
  obtain ⟨before, behind, hnodes, -⟩ := exists_nodeList_split hchain
  rw [keys, hnodes, List.append_assoc]
  exact ((List.sublist_append_left _ _).trans (List.sublist_append_right _ _)).map _

/-- Only one node has a key that no other is taken for. -/
theorem WellFormed.eq_of_key {hash : Value → UInt64} (hp : p.WellFormed hash K) (hkey : Alone hash K key) {n m : Node}
    (hn : n ∈ p.nodeList) (hm : m ∈ p.nodeList) (hnkey : n.slot.key = key) (hmkey : m.slot.key = key) : n = m := by
  by_contra hne
  obtain ⟨nodes, hperm, hsub⟩ : [n, m].Subperm p.nodeList :=
    List.subperm_of_subset (by simpa using hne) (by simp [hn, hm])
  have htwo : ([n, m].map fun n : Node => n.slot.key).count key = 2 := by simp [hnkey, hmkey]
  have hcount := (hsub.map fun n : Node => n.slot.key).count_le key
  rw [(hperm.map _).count_eq, htwo] at hcount
  exact absurd (hcount.trans (hp.single key hkey)) (by decide)

/-- A key owns a slot exactly if there is one in its bucket. -/
theorem WellFormed.mem_keys_iff (hp : p.WellFormed ctx.hash K) {chain : Chain}
    (hchain : p.buckets[p.bucketOf (ctx.hash key)]? = some chain) : key ∈ p.keys ↔ key ∈ chain.keys := by
  simp only [keys, Chain.keys, List.mem_map]
  constructor
  · rintro ⟨n, hn, hkey⟩
    exact ⟨n, hp.mem_bucket hchain hn hkey, hkey⟩
  · rintro ⟨n, hn, hkey⟩
    exact ⟨n, mem_nodeList.mpr ⟨_, chain, hchain, hn⟩, hkey⟩

/-- Looking up a key that no other is taken for finds the entry in its slot, if that has one. -/
theorem WellFormed.get?_eq_some_iff (hp : p.WellFormed ctx.hash K) (hkey : Alone ctx.hash K key) {v : Value} :
    p.get? ctx key = some v ↔ (key, v) ∈ p.entries ctx := by
  rw [entries_eq]
  simp only [Chain.entries, List.mem_filterMap]
  cases hchain : p.buckets[p.bucketOf (ctx.hash key)]? with
  | none =>
    have hempty : p.buckets.size = 0 := by
      by_contra hne
      have hlt := bucketOf_lt (Nat.pos_of_ne_zero hne) (ctx.hash key)
      rw [Array.getElem?_eq_none_iff] at hchain
      omega
    have hnone : p.nodeList = [] := by simp [nodeList, Array.eq_empty_of_size_eq_zero hempty]
    simp [get?, chainOf, hchain, hnone, Chain.find?]
  | some chain =>
    have hkeyed := hp.keyed hkey hchain
    have hget : p.get? ctx key = (chain.find? (ctx.hash key) key).bind fun n => n.slot.entry? ctx |>.map (·.2) := by
      simp [get?, chainOf, hchain]
    rw [hget]
    constructor
    · intro h
      obtain ⟨n, hfind, hentry⟩ := Option.bind_eq_some_iff.mp h
      obtain ⟨⟨k, w⟩, hpair, hw⟩ := Option.map_eq_some_iff.mp hentry
      obtain ⟨hn, hslot⟩ := hkeyed.find?_eq_some hfind
      have hk : k = n.slot.key := Slot.entry?_fst hpair
      cases hw
      exact ⟨n, mem_nodeList.mpr ⟨_, chain, hchain, hn⟩, by rw [hpair, hk, hslot]⟩
    · rintro ⟨n, hn, hentry⟩
      have hslot : n.slot.key = key := (Slot.entry?_fst hentry).symm
      have hmem : n ∈ chain := hp.mem_bucket hchain hn hslot
      have honly : ∀ m ∈ chain, m.slot.key = key → m = n := fun m hm hmkey =>
        hp.eq_of_key hkey (mem_nodeList.mpr ⟨_, chain, hchain, hm⟩) hn hmkey hslot
      simp [hkeyed.find?_of_mem honly hmem hslot, hentry]

/-- What looking up a key finds stands under a key that is taken for it. -/
theorem WellFormed.exists_of_get? (hp : p.WellFormed ctx.hash K) {v : Value} (hget : p.get? ctx key = some v) :
    ∃ k, ctx.hash k = ctx.hash key ∧ k.rawEqual key = true ∧ (k, v) ∈ p.entries ctx := by
  obtain ⟨n, hfind, hentry⟩ := Option.bind_eq_some_iff.mp hget
  obtain ⟨⟨k, w⟩, hpair, rfl⟩ := Option.map_eq_some_iff.mp hentry
  obtain rfl : k = n.slot.key := Slot.entry?_fst hpair
  unfold Chain.find? at hfind
  have hbelongs := List.find?_some hfind
  have hmem := List.mem_of_find?_eq_some hfind
  rw [Bool.and_eq_true, beq_iff_eq] at hbelongs
  cases hchain : p.buckets[p.bucketOf (ctx.hash key)]? with
  | none =>
    rw [chainOf, hchain] at hmem
    cases hmem
  | some chain =>
    rw [chainOf, hchain] at hmem
    refine ⟨n.slot.key, (hp.placed _ chain hchain n hmem).1.symm.trans hbelongs.1, hbelongs.2, ?_⟩
    rw [entries_eq]
    exact List.mem_filterMap.mpr ⟨n, mem_nodeList.mpr ⟨_, chain, hchain, hmem⟩, hpair⟩

end Chains

end LuaMachine.Table.HashPart
