import LuaMachine.Proofs.Table.HashPart.Update

namespace LuaMachine.Table

namespace Chain

/-- The world behind a node that was drained. -/
def drained (ctx : Context) (n : Node) : Context :=
  match n.slot.entry? ctx with
  | some _ => ctx.take n.slot.weakValues
  | none => ctx.release n.slot.strongValues

theorem drained_everlasting {ctx : Context} (h : ctx.Everlasting) (n : Node) : (drained ctx n).Everlasting := by
  unfold drained
  split
  · exact h.take _
  · exact h.release _

/-- The moments at which draining asks what has vanished. -/
def drainMoments : Context → Chain → List Context
  | _, [] => []
  | ctx, n :: rest => ctx :: drainMoments (drained ctx n) rest

theorem drainMoments_everlasting {ctx : Context} (hlasting : ctx.Everlasting) (chain : Chain) :
    ∀ c ∈ drainMoments ctx chain, c.Everlasting := by
  induction chain generalizing ctx with
  | nil => simp [drainMoments]
  | cons n rest ih =>
    intro c hc
    obtain rfl | hc := List.mem_cons.mp hc
    · exact hlasting
    · exact ih (drained_everlasting hlasting n) c hc

/-- Draining takes out some of the entries, in order. -/
theorem exists_drain_eq (ctx : Context) (taken : List (Value × Value)) (chain : Chain) :
    ∃ found : List (Value × Value), found.Sublist chain.pairs ∧
      (drain ctx taken chain).2 = found.reverse ++ taken := by
  induction chain generalizing ctx taken with
  | nil => exact ⟨[], List.Sublist.refl _, rfl⟩
  | cons n rest ih =>
    rw [drain]
    cases hentry : n.slot.entry? ctx with
    | none =>
      obtain ⟨found, hsub, heq⟩ := ih (ctx.release n.slot.strongValues) taken
      have htail : (pairs rest).Sublist (pairs (n :: rest)) := by
        simp only [pairs, List.filterMap_cons]
        split
        · exact List.Sublist.refl _
        · exact List.sublist_cons_self _ _
      exact ⟨found, hsub.trans htail, heq⟩
    | some entry =>
      have hpair : n.slot.pair? = some entry := by
        rw [Slot.entry?_eq_ite] at hentry
        split at hentry
        · cases hentry
        · exact hentry
      obtain ⟨found, hsub, heq⟩ := ih (ctx.take n.slot.weakValues) (entry :: taken)
      refine ⟨entry :: found, ?_, ?_⟩
      · simpa [pairs, hpair] using hsub
      · simpa using heq

/-- Draining takes out every entry whose objects exist at every moment of it. -/
theorem mem_drain {ctx : Context} {taken : List (Value × Value)} {chain : Chain} {e : Value × Value}
    (he : e ∈ chain.pairs) (hkept : ∀ c ∈ drainMoments ctx chain, c.Keeps e) : e ∈ (drain ctx taken chain).2 := by
  induction chain generalizing ctx taken with
  | nil => cases he
  | cons n rest ih =>
    have hnext (taken : List (Value × Value)) (hrest : e ∈ pairs rest) :
        e ∈ (drain (drained ctx n) taken rest).2 := ih hrest fun c hc => hkept c (List.mem_cons_of_mem _ hc)
    rw [drain]
    rcases mem_pairs_cons.mp he with hself | hrest
    · have hentry : n.slot.entry? ctx = some e := by
        rw [Slot.entry?_eq_ite, Slot.isVanished_of_keeps hself (hkept ctx List.mem_cons_self), hself]
        rfl
      obtain ⟨found, -, heq⟩ := exists_drain_eq (ctx.take n.slot.weakValues) (e :: taken) rest
      rw [hentry]
      dsimp only
      rw [heq]
      simp
    · unfold drained at hnext
      cases hentry : n.slot.entry? ctx with
      | none => simpa only [hentry] using hnext taken hrest
      | some entry => simpa only [hentry] using hnext (entry :: taken) hrest

theorem drain_append (ctx : Context) (taken : List (Value × Value)) (c d : Chain) :
    drain ctx taken (c ++ d) = drain (drain ctx taken c).1 (drain ctx taken c).2 d := by
  induction c generalizing ctx taken with
  | nil => rfl
  | cons n rest ih =>
    rw [List.cons_append, drain, drain]
    split <;> exact ih _ _

end Chain

namespace HashPart

theorem drain_eq (ctx : Context) (p : HashPart) : p.drain ctx = (Chain.drain ctx [] p.nodeList).2.reverse := by
  have hfold (buckets : List Chain) (ctx : Context) (taken : List (Value × Value)) :
      buckets.foldl (fun (drained : Context × List (Value × Value)) chain =>
        Chain.drain drained.1 drained.2 chain) (ctx, taken) =
        Chain.drain ctx taken buckets.flatten := by
    induction buckets generalizing ctx taken with
    | nil => rfl
    | cons chain rest ih =>
      rw [List.foldl_cons, ih, List.flatten_cons, Chain.drain_append]
  rw [drain, ← Array.foldl_toList, hfold, nodeList]

theorem drain_sublist (ctx : Context) (p : HashPart) : (p.drain ctx).Sublist p.pairs := by
  obtain ⟨found, hsub, heq⟩ := Chain.exists_drain_eq ctx [] p.nodeList
  rw [drain_eq, heq]
  simpa [pairs] using hsub

/-- The moments at which emptying a hash part asks what has vanished. -/
def drainMoments (ctx : Context) (p : HashPart) : List Context := Chain.drainMoments ctx p.nodeList

theorem drainMoments_everlasting (p : HashPart) {ctx : Context} (hlasting : ctx.Everlasting) :
    ∀ c ∈ drainMoments ctx p, c.Everlasting := Chain.drainMoments_everlasting hlasting _

/-- Every entry is taken out whose objects exist at every moment of it. -/
theorem mem_drain {ctx : Context} {p : HashPart} {e : Value × Value} (he : e ∈ p.pairs)
    (hkept : ∀ c ∈ drainMoments ctx p, c.Keeps e) : e ∈ p.drain ctx := by
  rw [drain_eq, List.mem_reverse]
  exact Chain.mem_drain he hkept

theorem mem_drain_of_everlasting {ctx : Context} (hlasting : ctx.Everlasting) (p : HashPart) {e : Value × Value} :
    e ∈ p.drain ctx ↔ e ∈ p.pairs :=
  ⟨fun he => (drain_sublist ctx p).subset he,
    fun he => mem_drain he fun c hc => (p.drainMoments_everlasting hlasting c hc).keeps e⟩

/-- The keys of the entries are keys that own a slot, each at most once. -/
theorem map_fst_pairs_sublist (p : HashPart) : (p.pairs.map (·.1)).Sublist p.keys := by
  have hchain (chain : Chain) : ((Chain.pairs chain).map (·.1)).Sublist (Chain.keys chain) := by
    induction chain with
    | nil => exact List.Sublist.refl _
    | cons n rest ih =>
      cases hpair : n.slot.pair? with
      | none => simpa [Chain.pairs, hpair] using ih.cons n.slot.key
      | some e =>
        have hkey : e.1 = n.slot.key := Slot.pair?_fst hpair
        simpa [Chain.pairs, hpair, hkey] using ih.cons_cons n.slot.key
  exact hchain p.nodeList

/-- Adding entries one after the other, each key once that no other is taken for. -/
theorem foldl_insert_spec {ctx : Context} {K : Set Value} {mode : WeakMode} (entries : List (Value × Value))
    {p : HashPart} (hp : p.WellFormed ctx.hash K) (hfits : p.Fits mode)
    (hbuckets : entries ≠ [] → 0 < p.buckets.size) (hknown : ∀ e ∈ entries, e.1 ∈ K)
    (hlive : ∀ e ∈ entries, e.2.isNil = false)
    (hsingle : ∀ k, Alone ctx.hash K k → (entries.map (·.1)).count k + p.keys.count k ≤ 1) :
    let q := entries.foldl (fun part (key, v) => part.insert ctx mode key v) p
    q.WellFormed ctx.hash K ∧ q.Fits mode ∧ q.buckets.size = p.buckets.size ∧
      q.nodes = p.nodes + entries.length ∧ (∀ e, e ∈ q.pairs ↔ e ∈ entries ∨ e ∈ p.pairs) ∧
      ∀ k, k ∈ q.keys ↔ k ∈ entries.map (·.1) ∨ k ∈ p.keys := by
  induction entries generalizing p with
  | nil => simp [hp, hfits]
  | cons e rest ih =>
    have hpos := hbuckets (List.cons_ne_nil _ _)
    have hperm := keys_insert_perm ctx mode e.1 e.2 hpos
    have hkeys (k : Value) : k ∈ (p.insert ctx mode e.1 e.2).keys ↔ k = e.1 ∨ k ∈ p.keys := by
      rw [hperm.mem_iff, List.mem_cons]
    have hcount (k : Value) (hk : Alone ctx.hash K k) :
        (rest.map (·.1)).count k + (p.insert ctx mode e.1 e.2).keys.count k ≤ 1 := by
      have honce := hsingle k hk
      rw [hperm.count_eq, List.count_cons]
      rw [List.map_cons, List.count_cons] at honce
      omega
    have hinsert := hp.insert mode e.2 hpos (hknown e (by simp)) fun halone hmem => by
      have honce := hsingle e.1 halone
      have hmore := List.count_pos_iff.mpr hmem
      rw [List.map_cons, List.count_cons_self] at honce
      omega
    obtain ⟨hwf, hfit, hsize, hnodes, hpairs, hmem⟩ := ih hinsert (hfits.insert hpos ctx e.1 (hlive e (by simp)))
      (fun _ => by rw [buckets_size_insert]; exact hpos) (fun f hf => hknown f (by simp [hf]))
      (fun f hf => hlive f (by simp [hf])) hcount
    refine ⟨hwf, hfit, by rw [List.foldl_cons, hsize, buckets_size_insert], ?_, ?_, ?_⟩
    · rw [List.foldl_cons, hnodes, nodes_insert, List.length_cons]
      omega
    · intro f
      rw [List.foldl_cons, hpairs, mem_pairs_insert hpos, List.mem_cons]
      tauto
    · intro k
      rw [List.foldl_cons, hmem, hkeys, List.map_cons, List.mem_cons]
      tauto

end HashPart

end LuaMachine.Table
