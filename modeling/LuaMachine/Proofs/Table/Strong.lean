import LuaMachine.Proofs.Table.Update
import LuaMachine.Table.Hash

namespace LuaMachine.Table

theorem Context.everlasting_strong (hash : Value → UInt64) : (strong hash).Everlasting := fun _ _ => rfl

/-- What a slot holds, key and value, cannot vanish. -/
theorem Slot.Fits.isVanished {s : Slot} (h : s.Fits .strong) (ctx : Context) : s.isVanished ctx = false := by
  cases s with
  | live strength key value =>
    obtain ⟨rfl, -⟩ := h
    rfl
  | dead key => rfl

namespace Chain

variable {chain : Chain}

/-- Storing under a key goes the same way in every world. -/
theorem store_of_strong (hfits : ∀ n ∈ chain, n.slot.Fits .strong) (mode : WeakMode) (h : UInt64) (key value : Value)
    (c ctx : Context) (dead : Nat) :
    store mode h key value ctx dead chain = { store mode h key value c dead chain with context := ctx } := by
  induction chain with
  | nil => rfl
  | cons n rest ih =>
    have hlive (world : Context) : reclaim world dead n = (n, dead, world) := by
      rw [reclaim, (hfits n List.mem_cons_self).isVanished world, if_neg Bool.false_ne_true]
    have hrest := ih fun m hm => hfits m (List.mem_cons_of_mem n hm)
    rw [store_cons, store_cons, hlive, hlive]
    dsimp only at hrest ⊢
    rw [hrest]
    split <;> rfl

/-- Draining takes every entry out. -/
theorem drain_of_strong (hfits : ∀ n ∈ chain, n.slot.Fits .strong) (ctx : Context) (taken : List (Value × Value)) :
    (drain ctx taken chain).2 = chain.pairs.reverse ++ taken := by
  induction chain generalizing ctx taken with
  | nil => rfl
  | cons n rest ih =>
    have hrest (ctx : Context) (taken : List (Value × Value)) :=
      ih (fun m hm => hfits m (List.mem_cons_of_mem n hm)) ctx taken
    rw [drain, Slot.entry?_eq_ite, (hfits n List.mem_cons_self).isVanished ctx, if_neg Bool.false_ne_true, pairs,
      List.filterMap_cons]
    cases n.slot.pair? with
    | none => exact hrest _ taken
    | some entry => simpa [pairs] using hrest _ (entry :: taken)

end Chain

namespace HashPart

variable {p : HashPart}

theorem drain_of_strong (hfits : p.Fits .strong) (ctx : Context) : p.drain ctx = p.pairs := by
  rw [drain_eq, Chain.drain_of_strong hfits, List.append_nil, List.reverse_reverse, pairs]

theorem entries_of_strong (hfits : p.Fits .strong) (ctx : Context) : p.entries ctx = p.pairs := by
  rw [entries_eq, pairs, Chain.entries, Chain.pairs]
  exact List.filterMap_congr fun n hn => by
    rw [Slot.entry?_eq_ite, (hfits n hn).isVanished ctx, if_neg Bool.false_ne_true]

/-- Overwriting goes the same way in every world. -/
theorem setExisting_of_strong (hfits : p.Fits .strong) {c ctx : Context} (hhash : c.hash = ctx.hash) (mode : WeakMode)
    (key value : Value) : p.setExisting ctx mode key value =
      ((p.setExisting c mode key value).1, (p.setExisting c mode key value).2.1, ctx) := by
  cases hchain : p.buckets[p.bucketOf (ctx.hash key)]? with
  | none => rw [setExisting_of_empty ctx mode key value hchain, setExisting_of_empty c mode key value (hhash ▸ hchain)]
  | some chain =>
    have hchainFits : ∀ n ∈ chain, n.slot.Fits .strong := fun n hn =>
      hfits n (mem_nodeList.mpr ⟨_, chain, hchain, hn⟩)
    rw [setExisting_of_chain ctx mode key value hchain, setExisting_of_chain c mode key value (hhash ▸ hchain),
      Chain.store_of_strong hchainFits mode _ key value c ctx, hhash]

theorem insert_congr {c ctx : Context} (hhash : c.hash = ctx.hash) : insert ctx = insert c := by
  funext p mode key value
  simp only [insert, hhash]

end HashPart

section Storing

variable {c ctx : Context} {K : Set Value} {t : Table}

/-- Rebuilding goes the same way in every world. -/
theorem rehash_of_strong (hfits : t.part.Fits .strong) (hhash : c.hash = ctx.hash) (extra : Option Value) :
    t.rehash ctx extra = t.rehash c extra := by
  simp only [rehash, HashPart.drain_of_strong hfits, HashPart.insert_congr hhash]

/-- Making room for a key goes the same way in every world. -/
theorem grown_of_strong (hfits : t.part.Fits .strong) (hhash : c.hash = ctx.hash) (key : Value) :
    grown ctx t key = grown c t key := by
  have hgrow : t.mustGrow ctx key = t.mustGrow c key := by
    rw [mustGrow, mustGrow, HashPart.chainOf, HashPart.chainOf, hhash]
  rw [grown, grown, hgrow, rehash_of_strong hfits hhash]

/-- Adding a key goes the same way in every world. -/
theorem insertNew_of_strong (hfits : t.part.Fits .strong) (hhash : c.hash = ctx.hash) (key value : Value) :
    t.insertNew ctx key value = t.insertNew c key value := by
  rw [insertNew_eq, insertNew_eq, grown_of_strong hfits hhash, HashPart.insert_congr hhash]

/-- Storing goes the same way in every world. -/
theorem setNormal_of_strong (hfits : t.part.Fits t.mode) (hmode : t.mode = .strong) (hhash : c.hash = ctx.hash)
    (key value : Value) : t.setNormal ctx key value = t.setNormal c key value := by
  cases hplace : t.arrayIndex? key with
  | some i => rw [setNormal_of_place hplace, setNormal_of_place hplace]
  | none =>
    have hstrong : t.part.Fits .strong := hmode ▸ hfits
    have hworld : (t.part.setExisting c t.mode key value).2.2 = c :=
      congrArg (·.2.2) (HashPart.setExisting_of_strong hstrong (rfl : c.hash = c.hash) t.mode key value)
    have hset : (t.part.setExisting c t.mode key value).1.Fits .strong := hmode ▸ hfits.setExisting c key value
    rw [setNormal_of_no_place ctx value hplace, setNormal_of_no_place c value hplace,
      HashPart.setExisting_of_strong hstrong hhash]
    dsimp only
    rw [hworld, insertNew_of_strong hset hhash]

/-- Storing in a table that holds all it has replaces the entry of its key. -/
theorem WellFormed.mem_pairs_setNormal_of_strong (ht : t.WellFormed ctx.hash K) (hK : Separated ctx.hash K)
    {key : Value} (hkey : key ∈ K) (hmode : t.mode = .strong) (value : Value) {e : Value × Value} :
    e ∈ (t.setNormal ctx key value).pairs ↔ (e ∈ t.pairs ∧ e.1 ≠ key) ∨ (value.isNil = false ∧ e = (key, value)) := by
  have hhash : (Context.strong ctx.hash).hash = ctx.hash := rfl
  have hlasting : t.WellFormed (Context.strong ctx.hash).hash K := ht
  have hstored := hK.stored key hkey
  rw [setNormal_of_strong ht.fits hmode hhash]
  by_cases hknown : e.1 ∈ K
  · exact hlasting.mem_pairs_setNormal_of_everlasting hstored hkey (Context.everlasting_strong ctx.hash) value
      (hK.alone hknown)
  · refine iff_of_false (fun he => hknown ((hlasting.setNormal hstored hkey value).of_mem_pairs he).1) ?_
    rintro (⟨he, -⟩ | ⟨-, rfl⟩)
    · exact hknown (ht.of_mem_pairs he).1
    · exact hknown hkey

end Storing

end LuaMachine.Table
