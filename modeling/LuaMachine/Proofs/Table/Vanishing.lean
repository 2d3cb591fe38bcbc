import LuaMachine.Proofs.Table.History
import LuaMachine.Proofs.Table.Spine

namespace LuaMachine.Table

/-- What a table holds strongly: everything in its array part, and the strong parts of its slots. -/
def heldStrongly (t : Table) : Values := t.array.toList ++ t.part.nodeList.flatMap fun n => n.slot.strongValues

/-- The entry stored last under a key, unless it was removed or one of its objects no longer exists. -/
def remaining (now : Context) (writes : List (Value × Value)) (key : Value) : Option (Value × Value) :=
  (writes.reverse.find? fun w => w.1 = key).filter fun w => !w.2.isNil && decide (now.Keeps w)

section Listing

variable {ctx : Context} {t : Table} {e : Value × Value}

/-- An entry whose objects exist is listed. -/
theorem mem_entries_of_keeps (he : e ∈ t.pairs) (hkeeps : ctx.Keeps e) : e ∈ t.entries ctx := by
  rw [entries, List.mem_append]
  refine (mem_pairs.mp he).imp_right fun hpart => ?_
  obtain ⟨n, hn, hpair⟩ := List.mem_filterMap.mp hpart
  rw [HashPart.entries_eq]
  refine List.mem_filterMap.mpr ⟨n, hn, ?_⟩
  rw [Slot.entry?_eq_ite, Slot.isVanished_of_keeps hpair hkeeps]
  exact hpair

/-- The objects of an entry that a slot shows exist, if those exist that the slot holds strongly. -/
theorem Slot.keeps_of_entry? {s : Slot} (hentry : s.entry? ctx = some e)
    (hheld : ∀ v ∈ s.strongValues, ctx.present v = true) : ctx.Keeps e := by
  cases s with
  | dead key => cases hentry
  | live strength key value =>
    rw [Slot.entry?_eq_ite] at hentry
    split at hentry
    · cases hentry
    · rename_i hthere
      cases hentry
      simp only [Slot.isVanished, Bool.or_eq_true, Bool.and_eq_true, not_or, not_and, Bool.not_eq_true,
        Bool.not_eq_false'] at hthere
      refine ⟨?_, ?_⟩
      · cases hkeys : strength.keys with
        | true => exact hthere.1 hkeys
        | false => exact hheld key (by simp [Slot.strongValues, hkeys])
      · cases hvalues : strength.values with
        | true => exact hthere.2 hvalues
        | false => exact hheld value (by simp [Slot.strongValues, hvalues])

/-- The entries that are listed are those whose objects exist. -/
theorem mem_entries_iff_keeps (hheld : ∀ v ∈ t.heldStrongly, ctx.present v = true) :
    e ∈ t.entries ctx ↔ e ∈ t.pairs ∧ ctx.Keeps e := by
  constructor
  · intro he
    refine ⟨mem_pairs_of_mem_entries he, ?_⟩
    rw [entries, List.mem_append] at he
    rcases he with harray | hpart
    · obtain ⟨i, v, -, hget, -, rfl⟩ := mem_arrayEntries.mp harray
      refine ⟨rfl, hheld v (List.mem_append_left _ ?_)⟩
      exact List.mem_of_getElem? ((Array.getElem?_toList ..).trans hget)
    · rw [HashPart.entries_eq] at hpart
      obtain ⟨n, hn, hentry⟩ := List.mem_filterMap.mp hpart
      refine Slot.keeps_of_entry? hentry fun v hv => hheld v (List.mem_append_right _ ?_)
      exact List.mem_flatMap.mpr ⟨n, hn, hv⟩
  · rintro ⟨he, hkeeps⟩
    exact mem_entries_of_keeps he hkeeps

end Listing

/-- The moments at which some operations drop or pass over what has vanished, in order. -/
def moments (t : Table) : List (Context × Op) → List Context
  | [] => []
  | (ctx, op) :: calls => op.moments ctx t ++ moments (op.apply ctx t) calls

/-- Objects die at most once, and not while they are given to an operation: what an operation was given and exists
`now` has existed at every moment since. -/
def DieOnce (now : Context) (t : Table) : List (Context × Op) → Prop
  | [] => True
  | (ctx, op) :: calls =>
    (∀ w ∈ op.write? ctx t, ∀ v ∈ [w.1, w.2], now.present v = true →
      ∀ c ∈ t.moments ((ctx, op) :: calls), c.present v = true) ∧
    DieOnce now (op.apply ctx t) calls

instance decidableDieOnce (now : Context) :
    (t : Table) → (calls : List (Context × Op)) → Decidable (DieOnce now t calls)
  | _, [] => .isTrue trivial
  | t, (ctx, op) :: calls =>
    have := decidableDieOnce now (op.apply ctx t) calls
    inferInstanceAs (Decidable (_ ∧ _))

section Step

variable {ctx : Context} {K : Set Value} {t : Table} {e : Value × Value}

/-- Rebuilding adds no entry. -/
theorem Sound.pairs_rehash_subset (ht : t.Sound ctx.hash K) {extra : Option Value}
    (he : e ∈ (t.rehash ctx extra).pairs) : e ∈ t.pairs :=
  mem_pairs.mpr ((ht.of_mem_pairs_rehash he).imp_right fun h => (HashPart.drain_sublist ctx t.part).subset h)

/-- Rebuilding keeps an entry whose objects exist at every moment of it. -/
theorem Sound.mem_pairs_rehash_of_keeps (ht : t.Sound ctx.hash K) (halone : Alone ctx.hash K e.1) (extra : Option Value)
    (hkept : e ∈ t.pairs → ∀ c ∈ t.part.drainMoments ctx, c.Keeps e) :
    e ∈ (t.rehash ctx extra).pairs ↔ e ∈ t.pairs := by
  constructor
  · exact ht.pairs_rehash_subset
  · intro he
    refine ht.mem_pairs_rehash_of_alone halone ((mem_pairs.mp he).imp_right fun h => ?_)
    exact HashPart.mem_drain h (hkept he)

/-- An operation that stores under no key but one that no other is taken for adds no other entry. -/
theorem WellFormed.of_mem_pairs_apply (ht : t.WellFormed ctx.hash K) {op : Op}
    (halone : ∀ w, op.write? ctx t = some w → Alone ctx.hash K w.1) (he : e ∈ (op.apply ctx t).pairs) :
    e ∈ t.pairs ∨ (op.write? ctx t = some e ∧ e.2.isNil = false) := by
  have hstore {world : Context} (hhash : world.hash = ctx.hash) {key value : Value}
      (hwrite : op.write? ctx t = some (key, value)) (he : e ∈ (t.setNormal world key value).pairs) :
      e ∈ t.pairs ∨ (op.write? ctx t = some e ∧ e.2.isNil = false) := by
    have ht' : t.WellFormed world.hash K := hhash ▸ ht
    rcases ht'.of_mem_pairs_setNormal (hhash ▸ halone _ hwrite) he with ⟨hold, -⟩ | ⟨hvalue, rfl⟩
    · exact .inl hold
    · exact .inr ⟨hwrite, hvalue⟩
  cases op.does ctx t with
  | nothing _ happly | removesNothing _ _ happly _ => exact .inl (by rwa [happly] at he)
  | stores hwrite happly _ =>
    rw [happly] at he
    exact hstore (Context.take_hash ..) hwrite he
  | @rebuilds mode _ happly _ =>
    rw [happly] at he
    exact .inl ((ht.toSound.withMode mode).pairs_rehash_subset he)

/-- A key that reads as nil has no entry whose objects exist. -/
theorem Sound.ne_of_get_isNil (ht : t.Sound ctx.hash K) {key : Value} (halone : Alone ctx.hash K e.1)
    (hnil : (t.get ctx key).isNil = true) (he : e ∈ t.pairs) (hkeeps : ctx.Keeps e) : key ≠ e.1 := by
  rintro rfl
  obtain ⟨hget, hlive⟩ := (ht.mem_entries_iff halone).mp (mem_entries_of_keeps he hkeeps)
  rw [hget, hlive] at hnil
  cases hnil

/-- What becomes of an entry whose objects exist at every moment of an operation, if it was there: it is replaced if
the operation stores under its key, and stays otherwise. No other key may be taken for its. -/
theorem WellFormed.mem_pairs_apply (ht : t.WellFormed ctx.hash K) (op : Op)
    (hknown : ∀ w, op.write? ctx t = some w → w.1 ∈ K) (halone : Alone ctx.hash K e.1)
    (hkept : e ∈ t.pairs → ∀ c ∈ op.moments ctx t, c.Keeps e) :
    e ∈ (op.apply ctx t).pairs ↔
      (e ∈ t.pairs ∧ ∀ w, op.write? ctx t = some w → w.1 ≠ e.1) ∨
        (op.write? ctx t = some e ∧ e.2.isNil = false) := by
  have hstore {world : Context} (hhash : world.hash = ctx.hash) {key value : Value}
      (hwrite : op.write? ctx t = some (key, value))
      (hkept : e ∈ t.pairs → ∀ c ∈ t.storeMoments world key value, c.Keeps e) :
      e ∈ (t.setNormal world key value).pairs ↔
        (e ∈ t.pairs ∧ ∀ w, op.write? ctx t = some w → w.1 ≠ e.1) ∨
          (op.write? ctx t = some e ∧ e.2.isNil = false) := by
    have ht' : t.WellFormed world.hash K := hhash ▸ ht
    rw [ht'.mem_pairs_setNormal (op.isStored_of_write? hwrite) (hknown _ hwrite) value (hhash ▸ halone) hkept, hwrite]
    simp only [Option.some.injEq, forall_eq', ne_comm (a := key)]
    constructor
    · exact Or.imp_right fun ⟨hvalue, he⟩ => ⟨he.symm, by rw [he]; exact hvalue⟩
    · exact Or.imp_right fun ⟨he, hvalue⟩ => ⟨by rw [← he] at hvalue; exact hvalue, he.symm⟩
  cases op.does ctx t with
  | nothing hwrite happly => simp [hwrite, happly]
  | @removesNothing key hwrite hnil happly hmoment =>
    -- the key has no entry, or one that vanished before
    have hother (he : e ∈ t.pairs) : key ≠ e.1 :=
      ht.toSound.ne_of_get_isNil halone hnil he (hkept he ctx hmoment)
    rw [happly, hwrite]
    simp only [Option.some.injEq, forall_eq']
    constructor
    · exact fun he => .inl ⟨he, hother he⟩
    · rintro (⟨he, -⟩ | ⟨rfl, hvalue⟩)
      · exact he
      · cases hvalue
  | stores hwrite happly hmoments =>
    rw [happly]
    exact hstore (Context.take_hash ..) hwrite fun he c hc => hkept he c (hmoments c hc)
  | @rebuilds mode hwrite happly hmoments =>
    have hrehash : e ∈ (rehash ctx { t with mode } none).pairs ↔ e ∈ t.pairs :=
      (ht.toSound.withMode mode).mem_pairs_rehash_of_keeps halone none fun he c hc => hkept he c (hmoments c hc)
    rw [happly, hwrite, hrehash]
    simp

end Step

section Run

variable {hash : Value → UInt64} {K : Set Value} {now : Context}

/-- An entry whose objects exist `now` is there after operations if it is the last one that they stored under its key,
or was there before and they stored nothing under its key. -/
theorem WellFormed.mem_pairs_run {t : Table} (ht : t.WellFormed hash K) (hK : Distinguished K)
    {calls : List (Context × Op)} (hhash : ∀ call ∈ calls, call.1.hash = hash)
    (hknown : ∀ w ∈ t.writes calls, w.1 ∈ K) (hdie : DieOnce now t calls)
    (hold : ∀ e ∈ t.pairs, now.Keeps e → ∀ c ∈ t.moments calls, c.Keeps e) {e : Value × Value}
    (hkeeps : now.Keeps e) :
    e ∈ (t.run calls).pairs ↔
      match (t.writes calls).reverse.find? fun w => w.1 = e.1 with
      | none => e ∈ t.pairs
      | some w => w = e ∧ e.2.isNil = false := by
  induction calls generalizing t with
  | nil => rfl
  | cons call calls ih =>
    obtain ⟨ctx, op⟩ := call
    obtain rfl : ctx.hash = hash := hhash (ctx, op) (by simp)
    have hwrite : ∀ w, op.write? ctx t = some w → w.1 ∈ K := fun w hw => hknown w (by simp [writes, hw])
    have hstep {e : Value × Value} (hkeeps : now.Keeps e) : e ∈ (op.apply ctx t).pairs ↔
        (e ∈ t.pairs ∧ ∀ w, op.write? ctx t = some w → w.1 ≠ e.1) ∨
          (op.write? ctx t = some e ∧ e.2.isNil = false) := by
      by_cases hkey : e.1 ∈ K
      · exact ht.mem_pairs_apply op hwrite ((hK.separated _).alone hkey)
          fun he c hc => hold e he hkeeps c (List.mem_append_left _ hc)
      · refine iff_of_false (fun he => hkey ((ht.apply op hwrite).of_mem_pairs he).1) ?_
        rintro (⟨he, -⟩ | ⟨he, -⟩)
        · exact hkey (ht.of_mem_pairs he).1
        · exact hkey (hwrite e he)
    -- what was given to the operation and exists now has existed ever since
    have hnext : ∀ f ∈ (op.apply ctx t).pairs, now.Keeps f →
        ∀ c ∈ (op.apply ctx t).moments calls, c.Keeps f := by
      intro f hf hf' c hc
      have hc' : c ∈ t.moments ((ctx, op) :: calls) := List.mem_append_right _ hc
      rcases (hstep hf').mp hf with ⟨hbefore, -⟩ | ⟨hgiven, -⟩
      · exact hold f hbefore hf' c hc'
      · exact ⟨hdie.1 f hgiven f.1 (by simp) hf'.1 c hc', hdie.1 f hgiven f.2 (by simp) hf'.2 c hc'⟩
    rw [run_cons, ih (ht.apply op hwrite) (fun c hc => hhash c (by simp [hc]))
      (fun w hw => hknown w (by simp [writes, hw])) hdie.2 hnext, writes, List.reverse_append, List.find?_append]
    cases ((op.apply ctx t).writes calls).reverse.find? fun w => w.1 = e.1 with
    | some w => rfl
    | none =>
      dsimp only
      rw [hstep hkeeps]
      cases hgiven : op.write? ctx t with
      | none => simp
      | some w =>
        by_cases hkey : w.1 = e.1
        · simp [hkey]
        · have hne : w ≠ e := fun heq => hkey (by rw [heq])
          simp [hkey, hne]

theorem remaining_eq_some {writes : List (Value × Value)} {key v : Value} :
    remaining now writes key = some (key, v) ↔
      (writes.reverse.find? fun w => w.1 = key) = some (key, v) ∧ v.isNil = false ∧ now.Keeps (key, v) := by
  rw [remaining, Option.filter_eq_some_iff]
  simp

theorem remaining_fst {writes : List (Value × Value)} {key : Value} {e : Value × Value}
    (h : remaining now writes key = some e) : e.1 = key := by
  rw [remaining, Option.filter_eq_some_iff] at h
  simpa using List.find?_some h.1

/-- A key that is not among those stored under has no entry, though an array part may have a place for it. -/
theorem Sound.entryOf_of_notMem {ctx : Context} {t : Table} (ht : t.Sound hash K) {key : Value}
    (hspine : key ∈ t.spine) (hkey : key ∉ K) : t.entryOf ctx key = none := by
  rcases mem_spine.mp hspine with hplace | hslot
  · obtain ⟨i, hi⟩ := Option.isSome_iff_exists.mp hplace
    obtain ⟨hsize, hmax, rfl⟩ := arrayIndex?_eq_some.mp hi
    have hget := Array.getElem?_eq_getElem hsize
    rw [entryOf_placeKey hget hmax, if_pos]
    by_contra hlive
    exact hkey (ht.places i _ hget (by simpa using hlive)).2
  · exact absurd (ht.part.known key hslot) hkey

/-- The entry of a key after operations on a new table. -/
theorem entryOf_run_new (hK : Distinguished K) (arraySize hashSize : Nat) {calls : List (Context × Op)}
    (hhash : ∀ call ∈ calls, call.1.hash = now.hash)
    (hknown : ∀ w ∈ (new arraySize hashSize).writes calls, w.1 ∈ K)
    (hdie : DieOnce now (new arraySize hashSize) calls)
    (hheld : ∀ v ∈ ((new arraySize hashSize).run calls).heldStrongly, now.present v = true) {key : Value}
    (hkey : key ∈ K) :
    ((new arraySize hashSize).run calls).entryOf now key =
      remaining now ((new arraySize hashSize).writes calls) key := by
  set t := (new arraySize hashSize).run calls with ht
  have hnew := wellFormed_new now.hash K arraySize hashSize
  have hsound : t.Sound now.hash K := (hnew.run hhash hknown).toSound
  have hsome (v : Value) : t.entryOf now key = some (key, v) ↔
      remaining now ((new arraySize hashSize).writes calls) key = some (key, v) := by
    rw [entryOf_eq_some, ← hsound.mem_entries_iff ((hK.separated _).alone hkey), mem_entries_iff_keeps hheld,
      remaining_eq_some]
    have hlast (hkeeps : now.Keeps (key, v)) : (key, v) ∈ t.pairs ↔
        ((new arraySize hashSize).writes calls).reverse.find? (fun w => w.1 = key) = some (key, v) ∧
          v.isNil = false := by
      rw [ht, hnew.mem_pairs_run hK hhash hknown hdie (by simp [pairs_new]) hkeeps, pairs_new]
      cases ((new arraySize hashSize).writes calls).reverse.find? fun w => w.1 = key <;> simp
    constructor
    · rintro ⟨he, hkeeps⟩
      obtain ⟨hwritten, hlive⟩ := (hlast hkeeps).mp he
      exact ⟨hwritten, hlive, hkeeps⟩
    · rintro ⟨hwritten, hlive, hkeeps⟩
      exact ⟨(hlast hkeeps).mpr ⟨hwritten, hlive⟩, hkeeps⟩
  apply Option.ext
  rintro ⟨k, v⟩
  constructor
  · intro h
    obtain rfl : k = key := entryOf_fst h
    exact (hsome v).mp h
  · intro h
    obtain rfl : k = key := remaining_fst h
    exact (hsome v).mpr h

/-- **A weak table loses exactly what died.** After any operations on a new table, in any weak modes, while objects die
between and during them, once each and not while the table holds them or an operation is given them: a key reads as the
value stored last under it if that was not nil and key and value still exist, and as nil otherwise. The entries that
are listed are these, in the order of the spine, on which every key with an entry stands once; and a step of a
traversal goes from a key to the first one behind it that still has its entry. -/
theorem remaining_run_new (hash : Value → UInt64) {K : Set Value} (hK : Distinguished K) (arraySize hashSize : Nat)
    (calls : List (Context × Op)) (hhash : ∀ call ∈ calls, call.1.hash = hash)
    (hknown : ∀ w ∈ (new arraySize hashSize).writes calls, w.1 ∈ K) (now : Context) (hnow : now.hash = hash)
    (hdie : DieOnce now (new arraySize hashSize) calls)
    (hheld : ∀ v ∈ ((new arraySize hashSize).run calls).heldStrongly, now.present v = true) :
    let t := (new arraySize hashSize).run calls
    let left := remaining now ((new arraySize hashSize).writes calls)
    (∀ key stored, normalizeKey key = .ok stored → stored ∈ K →
      t.get now key = ((left stored).map (·.2)).getD .nil) ∧
    t.entries now = t.spine.filterMap left ∧ t.spine.Nodup ∧ (∀ key, (left key).isSome → key ∈ t.spine) ∧
    t.next now .nil = .ok (t.spine.filterMap left).head? ∧
    ∀ before key behind, t.spine = before ++ key :: behind → t.next now key = .ok (behind.filterMap left).head? := by
  subst hnow
  intro t left
  have ht : t.Sound now.hash K := ((wellFormed_new now.hash K arraySize hashSize).run hhash hknown).toSound
  have hwritten {key : Value} (h : (left key).isSome) : key ∈ K := by
    obtain ⟨e, he⟩ := Option.isSome_iff_exists.mp h
    obtain rfl := remaining_fst he
    have hlast := (Option.filter_eq_some_iff.mp he).1
    exact hknown e (List.mem_reverse.mp (List.mem_of_find?_eq_some hlast))
  have hentry {key : Value} (hkey : key ∈ K) : t.entryOf now key = left key :=
    entryOf_run_new hK arraySize hashSize hhash hknown hdie hheld hkey
  have hspine {key : Value} (hmem : key ∈ t.spine) : t.entryOf now key = left key := by
    by_cases hkey : key ∈ K
    · exact hentry hkey
    · rw [ht.entryOf_of_notMem hmem hkey]
      exact (Option.not_isSome_iff_eq_none.mp fun h => hkey (hwritten h)).symm
  have halong {keys : List Value} (hsub : ∀ key ∈ keys, key ∈ t.spine) :
      keys.filterMap (t.entryOf now) = keys.filterMap left :=
    List.filterMap_congr fun key hkey => hspine (hsub key hkey)
  refine ⟨?_, ?_, ht.nodup_spine hK, ?_, ?_, ?_⟩
  · intro key stored hstored hkey
    rw [get_of_normalizeKey now t hstored, ← hentry hkey, entryOf]
    cases hnil : (t.get now stored).isNil with
    | true => exact Value.isNil_iff.mp hnil
    | false => rfl
  · rw [ht.entries_eq_filterMap_spine hK, halong fun key hkey => hkey]
  · intro key hsome
    have hkey := hwritten hsome
    rw [← hentry hkey] at hsome
    refine ht.mem_spine_of_get hK hkey ?_
    by_contra hnil
    rw [entryOf, if_pos (by simpa using hnil)] at hsome
    cases hsome
  · rw [ht.next_nil hK, halong fun key hkey => hkey]
  · intro before key behind hsplit
    rw [ht.next_eq hK hsplit, halong fun other hother => by rw [hsplit]; simp [hother]]

/-- With all keys in one chain: a key and a value die, the slot of the key is reclaimed by a write through the chain,
and the last entry is there before and after everything moves. -/
theorem remaining_run_new_one_chain :
    let before : Context := ⟨fun _ => 7, fun _ _ => true, {}⟩
    let after : Context := ⟨fun _ => 7, fun _ r => r != .table ⟨3⟩ && r != .table ⟨4⟩, {}⟩
    let calls : List (Context × Op) := [(before, .setMode ⟨true, true⟩), (before, .setStr "x" (.table ⟨4⟩)),
      (before, .set (.table ⟨3⟩) (.int 1)), (before, .setStr "y" (.table ⟨5⟩)), (after, .setStr "x" .nil),
      (after, .setStr "x" (.table ⟨5⟩)), (after, .prune), (after, .setMode ⟨false, true⟩)]
    let t := (new 0 0).run calls
    t.get after (.str "x") = .table ⟨5⟩ ∧ t.get after (.table ⟨3⟩) = .nil ∧ t.get after (.str "y") = .table ⟨5⟩ := by
  intro before after calls t
  have hK : Distinguished {k : Value | k = .str "x" ∨ k = .str "y" ∨ k = .table ⟨3⟩} := by
    refine ⟨?_, ?_, ?_⟩
    · rintro k (rfl | rfl | rfl) <;> rfl
    · rintro k (rfl | rfl | rfl) l (rfl | rfl | rfl) h <;> first | rfl | cases h
    · rintro k (rfl | rfl | rfl) <;> decide
  have hknown : ∀ w ∈ (new 0 0).writes calls, w.1 = .str "x" ∨ w.1 = .str "y" ∨ w.1 = .table ⟨3⟩ := by
    decide +kernel
  have hdie : DieOnce after (new 0 0) calls := by decide +kernel
  have hheld : ∀ v ∈ t.heldStrongly, after.present v = true := by decide +kernel
  have hleft := remaining_run_new (fun _ => 7) hK 0 0 calls (by simp [calls, before, after]) hknown after rfl hdie hheld
  refine ⟨?_, ?_, ?_⟩
  · rw [hleft.1 (.str "x") (.str "x") rfl (Or.inl rfl)]
    decide +kernel
  · rw [hleft.1 (.table ⟨3⟩) (.table ⟨3⟩) rfl (Or.inr (Or.inr rfl))]
    decide +kernel
  · rw [hleft.1 (.str "y") (.str "y") rfl (Or.inr (Or.inl rfl))]
    decide +kernel

end Run

end LuaMachine.Table
