import LuaMachine.Proofs.Table.Operations

namespace LuaMachine.Table

/-- The table after some operations, each in its own world. -/
def run (t : Table) (calls : List (Context × Op)) : Table :=
  calls.foldl (fun t (ctx, op) => op.apply ctx t) t

/-- The entries that some operations ask the table to store, in order. -/
def writes (t : Table) : List (Context × Op) → List (Value × Value)
  | [] => []
  | (ctx, op) :: calls => (op.write? ctx t).toList ++ writes (op.apply ctx t) calls

/-- The value stored last under a key, nil if there is none. -/
def lastStored (writes : List (Value × Value)) (key : Value) : Value :=
  ((writes.reverse.find? fun w => w.1 = key).map (·.2)).getD .nil

@[simp] theorem run_cons (t : Table) (ctx : Context) (op : Op) (calls : List (Context × Op)) :
    t.run ((ctx, op) :: calls) = (op.apply ctx t).run calls := rfl

variable {hash : Value → UInt64} {K : Set Value}

/-- Operations keep a table well formed, whatever vanishes between and during them. -/
theorem WellFormed.run {t : Table} (ht : t.WellFormed hash K)
    {calls : List (Context × Op)} (hhash : ∀ call ∈ calls, call.1.hash = hash)
    (hknown : ∀ w ∈ t.writes calls, w.1 ∈ K) : (t.run calls).WellFormed hash K := by
  induction calls generalizing t with
  | nil => exact ht
  | cons call calls ih =>
    obtain ⟨ctx, op⟩ := call
    obtain rfl : ctx.hash = hash := hhash (ctx, op) (by simp)
    have hnext := ht.apply op fun w hw => hknown w (by simp [writes, hw])
    exact ih hnext (fun c hc => hhash c (by simp [hc])) fun w hw => hknown w (by simp [writes, hw])

/-- Reading after operations gives the last of their writes, or else what was there before. -/
theorem WellFormed.get_run {t : Table} (ht : t.WellFormed hash K) (hK : Distinguished K)
    {calls : List (Context × Op)} (hworld : ∀ call ∈ calls, call.1.hash = hash ∧ call.1.Everlasting)
    (hknown : ∀ w ∈ t.writes calls, w.1 ∈ K) {ctx : Context} (hhash : ctx.hash = hash)
    (hlasting : ctx.Everlasting) {key : Value} (hkey : key ∈ K) :
    (t.run calls).get ctx key =
      (((t.writes calls).reverse.find? fun w => w.1 = key).map (·.2)).getD (t.get ctx key) := by
  induction calls generalizing t with
  | nil => rfl
  | cons call calls ih =>
    obtain ⟨now, op⟩ := call
    obtain ⟨rfl, hnow⟩ := hworld (now, op) (by simp)
    have hwrite : ∀ w, op.write? now t = some w → w.1 ∈ K := fun w hw => hknown w (by simp [writes, hw])
    have hnext := ht.apply op hwrite
    have hstep := ht.get_apply hK hnow op hwrite hkey
    have halone := (hK.separated now.hash).alone hkey
    rw [run_cons, ih hnext (fun c hc => hworld c (by simp [hc])) fun w hw => hknown w (by simp [writes, hw]),
      hnext.toSound.get_eq_get halone hnow hhash hlasting, hstep, ht.toSound.get_eq_get halone hnow hhash hlasting,
      writes, List.reverse_append, List.find?_append]
    have hone : (op.write? now t).toList.reverse = (op.write? now t).toList := by
      cases op.write? now t <;> rfl
    rw [hone]
    cases ((op.apply now t).writes calls).reverse.find? fun w => w.1 = key <;> rfl

/-- **A table is a finite map.** After any operations on a new table during which nothing vanishes, a key reads as
the value stored last under its stored form, and as nil if there was none. The hash function does not matter,
only that raw equality tells the keys apart. Nil and NaN are refused as keys, read as nil, and storing under
them leaves the table as it is. -/
theorem get_run_new (hash : Value → UInt64) {K : Set Value} (hK : Distinguished K) (arraySize hashSize : Nat)
    (calls : List (Context × Op)) (hworld : ∀ call ∈ calls, call.1.hash = hash ∧ call.1.Everlasting)
    (hknown : ∀ w ∈ (new arraySize hashSize).writes calls, w.1 ∈ K) (ctx : Context) (hhash : ctx.hash = hash)
    (hlasting : ctx.Everlasting) :
    let t := (new arraySize hashSize).run calls
    (∀ key stored, normalizeKey key = .ok stored → stored ∈ K →
      t.get ctx key = lastStored ((new arraySize hashSize).writes calls) stored) ∧
    (∀ value, t.set ctx .nil value = .error .nilKey) ∧
    (∀ (x : Double) value, x.value.isNaN = true → t.set ctx (.float x) value = .error .nanKey) ∧
    ∀ key e, normalizeKey key = .error e → t.get ctx key = .nil ∧
      ∀ value, t.set ctx key value = .error e ∧ (Op.set key value).apply ctx t = t := by
  have hnew := wellFormed_new hash K arraySize hashSize
  have hempty (key : Value) (hkey : key ∈ K) : (new arraySize hashSize).get ctx key = .nil := by
    subst hhash
    by_contra hne
    have hentry := (hnew.toSound.mem_pairs_iff ((hK.separated _).alone hkey) hlasting).mpr
      ⟨rfl, by rwa [← Bool.not_eq_true, Value.isNil_iff]⟩
    rw [pairs_new] at hentry
    cases hentry
  refine ⟨?_, fun value => rfl, ?_, ?_⟩
  · intro key stored hstored hkey
    rw [get_of_normalizeKey ctx _ hstored, hnew.get_run hK hworld hknown hhash hlasting hkey, hempty stored hkey]
    rfl
  · intro x value hnan
    rw [set, normalizeKey, if_pos hnan]
    rfl
  · intro key e he
    refine ⟨get_of_normalizeKey_error ctx _ he, fun value => ?_⟩
    have hset : set ctx ((new arraySize hashSize).run calls) key value = .error e := by simp [set, he, Except.map]
    exact ⟨hset, by simp [Op.apply, hset, Except.toOption]⟩

/-- With all keys in one chain: a key moves into the array part, another is overwritten, removed and stored
again, and the values become weak. -/
theorem get_run_new_one_chain :
    let ctx : Context := ⟨fun _ => 7, fun _ _ => true, {}⟩
    let calls : List (Context × Op) := [(ctx, .setStr "x" (.int 5)), (ctx, .set (.int 1) (.bool true)),
      (ctx, .set (.str "x") .nil), (ctx, .prune), (ctx, .setMode ⟨false, true⟩), (ctx, .setStr "x" (.int 6))]
    ((new 0 0).run calls).get ctx (.str "x") = .int 6 ∧ ((new 0 0).run calls).get ctx (.int 1) = .bool true := by
  intro ctx calls
  have hK : Distinguished {k | k = .int 1 ∨ k = .str "x"} := by
    refine ⟨?_, ?_, ?_⟩
    · rintro k (rfl | rfl) <;> rfl
    · rintro k (rfl | rfl) l (rfl | rfl) h <;> first | rfl | cases h
    · rintro k (rfl | rfl) <;> decide
  have hworld : ∀ call ∈ calls, call.1.hash = (fun _ => 7) ∧ call.1.Everlasting := by
    intro call hcall
    have hctx : call.1 = ctx := by
      simp only [calls, List.mem_cons, List.not_mem_nil, or_false] at hcall
      rcases hcall with rfl | rfl | rfl | rfl | rfl | rfl <;> rfl
    rw [hctx]
    exact ⟨rfl, fun _ _ => rfl⟩
  have hknown : ∀ w ∈ (new 0 0).writes calls, w.1 = .int 1 ∨ w.1 = .str "x" := by
    have hwrites : (new 0 0).writes calls =
        [(.str "x", .int 5), (.int 1, .bool true), (.str "x", .nil), (.str "x", .int 6)] := rfl
    simp [hwrites]
  have hmap := get_run_new (fun _ => 7) hK 0 0 calls hworld hknown ctx rfl fun _ _ => rfl
  refine ⟨?_, ?_⟩
  · exact hmap.1 (.str "x") (.str "x") rfl (Or.inr rfl)
  · exact hmap.1 (.int 1) (.int 1) rfl (Or.inl rfl)

end LuaMachine.Table
