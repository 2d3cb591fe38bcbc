import LuaMachine.Proofs.Table.Alone
import LuaMachine.Proofs.Table.History

namespace LuaMachine.Table

/-- What can be done to a table: one of its operations, or another metatable with the mode that it asks for. -/
inductive Change
  | operate (op : Op)
  | setMetatable (metatable : Option TableId) (mode : WeakMode)

namespace Change

/-- The table after a change. -/
def apply (ctx : Context) (t : Table) : Change → Table
  | operate op => op.apply ctx t
  | setMetatable metatable mode => setMode ctx { t with metatable } mode

/-- The entry that a change asks the table to store. -/
def write? (ctx : Context) (t : Table) : Change → Option (Value × Value)
  | operate op => op.write? ctx t
  | setMetatable .. => none

end Change

/-- The table after some changes, each in its own world. -/
def changed (t : Table) (changes : List (Context × Change)) : Table :=
  changes.foldl (fun t (ctx, change) => change.apply ctx t) t

/-- The keys that some changes ask the table to store under, in order. -/
def keysWritten (t : Table) : List (Context × Change) → List Value
  | [] => []
  | (ctx, change) :: changes =>
    ((change.write? ctx t).map (·.1)).toList ++ keysWritten (change.apply ctx t) changes

@[simp] theorem changed_cons (t : Table) (ctx : Context) (change : Change) (changes : List (Context × Change)) :
    t.changed ((ctx, change) :: changes) = (change.apply ctx t).changed changes := rfl

/-- A change stores under keys in stored form only. -/
theorem Change.isStored_of_write? {ctx : Context} {t : Table} (change : Change) {w : Value × Value}
    (h : change.write? ctx t = some w) : IsStored w.1 := by
  cases change with
  | operate op => exact op.isStored_of_write? h
  | setMetatable => cases h

theorem isStored_of_mem_keysWritten {t : Table} {changes : List (Context × Change)} {key : Value}
    (h : key ∈ t.keysWritten changes) : IsStored key := by
  induction changes generalizing t with
  | nil => cases h
  | cons call changes ih =>
    obtain ⟨ctx, change⟩ := call
    rcases List.mem_append.mp h with hhead | htail
    · obtain ⟨w, hw, rfl⟩ := Option.map_eq_some_iff.mp (Option.mem_toList.mp hhead)
      exact change.isStored_of_write? hw
    · exact ih htail

section WellFormed

variable {hash : Value → UInt64} {K : Set Value} {t : Table}

/-- Whether a table is well formed does not depend on its metatable. -/
theorem WellFormed.withMetatable (ht : t.WellFormed hash K) (metatable : Option TableId) :
    WellFormed hash K { t with metatable } :=
  ⟨⟨ht.part, fun k hk => (arrayIndex?_congr rfl k).trans (ht.outside k hk), ht.live, ht.places⟩, ht.fits, ht.load,
    ht.noArray⟩

/-- A change keeps a table well formed, whatever vanishes meanwhile. -/
theorem WellFormed.change {ctx : Context} (ht : t.WellFormed ctx.hash K) (change : Change)
    (hknown : ∀ w, change.write? ctx t = some w → w.1 ∈ K) : (change.apply ctx t).WellFormed ctx.hash K := by
  cases change with
  | operate op => exact ht.apply op hknown
  | setMetatable metatable mode =>
    exact (ht.withMetatable metatable).apply (.setMode mode) fun w hw => nomatch hw

/-- Changes keep a table well formed, whatever vanishes between and during them. -/
theorem WellFormed.changed (ht : t.WellFormed hash K) {changes : List (Context × Change)}
    (hhash : ∀ call ∈ changes, call.1.hash = hash) (hknown : ∀ key ∈ t.keysWritten changes, key ∈ K) :
    (t.changed changes).WellFormed hash K := by
  induction changes generalizing t with
  | nil => exact ht
  | cons call changes ih =>
    obtain ⟨ctx, change⟩ := call
    obtain rfl : ctx.hash = hash := hhash (ctx, change) (by simp)
    have hnext := ht.change change fun w hw => hknown w.1 (by simp [keysWritten, hw])
    exact ih hnext (fun c hc => hhash c (by simp [hc])) fun key hkey => hknown key (by simp [keysWritten, hkey])

end WellFormed

/-- The layout of a table, for a hash function. -/
structure Layout (hash : Value → UInt64) (t : Table) : Prop where
  /-- There are no buckets, or a power of two of them. -/
  buckets : t.part.buckets.size = 0 ∨ ∃ k, t.part.buckets.size = 2 ^ k
  /-- Each node caches the hash of its key and stands in the bucket of that hash. -/
  placed : ∀ i chain, t.part.buckets[i]? = some chain → ∀ n ∈ chain,
    n.hash = hash n.slot.key ∧ i = n.hash.toNat % t.part.buckets.size
  /-- No slot belongs to a place of the array part. -/
  outside : ∀ n ∈ t.part.nodeList, ∀ i : Int64, n.slot.key = .int i → ¬(1 ≤ i.toInt ∧ i.toInt ≤ t.array.size)
  /-- The number of nodes is exact. -/
  nodes : t.part.nodes = t.part.nodeList.length
  /-- There are at most two nodes for each bucket. -/
  load : t.part.nodes ≤ 2 * t.part.buckets.size
  /-- The number of dead slots is exact, so it is not zero when one of them is used again. -/
  dead : t.deadSlots = t.part.nodeList.countP fun n => n.slot.isDead
  /-- Every live slot holds as strongly as the mode of the table asks for. -/
  strength : ∀ n ∈ t.part.nodeList, ∀ strength key value, n.slot = .live strength key value → strength = t.mode
  /-- Weak values are never in the array part. -/
  noArray : t.mode.values = true → t.array.size = 0

theorem WellFormed.layout {hash : Value → UInt64} {K : Set Value} {t : Table} (ht : t.WellFormed hash K) :
    t.Layout hash where
  buckets := ht.part.size
  placed := by
    intro i chain hchain n hn
    obtain ⟨hhash, hbucket⟩ := ht.part.placed i chain hchain n hn
    exact ⟨hhash, hbucket.symm⟩
  outside := by
    intro n hn i hkey hrange
    have hnone := ht.outside n.slot.key (List.mem_map.mpr ⟨n, hn, rfl⟩)
    rw [hkey, arrayIndex?, if_pos hrange] at hnone
    cases hnone
  nodes := ht.part.nodes_eq
  load := ht.load
  dead := ht.part.dead_eq
  strength := by
    intro n hn strength key value hslot
    have hfits := ht.fits n hn
    rw [hslot] at hfits
    exact hfits.1
  noArray := ht.noArray

section Counting

variable (ctx : Context)

theorem length_arrayEntries (array : Array Value) :
    (arrayEntries array 0).length = array.toList.countP fun v => !v.isNil := by
  have hcount (values : List Value) (start : Nat) :
      ((values.zipIdx start).filterMap fun e =>
        if e.1.isNil then none else some (Value.int (Int64.ofNat e.2), e.1)).length =
        values.countP fun v => !v.isNil := by
    induction values generalizing start with
    | nil => rfl
    | cons v rest ih =>
      rw [List.zipIdx_cons, List.filterMap_cons, List.countP_cons]
      cases hnil : v.isNil <;> simp [ih]
  exact hcount array.toList 1

/-- The entries of a table are those of its hash part and the places of its array part that are not nil. -/
theorem length_entries (t : Table) :
    (t.entries ctx).length = t.hashLength ctx + t.array.toList.countP fun v => !v.isNil := by
  rw [entries, List.length_append, length_arrayEntries, hashLength]
  exact Nat.add_comm _ _

/-- A node holds an entry, or its slot is dead or has vanished. -/
theorem Chain.length_entries (chain : Chain) : (chain.entries ctx).length + chain.countP (·.slot.isDead) +
    chain.countP (·.slot.isVanished ctx) = chain.length := by
  induction chain with
  | nil => rfl
  | cons n rest ih =>
    rw [Chain.entries, List.filterMap_cons, List.countP_cons, List.countP_cons, List.length_cons, ← ih]
    cases hslot : n.slot with
    | dead key => simp [Slot.entry?, Slot.isDead, Slot.isVanished, Chain.entries]; omega
    | live strength key value =>
      cases hvanished : (Slot.live strength key value).isVanished ctx <;>
        simp [Slot.entry?, Slot.isDead, hvanished, Chain.entries] <;> omega

/-- Nodes are entries, dead slots and slots that vanished. -/
theorem Layout.nodes_eq {hash : Value → UInt64} {t : Table} (ht : t.Layout hash) :
    t.part.nodes = t.hashLength ctx + t.deadSlots + t.part.nodeList.countP fun n => n.slot.isVanished ctx := by
  rw [ht.nodes, ht.dead, hashLength, HashPart.entries_eq]
  exact (Chain.length_entries ctx t.part.nodeList).symm

/-- There are no more entries than places and nodes. -/
theorem WellFormed.length_entries_le {hash : Value → UInt64} {K : Set Value} {t : Table} (ht : t.WellFormed hash K) :
    (t.entries ctx).length ≤ t.array.size + t.part.nodes := by
  have hplaces : (t.array.toList.countP fun v => !v.isNil) ≤ t.array.toList.length := List.countP_le_length
  rw [Array.length_toList] at hplaces
  rw [length_entries, ht.layout.nodes_eq ctx]
  omega

end Counting

end LuaMachine.Table
