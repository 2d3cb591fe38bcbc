import LuaMachine.Proofs.Table.Spine
import LuaMachine.Proofs.Table.Update

namespace LuaMachine

section Arrays

variable {α : Type} {p : α → Prop} {xs : Array α}

theorem forall_getD (h : ∀ x ∈ xs, p x) {d : α} (hd : p d) (i : Nat) : p (xs[i]?.getD d) := by
  cases hget : xs[i]? with
  | none => exact hd
  | some x => exact h x (Array.mem_of_getElem? hget)

theorem forall_setIfInBounds (h : ∀ x ∈ xs, p x) (i : Nat) {y : α} (hy : p y) : ∀ x ∈ xs.setIfInBounds i y, p x := by
  intro x hx
  obtain ⟨j, hj⟩ := Array.mem_iff_getElem?.mp hx
  rw [Array.getElem?_setIfInBounds] at hj
  split at hj
  · split at hj
    · cases hj
      exact hy
    · cases hj
  · exact h x (Array.mem_of_getElem? hj)

theorem forall_modify (h : ∀ x ∈ xs, p x) (i : Nat) {f : α → α} (hf : ∀ x, p x → p (f x)) :
    ∀ x ∈ xs.modify i f, p x := by
  intro x hx
  obtain ⟨j, hj⟩ := Array.mem_iff_getElem?.mp hx
  rw [Array.getElem?_modify] at hj
  split at hj
  · obtain ⟨y, hy, rfl⟩ := Option.map_eq_some_iff.mp hj
    exact hf y (h y (Array.mem_of_getElem? hy))
  · exact h x (Array.mem_of_getElem? hj)

theorem forall_push (h : ∀ x ∈ xs, p x) {y : α} (hy : p y) : ∀ x ∈ xs.push y, p x := by
  intro x hx
  obtain hx | rfl := Array.mem_push.mp hx
  · exact h x hx
  · exact hy

end Arrays

namespace Table

variable {P : Value → Prop}

/-- The key of a slot has a property, and so has its value if it is live. -/
def Slot.All (P : Value → Prop) : Slot → Prop
  | .live _ key value => P key ∧ P value
  | .dead key => P key

theorem Slot.All.key {s : Slot} (h : s.All P) : P s.key := by
  cases s with
  | live => exact h.1
  | dead => exact h

theorem Slot.All.of_pair {s : Slot} (h : s.All P) {e : Value × Value} (he : s.pair? = some e) : P e.1 ∧ P e.2 := by
  cases s with
  | live =>
    cases he
    exact h
  | dead => cases he

theorem Slot.All.of_entry {s : Slot} (h : s.All P) {ctx : Context} {e : Value × Value} (he : s.entry? ctx = some e) :
    P e.1 ∧ P e.2 := by
  rw [Slot.entry?_eq_ite] at he
  split at he
  · cases he
  · exact h.of_pair he

/-- The slots of all nodes of a chain have a property. -/
def Chain.All (P : Value → Prop) (chain : Chain) : Prop := ∀ n ∈ chain, n.slot.All P

namespace Chain

theorem All.of_pairs {chain : Chain} (h : chain.All P) {e : Value × Value} (he : e ∈ chain.pairs) : P e.1 ∧ P e.2 := by
  obtain ⟨n, hn, hpair⟩ := List.mem_filterMap.mp he
  exact (h n hn).of_pair hpair

theorem All.of_first {chain : Chain} (h : chain.All P) {ctx : Context} {e : Value × Value}
    (he : chain.first? ctx = some e) : P e.1 ∧ P e.2 := by
  obtain ⟨n, hn, hentry⟩ := List.exists_of_findSome?_eq_some he
  exact (h n hn).of_entry hentry

theorem All.after {chain rest : Chain} (h : chain.All P) {hash : UInt64} {key : Value}
    (hrest : chain.after? hash key = some rest) : rest.All P := by
  induction chain with
  | nil => cases hrest
  | cons n chain ih =>
    have htail : Chain.All P chain := fun n hn => h n (by simp [hn])
    rw [after?] at hrest
    split at hrest
    · cases hrest
      exact htail
    · exact ih htail hrest

theorem all_reclaim {n : Node} (h : n.slot.All P) (ctx : Context) (dead : Nat) :
    (reclaim ctx dead n).1.slot.All P := by
  unfold reclaim
  split
  · exact h.key
  · exact h

theorem all_overwrite {s : Slot} (h : s.All P) {key value : Value} (hkey : P key) (hvalue : P value) (mode : WeakMode)
    (dead : Nat) : (overwrite mode key value dead s).1.All P := by
  unfold overwrite
  split
  · exact h.key
  · cases s with
    | live => exact ⟨h.1, hvalue⟩
    | dead => exact h
  · exact h
  · exact ⟨hkey, hvalue⟩

theorem All.store {chain : Chain} (h : chain.All P) {key value : Value} (hkey : P key) (hvalue : P value)
    (mode : WeakMode) (hash : UInt64) (ctx : Context) (dead : Nat) :
    (Chain.store mode hash key value ctx dead chain).chain.All P := by
  induction chain generalizing ctx dead with
  | nil => exact h
  | cons n rest ih =>
    have hfirst := all_reclaim (h n (by simp)) ctx dead
    have hrest : Chain.All P rest := fun n hn => h n (by simp [hn])
    rw [store_cons]
    dsimp only
    split
    · exact List.forall_mem_cons.mpr ⟨all_overwrite hfirst hkey hvalue mode _, hrest⟩
    · exact List.forall_mem_cons.mpr ⟨hfirst, ih hrest _ _⟩

end Chain

namespace HashPart

variable {p : HashPart}

/-- The slots of all nodes have a property. -/
def All (P : Value → Prop) (p : HashPart) : Prop := p.nodeList.All P

theorem All.chain (h : p.All P) {i : Nat} {chain : Chain} (hchain : p.buckets[i]? = some chain) : chain.All P :=
  fun n hn => h n (mem_nodeList.mpr ⟨i, chain, hchain, hn⟩)

theorem all_iff_buckets : p.All P ↔ ∀ chain ∈ p.buckets, Chain.All P chain := by
  constructor
  · intro h chain hchain
    obtain ⟨i, hi⟩ := Array.mem_iff_getElem?.mp hchain
    exact h.chain hi
  · intro h n hn
    obtain ⟨i, chain, hchain, hn⟩ := mem_nodeList.mp hn
    exact h chain (Array.mem_of_getElem? hchain) n hn

theorem all_empty (P : Value → Prop) (capacity : Nat) : (empty capacity).All P := by
  intro n hn
  simp at hn

theorem All.chainOf (h : p.All P) (ctx : Context) (key : Value) : (p.chainOf ctx key).All P :=
  forall_getD (all_iff_buckets.mp h) (List.forall_mem_nil _) _

theorem All.get? (h : p.All P) {ctx : Context} {key v : Value} (hget : p.get? ctx key = some v) : P v := by
  obtain ⟨n, hfound, hentry⟩ := Option.bind_eq_some_iff.mp hget
  obtain ⟨e, he, rfl⟩ := Option.map_eq_some_iff.mp hentry
  exact ((h.chainOf ctx key n (List.mem_of_find?_eq_some hfound)).of_entry he).2

theorem All.of_firstFrom (h : p.All P) {ctx : Context} {fuel i : Nat} {e : Value × Value}
    (he : p.firstFrom? ctx fuel i = some e) : P e.1 ∧ P e.2 := by
  induction fuel generalizing i with
  | zero => cases he
  | succ fuel ih =>
    rw [firstFrom?] at he
    split at he
    · cases he
    · rename_i chain hchain
      split at he
      · rename_i hfirst
        cases he
        exact (h.chain hchain).of_first hfirst
      · exact ih he

theorem All.of_after (h : p.All P) {ctx : Context} {key : Value} {e : Value × Value}
    (he : p.after? ctx key = some (some e)) : P e.1 ∧ P e.2 := by
  obtain ⟨rest, hrest, hentry⟩ := Option.map_eq_some_iff.mp he
  split at hentry
  · rename_i hfirst
    cases hentry
    exact ((h.chainOf ctx key).after hrest).of_first hfirst
  · exact h.of_firstFrom hentry

theorem All.setExisting (h : p.All P) {key value : Value} (hkey : P key) (hvalue : P value) (mode : WeakMode)
    (ctx : Context) : (p.setExisting ctx mode key value).1.All P := by
  cases hchain : p.buckets[p.bucketOf (ctx.hash key)]? with
  | none =>
    rw [setExisting_of_empty ctx mode key value hchain]
    exact h
  | some chain =>
    rw [setExisting_of_chain ctx mode key value hchain]
    exact all_iff_buckets.mpr (forall_setIfInBounds (all_iff_buckets.mp h) _
      ((h.chain hchain).store hkey hvalue mode _ ctx _))

theorem All.insert (h : p.All P) {key value : Value} (hkey : P key) (hvalue : P value) (mode : WeakMode)
    (ctx : Context) : (p.insert ctx mode key value).All P :=
  all_iff_buckets.mpr (forall_modify (all_iff_buckets.mp h) _ fun _ hchain =>
    List.forall_mem_cons.mpr ⟨⟨hkey, hvalue⟩, hchain⟩)

end HashPart

/-- Everything that a table contains has a property, the keys of dead slots included. No other invariant is asked
for. -/
structure All (P : Value → Prop) (t : Table) : Prop where
  array : ∀ v ∈ t.array, P v
  part : t.part.All P

variable {t : Table} {ctx : Context}

theorem all_new (hnil : P .nil) (arraySize hashSize : Nat) : (new arraySize hashSize).All P := by
  refine ⟨fun v hv => ?_, HashPart.all_empty P _⟩
  rw [show v = .nil by simpa [new] using (Array.mem_replicate.mp hv).2]
  exact hnil

/-- The metatable and what is held weakly do not matter. -/
theorem All.congr (h : t.All P) {u : Table} (harray : u.array = t.array) (hpart : u.part = t.part) : u.All P :=
  ⟨by rw [harray]; exact h.array, by rw [hpart]; exact h.part⟩

section Reading

theorem All.getInt (h : t.All P) (hnil : P .nil) (i : Int64) : P (t.getInt ctx i) := by
  unfold Table.getInt
  split
  · exact forall_getD h.array hnil _
  · cases hget : t.part.get? ctx (.int i) with
    | none => exact hnil
    | some v => exact h.part.get? hget

theorem All.part_get (h : t.All P) (hnil : P .nil) (key : Value) : P ((t.part.get? ctx key).getD .nil) := by
  cases hget : t.part.get? ctx key with
  | none => exact hnil
  | some v => exact h.part.get? hget

theorem All.getStr (h : t.All P) (hnil : P .nil) (s : String) : P (t.getStr ctx s) := h.part_get hnil _

theorem All.get (h : t.All P) (hnil : P .nil) (key : Value) : P (t.get ctx key) := by
  cases key with
  | nil => exact hnil
  | int i => exact h.getInt hnil i
  | float x =>
    unfold Table.get
    dsimp only
    split
    · exact h.getInt hnil 0
    · split
      · exact hnil
      · exact h.part_get hnil _
  | bool | str | table | closure | native | userdata | thread => exact h.part_get hnil _

/-- The entries have the property if integers, the keys of the array part, have it. -/
theorem All.of_mem_pairs (h : t.All P) (hint : ∀ i, P (.int i)) {e : Value × Value} (he : e ∈ t.pairs) :
    P e.1 ∧ P e.2 := by
  obtain he | he := mem_pairs.mp he
  · obtain ⟨i, v, -, hget, -, rfl⟩ := mem_arrayEntries.mp he
    exact ⟨hint _, h.array v (Array.mem_of_getElem? hget)⟩
  · exact h.part.of_pairs he

theorem All.of_entryFrom (h : t.All P) (hint : ∀ i, P (.int i)) {start : Nat} {e : Value × Value}
    (he : t.entryFrom? ctx start = some e) : P e.1 ∧ P e.2 := by
  unfold entryFrom? at he
  split at he
  · rename_i hfirst
    cases he
    rw [firstInArray?_eq] at hfirst
    exact h.of_mem_pairs hint (mem_pairs.mpr (.inl (arrayEntries_subset (List.mem_of_head? hfirst))))
  · exact h.part.of_firstFrom he

theorem All.of_next (h : t.All P) (hint : ∀ i, P (.int i)) {key : Value} {e : Value × Value}
    (he : t.next ctx key = .ok (some e)) : P e.1 ∧ P e.2 := by
  unfold Table.next at he
  split at he
  · exact h.of_entryFrom hint (Except.ok.inj he)
  · split at he
    · cases he
    · split at he
      · exact h.of_entryFrom hint (Except.ok.inj he)
      · split at he
        · rename_i hafter
          rw [Except.ok.inj he] at hafter
          exact h.part.of_after hafter
        · cases he

end Reading

section Storing

theorem All.setPlace (h : t.All P) (i : Nat) {value : Value} (hvalue : P value) :
    All P { t with array := t.array.setIfInBounds i value } :=
  ⟨forall_setIfInBounds h.array i hvalue, h.part⟩

theorem All.setPart (h : t.All P) {part : HashPart} (hpart : part.All P) : All P { t with part } := ⟨h.array, hpart⟩

theorem forall_fillPlaces {entries : List (Value × Value)} (hentries : ∀ e ∈ entries, P e.2) {array : Array Value}
    (harray : ∀ v ∈ array, P v) : ∀ v ∈ fillPlaces t entries array, P v := by
  induction entries generalizing array with
  | nil => exact harray
  | cons e rest ih =>
    rw [fillPlaces_cons]
    refine ih (fun f hf => hentries f (by simp [hf])) ?_
    cases t.arrayIndex? e.1 with
    | none => exact harray
    | some place => exact forall_setIfInBounds harray place (hentries e (by simp))

theorem All.rehash (h : t.All P) (hnil : P .nil) (hint : ∀ i, P (.int i)) (extra : Option Value) :
    (t.rehash ctx extra).All P := by
  have hmoved : ∀ e ∈ movedEntries ctx t extra, P e.1 ∧ P e.2 := by
    intro e he
    obtain he | he := List.mem_append.mp he
    · exact h.part.of_pairs ((HashPart.drain_sublist ctx t.part).subset he)
    · exact h.of_mem_pairs hint (mem_pairs.mpr (.inl (arrayEntries_subset he)))
  have hresized : ∀ v ∈ resized ctx t extra, P v := by
    intro v hv
    obtain hv | hv := Array.mem_append.mp hv
    · rw [← Array.mem_toList_iff, Array.take, Array.toList_extract] at hv
      exact h.array v (by simpa using List.mem_of_mem_drop (List.mem_of_mem_take hv))
    · rw [(Array.mem_replicate.mp hv).2]
      exact hnil
  rw [rehash_eq]
  refine ⟨?_, ?_⟩
  · exact forall_fillPlaces (fun e he => (hmoved e he).2) hresized
  · refine List.foldlRecOn _ _ (HashPart.all_empty P _) fun part hpart e he => ?_
    have he := hmoved e (List.mem_of_mem_filter he)
    exact hpart.insert he.1 he.2 _ _

theorem All.insertNew (h : t.All P) (hnil : P .nil) (hint : ∀ i, P (.int i)) {key value : Value} (hkey : P key)
    (hvalue : P value) : (t.insertNew ctx key value).All P := by
  have hgrown : (grown ctx t key).All P := by
    unfold grown
    split
    · exact h.rehash hnil hint _
    · exact h
  rw [insertNew_eq]
  split
  · exact hgrown.setPlace _ hvalue
  · exact hgrown.setPart (hgrown.part.insert hkey hvalue _ ctx)

theorem All.setNormal (h : t.All P) (hnil : P .nil) (hint : ∀ i, P (.int i)) {key value : Value} (hkey : P key)
    (hvalue : P value) : (t.setNormal ctx key value).All P := by
  cases hplace : t.arrayIndex? key with
  | some place =>
    rw [setNormal_of_place hplace]
    exact h.setPlace place hvalue
  | none =>
    have hset := h.setPart (h.part.setExisting hkey hvalue t.mode ctx)
    rw [setNormal_of_no_place ctx value hplace]
    dsimp only
    split
    · exact hset
    · exact hset.insertNew hnil hint hkey hvalue

theorem All.setStr (h : t.All P) (hnil : P .nil) (hint : ∀ i, P (.int i)) {s : String} {value : Value}
    (hkey : P (.str s)) (hvalue : P value) : (t.setStr ctx s value).All P := h.setNormal hnil hint hkey hvalue

theorem All.remove (h : t.All P) (hnil : P .nil) (hint : ∀ i, P (.int i)) {key : Value}
    (hkey : ∀ {stored}, normalizeKey key = .ok stored → P stored) : (t.remove ctx key).1.All P := by
  unfold Table.remove Table.set
  dsimp only
  split
  · exact h
  · cases hstored : normalizeKey key with
    | error e => exact h
    | ok stored => exact h.setNormal hnil hint (hkey hstored) hnil

theorem All.setMode (h : t.All P) (hnil : P .nil) (hint : ∀ i, P (.int i)) (mode : WeakMode) :
    (t.setMode ctx mode).All P := by
  unfold Table.setMode
  split
  · exact h
  · exact (h.congr (u := { t with mode }) rfl rfl).rehash hnil hint none

end Storing

end Table

end LuaMachine
