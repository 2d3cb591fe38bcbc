import LuaMachine.Proofs.Table.Key

namespace LuaMachine.Table

namespace Context

/-- No object ever vanishes. -/
def Everlasting (ctx : Context) : Prop := ∀ transit r, ctx.survives transit r = true

/-- The key and the value of an entry still exist. -/
def Keeps (ctx : Context) (e : Value × Value) : Prop := ctx.present e.1 = true ∧ ctx.present e.2 = true

instance (ctx : Context) (e : Value × Value) : Decidable (ctx.Keeps e) := inferInstanceAs (Decidable (_ ∧ _))

@[simp] theorem take_nil (ctx : Context) : ctx.take [] = ctx := rfl

@[simp] theorem take_hash (ctx : Context) (vs : Values) : (ctx.take vs).hash = ctx.hash := by
  unfold take
  split <;> rfl

@[simp] theorem release_hash (ctx : Context) (vs : Values) : (ctx.release vs).hash = ctx.hash := by
  unfold release
  split <;> rfl

theorem Everlasting.take {ctx : Context} (h : ctx.Everlasting) (vs : Values) : (ctx.take vs).Everlasting := by
  unfold Context.take
  split
  · exact h
  · exact h

theorem Everlasting.release {ctx : Context} (h : ctx.Everlasting) (vs : Values) :
    (ctx.release vs).Everlasting := by
  unfold Context.release
  split
  · exact h
  · exact h

theorem Everlasting.present {ctx : Context} (h : ctx.Everlasting) (v : Value) : ctx.present v = true := by
  simp [Context.present, Context.alive, h ctx.transit, Option.all_eq_true]

theorem Everlasting.keeps {ctx : Context} (h : ctx.Everlasting) (e : Value × Value) : ctx.Keeps e :=
  ⟨h.present e.1, h.present e.2⟩

end Context

namespace Slot

/-- The key and value of a live slot, whether its objects still exist or not. -/
def pair? : Slot → Option (Value × Value)
  | live _ key value => some (key, value)
  | dead _ => none

/-- A live slot holds as strongly as its table asks for, and its value is not nil. -/
def Fits (mode : WeakMode) : Slot → Prop
  | live strength _ value => strength = mode ∧ value.isNil = false
  | dead _ => True

@[simp] theorem key_kill (s : Slot) : s.kill.key = s.key := rfl

@[simp] theorem isDead_kill (s : Slot) : s.kill.isDead = true := rfl

@[simp] theorem pair?_kill (s : Slot) : s.kill.pair? = none := rfl

@[simp] theorem fits_kill (mode : WeakMode) (s : Slot) : s.kill.Fits mode := trivial

theorem entry?_eq_ite (ctx : Context) (s : Slot) :
    s.entry? ctx = if s.isVanished ctx then none else s.pair? := by
  cases s <;> simp [ entry?, pair?]

/-- An entry whose objects exist has not vanished. -/
theorem isVanished_of_keeps {ctx : Context} {s : Slot} {e : Value × Value} (h : s.pair? = some e)
    (hkeeps : ctx.Keeps e) : s.isVanished ctx = false := by
  cases s with
  | live strength key value =>
    cases h
    simp [isVanished, hkeeps.1, hkeeps.2]
  | dead => cases h

theorem isVanished_of_everlasting {ctx : Context} (h : ctx.Everlasting) (s : Slot) :
    s.isVanished ctx = false := by
  cases s <;> simp [isVanished, h.present]

theorem entry?_of_everlasting {ctx : Context} (h : ctx.Everlasting) (s : Slot) : s.entry? ctx = s.pair? := by
  simp [entry?_eq_ite, isVanished_of_everlasting h]

theorem isDead_eq_false_of_isVanished {ctx : Context} {s : Slot} (h : s.isVanished ctx = true) :
    s.isDead = false := by
  cases s with
  | live => rfl
  | dead => cases h

theorem entry?_fst {ctx : Context} {s : Slot} {p : Value × Value} (h : s.entry? ctx = some p) :
    p.1 = s.key := by
  cases s with
  | live strength key value =>
    simp only [ entry?] at h
    split at h
    · cases h
    · cases h; rfl
  | dead => cases h

theorem pair?_fst {s : Slot} {p : Value × Value} (h : s.pair? = some p) : p.1 = s.key := by
  cases s with
  | live => cases h; rfl
  | dead => cases h

end Slot

namespace Chain

/-- The hashes and keys of the nodes. -/
def labels (chain : Chain) : List (UInt64 × Value) := chain.map fun n => (n.hash, n.slot.key)

/-- The keys of the nodes, dead or alive. -/
def keys (chain : Chain) : List Value := chain.map (·.slot.key)

/-- The entries of a chain, those included whose objects vanished. -/
def pairs (chain : Chain) : List (Value × Value) := chain.filterMap (·.slot.pair?)

/-- The number of dead slots. -/
def deadCount (chain : Chain) : Nat := chain.countP (·.slot.isDead)

/-- Exactly the nodes with this key are taken for the key's. -/
def Keyed (h : UInt64) (key : Value) (chain : Chain) : Prop :=
  ∀ n ∈ chain, (n.hash == h && n.slot.holds key) = true ↔ n.slot.key = key

theorem Keyed.tail {h : UInt64} {key : Value} {n : Node} {rest : Chain}
    (hkeyed : Keyed h key (n :: rest)) : Keyed h key rest := fun m hm => hkeyed m (by simp [hm])

theorem Keyed.head {h : UInt64} {key : Value} {n : Node} {rest : Chain}
    (hkeyed : Keyed h key (n :: rest)) : (n.hash == h && n.slot.holds key) = true ↔ n.slot.key = key :=
  hkeyed n (by simp)

theorem mem_labels {chain : Chain} {n : Node} (hn : n ∈ chain) : (n.hash, n.slot.key) ∈ chain.labels :=
  List.mem_map.mpr ⟨n, hn, rfl⟩

@[simp] theorem keys_eq_labels (chain : Chain) : chain.labels.map (·.2) = chain.keys := by
  simp [labels, keys, Function.comp_def]

@[simp] theorem keys_cons (n : Node) (rest : Chain) : keys (n :: rest) = n.slot.key :: keys rest := rfl

@[simp] theorem labels_cons (n : Node) (rest : Chain) :
    labels (n :: rest) = (n.hash, n.slot.key) :: labels rest := rfl

theorem deadCount_cons (n : Node) (rest : Chain) :
    deadCount (n :: rest) = deadCount rest + n.slot.isDead.toNat := by
  cases hn : n.slot.isDead <;> simp [deadCount, hn]

theorem mem_pairs_cons {n : Node} {rest : Chain} {p : Value × Value} :
    p ∈ pairs (n :: rest) ↔ n.slot.pair? = some p ∨ p ∈ pairs rest := by
  cases hn : n.slot.pair? with
  | none => simp [pairs, hn]
  | some q => simp [pairs, hn, eq_comm]

theorem mem_keys_of_mem_pairs {chain : Chain} {p : Value × Value} (h : p ∈ chain.pairs) :
    p.1 ∈ chain.keys := by
  obtain ⟨n, hn, hp⟩ := List.mem_filterMap.mp h
  exact List.mem_map.mpr ⟨n, hn, (Slot.pair?_fst hp).symm⟩

/-- The node found for a key is one of the chain's and has the key. -/
theorem Keyed.find?_eq_some {h : UInt64} {key : Value} {chain : Chain} {n : Node}
    (hkeyed : Keyed h key chain) (hfind : chain.find? h key = some n) : n ∈ chain ∧ n.slot.key = key := by
  have hn : n ∈ chain := List.mem_of_find?_eq_some hfind
  have hbelongs := List.find?_some (by unfold find? at hfind; exact hfind)
  exact ⟨hn, (hkeyed n hn).mp hbelongs⟩

/-- A key whose only slot is in the chain is found there. -/
theorem Keyed.find?_of_mem {h : UInt64} {key : Value} {chain : Chain} {n : Node} (hkeyed : Keyed h key chain)
    (honly : ∀ m ∈ chain, m.slot.key = key → m = n) (hn : n ∈ chain) (hkey : n.slot.key = key) :
    chain.find? h key = some n := by
  obtain ⟨m, hm⟩ : ∃ m, chain.find? h key = some m := by
    rw [← Option.isSome_iff_exists, find?, List.find?_isSome]
    exact ⟨n, hn, (hkeyed n hn).mpr hkey⟩
  obtain ⟨hmem, hmkey⟩ := hkeyed.find?_eq_some hm
  rw [hm, honly m hmem hmkey]

/-- Reclaiming leaves hash and key of a node alone. -/
theorem reclaim_label (ctx : Context) (dead : Nat) (n : Node) :
    (reclaim ctx dead n).1.hash = n.hash ∧ (reclaim ctx dead n).1.slot.key = n.slot.key := by
  unfold reclaim
  split <;> exact ⟨rfl, rfl⟩

/-- A reclaimed node counts as dead from then on. -/
theorem reclaim_dead (ctx : Context) (dead : Nat) (n : Node) :
    (reclaim ctx dead n).2.1 + n.slot.isDead.toNat = dead + (reclaim ctx dead n).1.slot.isDead.toNat := by
  unfold reclaim
  split
  · rename_i hvanished
    simp [Slot.isDead_eq_false_of_isVanished hvanished]
  · rfl

theorem reclaim_hash (ctx : Context) (dead : Nat) (n : Node) : (reclaim ctx dead n).2.2.hash = ctx.hash := by
  unfold reclaim
  split <;> simp

theorem reclaim_fits {mode : WeakMode} {n : Node} (ctx : Context) (dead : Nat) (hfits : n.slot.Fits mode) :
    (reclaim ctx dead n).1.slot.Fits mode := by
  unfold reclaim
  split
  · exact Slot.fits_kill mode _
  · exact hfits

/-- Reclaiming makes up no entry. -/
theorem pair?_of_reclaim {ctx : Context} {dead : Nat} {n : Node} {e : Value × Value}
    (h : (reclaim ctx dead n).1.slot.pair? = some e) : n.slot.pair? = some e := by
  unfold reclaim at h
  split at h
  · cases h
  · exact h

/-- Reclaiming leaves an entry alone whose objects exist. -/
theorem reclaim_of_keeps {ctx : Context} {n : Node} {e : Value × Value} (h : n.slot.pair? = some e)
    (hkeeps : ctx.Keeps e) (dead : Nat) : (reclaim ctx dead n).1 = n := by
  simp [reclaim, Slot.isVanished_of_keeps h hkeeps]

/-- The world behind a node that an operation has passed. -/
def passed (ctx : Context) (n : Node) : Context :=
  if n.slot.isVanished ctx then ctx.release n.slot.strongValues else ctx

theorem reclaim_context (ctx : Context) (dead : Nat) (n : Node) : (reclaim ctx dead n).2.2 = passed ctx n := by
  unfold reclaim passed
  split <;> rfl

theorem passed_everlasting {ctx : Context} (h : ctx.Everlasting) (n : Node) : (passed ctx n).Everlasting := by
  unfold passed
  split
  · exact h.release _
  · exact h

/-- The moments at which storing under a key asks what has vanished in a chain. -/
def storeMoments (h : UInt64) (key : Value) : Context → Chain → List Context
  | _, [] => []
  | ctx, n :: rest =>
    ctx :: if n.hash == h && n.slot.holds key then [] else storeMoments h key (passed ctx n) rest

theorem storeMoments_everlasting {ctx : Context} (hlasting : ctx.Everlasting) (h : UInt64) (key : Value)
    (chain : Chain) : ∀ c ∈ storeMoments h key ctx chain, c.Everlasting := by
  induction chain generalizing ctx with
  | nil => simp [storeMoments]
  | cons n rest ih =>
    intro c hc
    rw [storeMoments] at hc
    obtain rfl | hc := List.mem_cons.mp hc
    · exact hlasting
    · split at hc
      · cases hc
      · exact ih (passed_everlasting hlasting n) c hc

theorem overwrite_key_cases (mode : WeakMode) (key value : Value) (dead : Nat) (s : Slot) :
    (overwrite mode key value dead s).1.key = s.key ∨ (overwrite mode key value dead s).1.key = key := by
  cases s <;> cases hnil : value.isNil <;>
    simp [overwrite, hnil, Slot.isDead, Slot.setValue, Slot.key, Slot.kill]

theorem overwrite_key (mode : WeakMode) {key value : Value} (dead : Nat) {s : Slot} (hkey : s.key = key) :
    (overwrite mode key value dead s).1.key = key := by
  subst hkey
  cases s <;> cases hnil : value.isNil <;>
    simp [overwrite, hnil, Slot.isDead, Slot.setValue, Slot.key, Slot.kill]

/-- The count of the dead follows the slot. -/
theorem overwrite_dead (mode : WeakMode) (key value : Value) {dead : Nat} {s : Slot}
    (hdead : s.isDead.toNat ≤ dead) :
    (overwrite mode key value dead s).2 + s.isDead.toNat =
      dead + (overwrite mode key value dead s).1.isDead.toNat := by
  cases s <;> cases hnil : value.isNil <;>
    simp_all [overwrite, Slot.isDead, Slot.setValue, Slot.kill]

theorem overwrite_pair? (mode : WeakMode) {key value : Value} (dead : Nat) {s : Slot} (hkey : s.key = key) :
    (overwrite mode key value dead s).1.pair? = if value.isNil then none else some (key, value) := by
  subst hkey
  cases s <;> cases hnil : value.isNil <;>
    simp [overwrite, hnil, Slot.isDead, Slot.setValue, Slot.key, Slot.kill, Slot.pair?]

theorem overwrite_fits {mode : WeakMode} {s : Slot} (key value : Value) (dead : Nat) (hfits : s.Fits mode) :
    (overwrite mode key value dead s).1.Fits mode := by
  cases s <;> cases hnil : value.isNil <;>
    simp_all [overwrite, Slot.isDead, Slot.setValue, Slot.kill, Slot.Fits]

variable {mode : WeakMode} {h : UInt64} {key : Value}

/-- Storing under a key in one step: the first node is reclaimed if it vanished; it is overwritten if it is the
key's, otherwise the rest takes the value. -/
theorem store_cons (value : Value) (ctx : Context) (dead : Nat) (n : Node) (rest : Chain) :
    store mode h key value ctx dead (n :: rest) =
      let r := reclaim ctx dead n
      if r.1.hash == h && r.1.slot.holds key then
        let o := overwrite mode key value r.2.1 r.1.slot
        ⟨{ r.1 with slot := o.1 } :: rest, o.2, true, r.2.2⟩
      else
        let result := store mode h key value r.2.2 r.2.1 rest
        { result with chain := r.1 :: result.chain } := by
  rw [store]

/-- Reclaiming does not change whose node it is. -/
theorem reclaim_belongs {n : Node} {rest : Chain} (hkeyed : Keyed h key (n :: rest)) (ctx : Context)
    (dead : Nat) :
    ((reclaim ctx dead n).1.hash == h && (reclaim ctx dead n).1.slot.holds key) = true ↔ n.slot.key = key := by
  obtain ⟨hhash, hslot⟩ := reclaim_label ctx dead n
  rw [hhash, Slot.holds, hslot]
  exact hkeyed.head

/-- How storing under a key may label a node anew: not at all, or with the key if the node was taken for it. -/
def Relabels (h : UInt64) (key : Value) (before after : UInt64 × Value) : Prop :=
  after = before ∨ (before.1 = h ∧ before.2.rawEqual key = true ∧ after = (h, key))

theorem Relabels.fst_eq {h : UInt64} {key : Value} {before after : UInt64 × Value}
    (hlabel : Relabels h key before after) : after.1 = before.1 := by
  rcases hlabel with rfl | ⟨rfl, -, rfl⟩ <;> rfl

theorem exists_relabels {h : UInt64} {key : Value} {before after : List (UInt64 × Value)}
    (hlabels : List.Forall₂ (Relabels h key) before after) {l : UInt64 × Value} (hl : l ∈ after) :
    ∃ old ∈ before, Relabels h key old l := by
  obtain ⟨i, hi, rfl⟩ := List.getElem_of_mem hl
  have hi' : i < before.length := hlabels.length_eq ▸ hi
  exact ⟨before[i], List.getElem_mem hi', hlabels.get hi' hi⟩

theorem relabels_refl (h : UInt64) (key : Value) (labels : List (UInt64 × Value)) :
    List.Forall₂ (Relabels h key) labels labels := List.forall₂_same.mpr fun _ _ => .inl rfl

/-- Storing keeps every node in its place, with its hash. A dead slot that is taken for the key's passes to the key. -/
theorem store_relabels (mode : WeakMode) (h : UInt64) (key value : Value) (chain : Chain) (ctx : Context) (dead : Nat) :
    List.Forall₂ (Relabels h key) chain.labels (store mode h key value ctx dead chain).chain.labels := by
  induction chain generalizing ctx dead with
  | nil => exact .nil
  | cons n rest ih =>
    obtain ⟨hhash, hslot⟩ := reclaim_label ctx dead n
    rw [store_cons]
    dsimp only
    split
    · rename_i hfound
      simp only [Bool.and_eq_true, beq_iff_eq, hhash, Slot.holds, hslot] at hfound
      refine .cons ?_ (relabels_refl h key _)
      rcases overwrite_key_cases mode key value (reclaim ctx dead n).2.1 (reclaim ctx dead n).1.slot with hsame | hnew
      · exact .inl (by simp only [hsame, hhash, hslot])
      · exact .inr ⟨hfound.1, hfound.2, by simp only [hnew, hhash, hfound.1]⟩
    · exact .cons (.inl (by simp only [hhash, hslot])) (ih _ _)

/-- Storing that finds no slot changes no label. -/
theorem labels_store_of_stored_eq_false (mode : WeakMode) (h : UInt64) (key value : Value) {chain : Chain}
    {ctx : Context} {dead : Nat} (hstored : (store mode h key value ctx dead chain).stored = false) :
    (store mode h key value ctx dead chain).chain.labels = chain.labels := by
  induction chain generalizing ctx dead with
  | nil => rfl
  | cons n rest ih =>
    obtain ⟨hhash, hslot⟩ := reclaim_label ctx dead n
    rw [store_cons] at hstored ⊢
    dsimp only at hstored ⊢
    split at hstored
    · cases hstored
    · rename_i hother
      rw [if_neg hother, labels_cons, labels_cons, hhash, hslot, ih hstored]

/-- Storing finds a node that is taken for the key's. -/
theorem store_stored_of_mem (mode : WeakMode) (value : Value) {chain : Chain} {n : Node} (hn : n ∈ chain)
    (hhash : n.hash = h) (hkey : n.slot.key.rawEqual key = true) (ctx : Context) (dead : Nat) :
    (store mode h key value ctx dead chain).stored = true := by
  induction chain generalizing ctx dead with
  | nil => cases hn
  | cons m rest ih =>
    obtain ⟨hsame, hslot⟩ := reclaim_label ctx dead m
    rw [store_cons]
    dsimp only
    split
    · rfl
    · rename_i hother
      rcases List.mem_cons.mp hn with rfl | hrest
      · exact absurd (by simp [hsame, hhash, Slot.holds, hslot, hkey]) hother
      · exact ih hrest _ _

/-- Storing keeps every node in its place, with its hash and key. -/
theorem store_labels (mode : WeakMode) (value : Value) {chain : Chain} (hkeyed : Keyed h key chain) (ctx : Context)
    (dead : Nat) : (store mode h key value ctx dead chain).chain.labels = chain.labels := by
  induction chain generalizing ctx dead with
  | nil => rfl
  | cons n rest ih =>
    obtain ⟨hhash, hslot⟩ := reclaim_label ctx dead n
    rw [store_cons]
    dsimp only
    split
    · rename_i hfound
      have hkey : (reclaim ctx dead n).1.slot.key = key :=
        hslot.trans ((reclaim_belongs hkeyed ctx dead).mp hfound)
      simp only [labels_cons, overwrite_key mode _ hkey, hhash, ← hslot, hkey]
    · simp only [labels_cons, hhash, hslot, ih hkeyed.tail]

/-- A chain has a slot to store into exactly if one of its nodes has the key. -/
theorem store_stored (value : Value) {chain : Chain} (hkeyed : Keyed h key chain) (ctx : Context) (dead : Nat) :
    (store mode h key value ctx dead chain).stored = true ↔ key ∈ chain.keys := by
  induction chain generalizing ctx dead with
  | nil => simp [store, keys]
  | cons n rest ih =>
    have hbelongs := reclaim_belongs hkeyed ctx dead
    rw [store_cons]
    dsimp only
    split
    · rename_i hfound
      simp [hbelongs.mp hfound]
    · rename_i hother
      have hne : n.slot.key ≠ key := fun heq => hother (hbelongs.mpr heq)
      simp [ih hkeyed.tail, Ne.symm hne]

/-- The count of the dead stays exact. -/
theorem store_dead (mode : WeakMode) (h : UInt64) (key value : Value) {chain : Chain} (ctx : Context) (dead : Nat)
    (hdead : chain.deadCount ≤ dead) :
    (store mode h key value ctx dead chain).dead + chain.deadCount =
      dead + (store mode h key value ctx dead chain).chain.deadCount := by
  induction chain generalizing ctx dead with
  | nil => rfl
  | cons n rest ih =>
    have hcount := reclaim_dead ctx dead n
    rw [deadCount_cons] at hdead
    rw [store_cons]
    dsimp only
    split
    · have hcovered : (reclaim ctx dead n).1.slot.isDead.toNat ≤ (reclaim ctx dead n).2.1 := by omega
      have hexact := overwrite_dead mode key value hcovered
      simp only [deadCount_cons]
      omega
    · have hrest := ih (reclaim ctx dead n).2.2 (reclaim ctx dead n).2.1 (by omega)
      simp only [deadCount_cons]
      omega

/-- The hash function stays the same while an operation is under way. -/
theorem store_hash (value : Value) (chain : Chain) (ctx : Context) (dead : Nat) :
    (store mode h key value ctx dead chain).context.hash = ctx.hash := by
  induction chain generalizing ctx dead with
  | nil => rfl
  | cons n rest ih =>
    rw [store_cons]
    dsimp only
    split
    · exact reclaim_hash ctx dead n
    · exact (ih _ _).trans (reclaim_hash ctx dead n)

theorem store_fits (h : UInt64) (key value : Value) {chain : Chain} (hfits : ∀ n ∈ chain, n.slot.Fits mode)
    (ctx : Context) (dead : Nat) : ∀ n ∈ (store mode h key value ctx dead chain).chain, n.slot.Fits mode := by
  induction chain generalizing ctx dead with
  | nil => simp [store]
  | cons n rest ih =>
    have hhead := reclaim_fits ctx dead (hfits n (by simp))
    have htail : ∀ m ∈ rest, m.slot.Fits mode := fun m hm => hfits m (by simp [hm])
    rw [store_cons]
    dsimp only
    split
    · intro m hm
      obtain rfl | hm := List.mem_cons.mp hm
      · exact overwrite_fits key value _ hhead
      · exact htail m hm
    · intro m hm
      obtain rfl | hm := List.mem_cons.mp hm
      · exact hhead
      · exact ih htail _ _ m hm

theorem store_everlasting (value : Value) {ctx : Context} (hlasting : ctx.Everlasting) (chain : Chain)
    (dead : Nat) : (store mode h key value ctx dead chain).context.Everlasting := by
  induction chain generalizing ctx dead with
  | nil => exact hlasting
  | cons n rest ih =>
    have hbehind : (reclaim ctx dead n).2.2.Everlasting := by
      rw [reclaim_context]
      exact passed_everlasting hlasting n
    rw [store_cons]
    dsimp only
    split
    · exact hbehind
    · exact ih hbehind _

/-- Storing makes up no entry but that of the key, and leaves no other entry of the key behind. -/
theorem of_mem_pairs_store {value : Value} {ctx : Context} {chain : Chain} (hkeyed : Keyed h key chain)
    (honce : chain.keys.count key ≤ 1) {dead : Nat} {p : Value × Value}
    (hp : p ∈ (store mode h key value ctx dead chain).chain.pairs) :
    (p ∈ chain.pairs ∧ p.1 ≠ key) ∨ (key ∈ chain.keys ∧ value.isNil = false ∧ p = (key, value)) := by
  induction chain generalizing ctx dead with
  | nil => cases hp
  | cons n rest ih =>
    rw [keys_cons, List.count_cons] at honce
    have hbelongs := reclaim_belongs hkeyed ctx dead
    have hlabel := (reclaim_label ctx dead n).2
    rw [store_cons] at hp
    dsimp only at hp
    split at hp
    · rename_i hfound
      have hkey : n.slot.key = key := hbelongs.mp hfound
      rw [mem_pairs_cons, overwrite_pair? mode _ (hlabel.trans hkey)] at hp
      rcases hp with hnew | hold
      · cases hnil : value.isNil with
        | true => simp [hnil] at hnew
        | false => exact Or.inr ⟨by simp [hkey], rfl, by simpa [hnil, eq_comm] using hnew⟩
      · refine Or.inl ⟨mem_pairs_cons.mpr (Or.inr hold), ?_⟩
        rintro rfl
        have hmore := List.count_pos_iff.mpr (mem_keys_of_mem_pairs hold)
        rw [hkey, beq_self_eq_true, if_pos rfl] at honce
        omega
    · rename_i hother
      have hne : n.slot.key ≠ key := fun heq => hother (hbelongs.mpr heq)
      rcases mem_pairs_cons.mp hp with hself | hrest
      · have hpair := pair?_of_reclaim hself
        exact Or.inl ⟨mem_pairs_cons.mpr (Or.inl hpair), fun heq => hne ((Slot.pair?_fst hpair).symm.trans heq)⟩
      · rcases ih hkeyed.tail (by omega) hrest with ⟨hold, hkey⟩ | ⟨hmem, hnew⟩
        · exact Or.inl ⟨mem_pairs_cons.mpr (Or.inr hold), hkey⟩
        · exact Or.inr ⟨by simp [hmem], hnew⟩

/-- Storing leaves the entry of another key alone whose objects exist at every moment of it, if no node of that key is
taken for this one's. -/
theorem mem_pairs_store_iff (mode : WeakMode) (value : Value) {ctx : Context} {chain : Chain} {p : Value × Value}
    (hapart : ∀ n ∈ chain, n.slot.key = p.1 → ¬(n.hash == h && n.slot.holds key) = true) (hne : p.1 ≠ key)
    (dead : Nat) (hkept : p ∈ chain.pairs → ∀ c ∈ storeMoments h key ctx chain, c.Keeps p) :
    p ∈ (store mode h key value ctx dead chain).chain.pairs ↔ p ∈ chain.pairs := by
  induction chain generalizing ctx dead with
  | nil => rfl
  | cons n rest ih =>
    rw [List.forall_mem_cons] at hapart
    obtain ⟨hhash, hslot⟩ := reclaim_label ctx dead n
    have hbelongs : ((reclaim ctx dead n).1.hash == h && (reclaim ctx dead n).1.slot.holds key) =
        (n.hash == h && n.slot.holds key) := by
      rw [hhash, Slot.holds, hslot]
      rfl
    rw [store_cons]
    dsimp only
    rw [hbelongs]
    rw [storeMoments] at hkept
    split
    · rename_i hfound
      have hother : n.slot.key ≠ p.1 := fun heq => hapart.1 heq hfound
      have hold : n.slot.pair? ≠ some p := fun hpair => hother (Slot.pair?_fst hpair).symm
      have hnew : (overwrite mode key value (reclaim ctx dead n).2.1 (reclaim ctx dead n).1.slot).1.pair? ≠ some p := by
        intro hpair
        have hkey := Slot.pair?_fst hpair
        have hcases := overwrite_key_cases mode key value (reclaim ctx dead n).2.1 (reclaim ctx dead n).1.slot
        rcases hcases with hsame | hsame
        · exact hother (hslot.symm.trans (hsame.symm.trans hkey.symm))
        · exact hne (hkey.trans hsame)
      simp only [mem_pairs_cons, hold, hnew, false_or]
    · rename_i hother
      rw [if_neg hother] at hkept
      have hself : (reclaim ctx dead n).1.slot.pair? = some p ↔ n.slot.pair? = some p := by
        refine ⟨pair?_of_reclaim, fun hpair => ?_⟩
        rwa [reclaim_of_keeps hpair (hkept (mem_pairs_cons.mpr (.inl hpair)) ctx List.mem_cons_self)]
      rw [mem_pairs_cons, mem_pairs_cons, hself, ih hapart.2]
      rw [reclaim_context]
      exact fun hrest c hc => hkept (mem_pairs_cons.mpr (.inr hrest)) c (List.mem_cons_of_mem _ hc)

/-- The slot of the key takes the value. -/
theorem mem_pairs_store_self (mode : WeakMode) {value : Value} (hvalue : value.isNil = false) {ctx : Context}
    {chain : Chain} (hkeyed : Keyed h key chain) (dead : Nat) (hmem : key ∈ chain.keys) :
    (key, value) ∈ (store mode h key value ctx dead chain).chain.pairs := by
  induction chain generalizing ctx dead with
  | nil => cases hmem
  | cons n rest ih =>
    have hbelongs := reclaim_belongs hkeyed ctx dead
    have hlabel := (reclaim_label ctx dead n).2
    rw [store_cons]
    dsimp only
    split
    · rename_i hfound
      refine mem_pairs_cons.mpr (Or.inl ?_)
      rw [overwrite_pair? mode _ (hlabel.trans (hbelongs.mp hfound))]
      simp [hvalue]
    · rename_i hother
      have hne : n.slot.key ≠ key := fun heq => hother (hbelongs.mpr heq)
      rw [keys_cons, List.mem_cons] at hmem
      exact mem_pairs_cons.mpr (Or.inr (ih hkeyed.tail _ (hmem.resolve_left (Ne.symm hne))))

end Chain

end LuaMachine.Table
