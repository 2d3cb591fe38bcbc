import LuaMachine.Table.Slot

namespace LuaMachine.Table

/-- A slot with the hash of its key. -/
structure Node where
  hash : UInt64
  slot : Slot
deriving DecidableEq

/-- A chain of nodes, the latest first. -/
abbrev Chain := List Node

namespace Chain

/-- The node that belongs to `key`. -/
def find? (h : UInt64) (key : Value) (chain : Chain) : Option Node :=
  List.find? (fun n => n.hash == h && n.slot.holds key) chain

/-- The nodes behind the one that belongs to `key`, if there is such a node. -/
def after? (h : UInt64) (key : Value) : Chain → Option Chain
  | [] => none
  | n :: rest => if n.hash == h && n.slot.holds key then some rest else after? h key rest

/-- The entries of a chain. -/
def entries (ctx : Context) (chain : Chain) : List (Value × Value) :=
  List.filterMap (fun n => n.slot.entry? ctx) chain

/-- The first entry of a chain. -/
def first? (ctx : Context) (chain : Chain) : Option (Value × Value) :=
  List.findSome? (fun n => n.slot.entry? ctx) chain

/-- Turns a vanished slot into a dead one, which holds nothing, and keeps count of the dead. -/
def reclaim (ctx : Context) (dead : Nat) (n : Node) : Node × Nat × Context :=
  if n.slot.isVanished ctx then
    ({ n with slot := n.slot.kill }, dead + 1, ctx.release n.slot.strongValues)
  else (n, dead, ctx)

/-- What storing `value` makes of the slot of `key`, keeping count of the dead. -/
def overwrite (mode : WeakMode) (key value : Value) (dead : Nat) (s : Slot) : Slot × Nat :=
  match s.isDead, value.isNil with
  | false, true => (s.kill, dead + 1)
  | false, false => (s.setValue value, dead)
  | true, true => (s, dead)
  | true, false => (.live mode key value, dead - 1)

/-- How storing under a key went in a chain: the chain, the count of the dead, whether the key was there,
and what the table released. -/
structure Stored where
  chain : Chain
  dead : Nat
  stored : Bool
  context : Context

/-- Stores into the slot of `key` if the chain has one. Vanished slots on the way to it become dead one by
one, and what one of them held may make a later one vanish. -/
def store (mode : WeakMode) (h : UInt64) (key value : Value) : Context → Nat → Chain → Stored
  | ctx, dead, [] => ⟨[], dead, false, ctx⟩
  | ctx, dead, n :: rest =>
    let (n, dead, ctx) := reclaim ctx dead n
    if n.hash == h && n.slot.holds key then
      let (slot, dead) := overwrite mode key value dead n.slot
      ⟨{ n with slot } :: rest, dead, true, ctx⟩
    else
      let result := store mode h key value ctx dead rest
      { result with chain := n :: result.chain }

/-- Takes the entries out of a chain in order and puts them in front of those in `taken`, the last one first.
A vanished slot goes with what it held. -/
def drain : Context → List (Value × Value) → Chain → Context × List (Value × Value)
  | ctx, taken, [] => (ctx, taken)
  | ctx, taken, n :: rest =>
    match n.slot.entry? ctx with
    | some entry => drain (ctx.take n.slot.weakValues) (entry :: taken) rest
    | none => drain (ctx.release n.slot.strongValues) taken rest

end Chain

/-- Buckets of chains, with the number of nodes and of dead slots among them, which stay in their chains until the part
is rebuilt. -/
structure HashPart where
  buckets : Array Chain
  nodes : Nat
  dead : Nat

namespace HashPart

/-- The least power of two that is not below `n`. -/
def powerAbove (n : Nat) : Nat := if n ≤ 1 then 1 else Nat.pow 2 (Nat.log2 (n - 1) + 1)

/-- An empty part with room for `capacity` entries; no buckets for none. -/
def empty (capacity : Nat) : HashPart :=
  ⟨if capacity = 0 then #[] else Array.replicate (powerAbove capacity) [], 0, 0⟩

instance : Inhabited HashPart := ⟨empty 0⟩

variable (ctx : Context)

/-- The bucket of a hash. -/
def bucketOf (p : HashPart) (h : UInt64) : Nat := h.toNat % p.buckets.size

/-- The chain that `key` belongs to; empty without buckets. -/
def chainOf (p : HashPart) (key : Value) : Chain :=
  p.buckets[p.bucketOf (ctx.hash key)]?.getD []

/-- The value of `key`, if it has an entry. -/
def get? (p : HashPart) (key : Value) : Option Value :=
  ((p.chainOf ctx key).find? (ctx.hash key) key).bind fun n => n.slot.entry? ctx |>.map (·.2)

/-- Overwrites or removes the entry of a key that has a slot. Says whether it has one, and what was released
on the way. -/
def setExisting (p : HashPart) (mode : WeakMode) (key value : Value) : HashPart × Bool × Context :=
  let h := ctx.hash key
  let i := p.bucketOf h
  let ⟨buckets, nodes, dead⟩ := p
  match buckets[i]? with
  | none => (⟨buckets, nodes, dead⟩, false, ctx)
  | some chain =>
    let result := Chain.store mode h key value ctx dead chain
    (⟨buckets.setIfInBounds i result.chain, nodes, result.dead⟩, result.stored, result.context)

/-- Adds a key that has no slot. -/
def insert (p : HashPart) (mode : WeakMode) (key value : Value) : HashPart :=
  let h := ctx.hash key
  let i := p.bucketOf h
  let ⟨buckets, nodes, dead⟩ := p
  ⟨buckets.modify i (⟨h, .live mode key value⟩ :: ·), nodes + 1, dead⟩

/-- The first entry at or behind bucket `i`, looking at `fuel` buckets. -/
def firstFrom? (p : HashPart) : Nat → Nat → Option (Value × Value)
  | 0, _ => none
  | fuel + 1, i =>
    match p.buckets[i]? with
    | none => none
    | some chain =>
      match Chain.first? ctx chain with
      | some entry => some entry
      | none => firstFrom? p fuel (i + 1)

/-- The first entry in traversal order. -/
def first? (p : HashPart) : Option (Value × Value) := p.firstFrom? ctx p.buckets.size 0

/-- The entry behind `key`; none if `key` has no slot at all, dead or alive. -/
def after? (p : HashPart) (key : Value) : Option (Option (Value × Value)) :=
  let h := ctx.hash key
  let i := p.bucketOf h
  (Chain.after? h key (p.chainOf ctx key)).map fun rest =>
    match Chain.first? ctx rest with
    | some entry => some entry
    | none => p.firstFrom? ctx p.buckets.size (i + 1)

/-- All entries in traversal order. -/
def entries (p : HashPart) : List (Value × Value) :=
  p.buckets.toList.flatMap fun chain => Chain.entries ctx chain

/-- Takes all entries out in traversal order. An entry can vanish while those before it are taken out. -/
def drain (p : HashPart) : List (Value × Value) :=
  (p.buckets.foldl (fun (ctx, taken) chain => Chain.drain ctx taken chain) (ctx, [])).2.reverse

end HashPart

end LuaMachine.Table
