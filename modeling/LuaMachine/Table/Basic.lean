import LuaMachine.Table.HashPart

namespace LuaMachine

/-- A table. Place `i` of the array part belongs to the key `i + 1`; the array part gets another size only when the hash
part is rebuilt. -/
structure Table where
  array : Array Value
  part : Table.HashPart
  metatable : Option TableId
  mode : WeakMode
deriving Inhabited

namespace Table

/-- Why a key is refused. -/
inductive Error
  | nilKey | nanKey | invalidNextKey
deriving DecidableEq, Repr

/-- The refusal in words. -/
def Error.message : Error → String
  | nilKey => "table index is nil"
  | nanKey => "table index is NaN"
  | invalidNextKey => "invalid key to 'next'"

/-- The least number of buckets that is not zero. -/
def minBuckets : Nat := 4

/-- A full hash part grows early when a key falls into a chain of this length. -/
def maxChain : Nat := 8

/-- The array part has at most `2 ^ maxArrayBits` places. -/
def maxArrayBits : Nat := 26

/-- An empty table with room for array and hash entries. -/
def new (arraySize hashSize : Nat) : Table :=
  ⟨Array.replicate arraySize .nil, .empty hashSize, none, .strong⟩

/-- The form in which a key is stored: neither nil nor NaN, and zero for both zeros. -/
def normalizeKey : Value → Except Error Value
  | .nil => .error .nilKey
  | .float x =>
    if x.value.isNaN then .error .nanKey else if x.value == 0.0 then .ok (.int 0) else .ok (.float x)
  | key => .ok key

/-- The place of a key in the array part, from zero. -/
def arrayIndex? (t : Table) : Value → Option Nat
  | .int i => if 1 ≤ i.toInt ∧ i.toInt ≤ t.array.size then some (i.toInt.toNat - 1) else none
  | _ => none

variable (ctx : Context)

/-- The value of an integer key. -/
def getInt (t : Table) (i : Int64) : Value :=
  match t.arrayIndex? (.int i) with
  | some place => t.array[place]?.getD .nil
  | none => (t.part.get? ctx (.int i)).getD .nil

/-- The value of a text key. -/
def getStr (t : Table) (s : String) : Value := (t.part.get? ctx (.str s)).getD .nil

/-- The value of a key, without metamethods; nil for a missing or vanished entry. -/
def get (t : Table) : Value → Value
  | .nil => .nil
  | .int i => t.getInt ctx i
  | .float x =>
    if x.value == 0.0 then t.getInt ctx 0
    else if x.value.isNaN then .nil
    else (t.part.get? ctx (.float x)).getD .nil
  | key => (t.part.get? ctx key).getD .nil

/-- The class of a positive key: `0` for `1`, else the `b` with `2 ^ (b - 1) < key ≤ 2 ^ b`. -/
def sizeClass (key : Nat) : Nat := if key ≤ 1 then 0 else Nat.log2 (key - 1) + 1

/-- Counts an integer key that could live in an array part in its class. -/
def countKey (counts : Array Nat) : Value → Array Nat
  | .int i =>
    if 1 ≤ i.toInt ∧ i.toInt ≤ Nat.pow 2 maxArrayBits then counts.modify (sizeClass i.toInt.toNat) (· + 1)
    else counts
  | _ => counts

/-- The largest power of two with more than half of its places in use, given the keys in use by class. -/
def arraySizeFor (counts : Array Nat) : Nat :=
  let pick := fun ((bits, used, size) : Nat × Nat × Nat) (count : Nat) =>
    let used := used + count
    (bits + 1, used, if Nat.pow 2 bits / 2 < used then Nat.pow 2 bits else size)
  (counts.foldl pick (0, 0, 0)).2.2

/-- The entries of the array part from place `start` on. -/
def arrayEntries (array : Array Value) (start : Nat) : List (Value × Value) :=
  ((array.toList.drop start).zipIdx (start + 1)).filterMap fun (v, i) =>
    if v.isNil then none else some (.int (Int64.ofNat i), v)

/-- All entries: the array part first, then the hash part. -/
def entries (t : Table) : List (Value × Value) :=
  arrayEntries t.array 0 ++ t.part.entries ctx

/-- The size that the array part should have for some keys; none with weak values. -/
def idealArraySize (mode : WeakMode) (keys : List Value) : Nat :=
  if mode.values then 0
  else arraySizeFor (keys.foldl countKey (Array.replicate (maxArrayBits + 1) 0))

/-- Rebuilds both parts from the entries, without dead and vanished slots, making room for `extra`. -/
def rehash (t : Table) (extra : Option Value) : Table :=
  let drained := t.part.drain ctx
  let keys := (arrayEntries t.array 0 ++ drained).map (·.1)
  let size := idealArraySize t.mode (keys ++ extra.toList)
  let moved := drained ++ arrayEntries t.array size
  let array := t.array.take size ++ Array.replicate (size - t.array.size) .nil
  let t : Table := { t with array, part := .empty 0 }
  let hashed := moved.filter fun (key, _) => (t.arrayIndex? key).isNone
  let needed := hashed.length + (extra.filter fun key => (t.arrayIndex? key).isNone).toList.length
  let array := moved.foldl (fun array (key, v) =>
    match t.arrayIndex? key with
    | some place => array.setIfInBounds place v
    | none => array) t.array
  let part := hashed.foldl (fun part (key, v) => part.insert ctx t.mode key v)
    (.empty (if needed = 0 then 0 else max needed minBuckets))
  { t with array, part }

/-- Whether the hash part has to grow before `key` is added. -/
def mustGrow (t : Table) (key : Value) : Bool :=
  let buckets := t.part.buckets.size
  buckets == 0 || buckets * 2 ≤ t.part.nodes ||
    (buckets ≤ t.part.nodes && maxChain ≤ (t.part.chainOf ctx key).length)

/-- Adds a key that has neither an array place nor a slot. -/
def insertNew (t : Table) (key value : Value) : Table :=
  let t := if t.mustGrow ctx key then t.rehash ctx (some key) else t
  match t.arrayIndex? key with
  | some place => { t with array := t.array.setIfInBounds place value }
  | none => { t with part := t.part.insert ctx t.mode key value }

/-- Stores under a key in stored form. -/
def setNormal (t : Table) (key value : Value) : Table :=
  match t.arrayIndex? key with
  | some place => { t with array := t.array.setIfInBounds place value }
  | none =>
    let ⟨array, part, metatable, mode⟩ := t
    let (part, stored, ctx) := part.setExisting ctx mode key value
    let t : Table := ⟨array, part, metatable, mode⟩
    if stored || value.isNil then t else t.insertNew ctx key value

/-- Stores without metamethods; nil removes the key. -/
def set (t : Table) (key value : Value) : Except Error Table :=
  (normalizeKey key).map fun key => t.setNormal ctx key value

/-- Stores under an integer. -/
def setInt (t : Table) (i : Int64) (value : Value) : Table := t.setNormal ctx (.int i) value

/-- Stores under a text. -/
def setStr (t : Table) (s : String) (value : Value) : Table := t.setNormal ctx (.str s) value

/-- Removes a key and gives its old value. -/
def remove (t : Table) (key : Value) : Table × Value :=
  let old := t.get ctx key
  if old.isNil then (t, old)
  else match t.set (ctx.take [old]) key .nil with
    | .ok t => (t, old)
    | .error _ => (t, old)

/-- Drops dead and vanished slots and refits both parts. -/
def prune (t : Table) : Table := t.rehash ctx none

/-- Changes what the table holds weakly, rebuilding it if that is a change. -/
def setMode (t : Table) (mode : WeakMode) : Table :=
  if mode = t.mode then t else { t with mode }.rehash ctx none

/-- The weak mode that a metatable asks for. -/
def requestedMode (metatable : Table) : WeakMode :=
  match metatable.getStr ctx "__mode" with
  | .str s => .parse s
  | _ => .strong

/-- The number of dead slots. -/
def deadSlots (t : Table) : Nat := t.part.dead

/-- The number of entries of the hash part. -/
def hashLength (t : Table) : Nat := (t.part.entries ctx).length

/-- Whether there is no entry. -/
def isEmpty (t : Table) : Bool := (t.entries ctx).isEmpty

end Table

end LuaMachine
