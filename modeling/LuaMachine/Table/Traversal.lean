import LuaMachine.Table.Basic

namespace LuaMachine.Table

variable (ctx : Context)

/-- The first entry of the array part at or behind place `start`. -/
def firstInArray? (t : Table) (start : Nat) : Option (Value × Value) :=
  let rec look : Nat → Nat → Option (Value × Value)
    | 0, _ => none
    | fuel + 1, i =>
      match t.array[i]? with
      | none => none
      | some v => if v.isNil then look fuel (i + 1) else some (.int (Int64.ofNat (i + 1)), v)
  look (t.array.size - start) start

/-- The first entry at or behind array place `start`, the hash part coming last. -/
def entryFrom? (t : Table) (start : Nat) : Option (Value × Value) :=
  match t.firstInArray? start with
  | some entry => some entry
  | none => t.part.first? ctx

/-- The entry behind `key`, the first one for nil; none at the end. A removed key still has its place. -/
def next (t : Table) (key : Value) : Except Error (Option (Value × Value)) :=
  if key.isNil then .ok (t.entryFrom? ctx 0)
  else match normalizeKey key with
    | .error _ => .error .invalidNextKey
    | .ok key =>
      match t.arrayIndex? key with
      | some place => .ok (t.entryFrom? ctx (place + 1))
      | none =>
        match t.part.after? ctx key with
        | some entry => .ok entry
        | none => .error .invalidNextKey

/-- Whether the natural key `n` has a value. -/
def hasNat (t : Table) (n : Nat) : Bool := !(t.getInt ctx (Int64.ofNat n)).isNil

/-- Halves `low .. high`, where `holds low` and not `holds high`, until they are neighbours. -/
def bisect (holds : Nat → Bool) : Nat → Nat → Nat → Nat
  | 0, low, _ => low
  | fuel + 1, low, high =>
    if high - low ≤ 1 then low
    else
      let middle := (low + high) / 2
      if holds middle then bisect holds fuel middle high else bisect holds fuel low middle

/-- The last of the keys `low + 1, low + 2, …` in a row with a value, looking at `fuel` of them. -/
def lastInRow (holds : Nat → Bool) : Nat → Nat → Nat
  | 0, low => low
  | fuel + 1, low => if holds (low + 1) then lastInRow holds fuel (low + 1) else low

/-- Doubles `high` until it has no value, then bisects; beyond half of the integers it falls back to
counting from one. -/
def unboundSearch (t : Table) : Nat → Nat → Nat → Nat
  | 0, low, _ => low
  | fuel + 1, low, high =>
    if t.hasNat ctx high then
      if 0x3fffffffffffffff < high then lastInRow (t.hasNat ctx) (t.array.size + t.part.nodes) 0
      else unboundSearch t fuel high (high * 2)
    else bisect (t.hasNat ctx) 64 low high

/-- A border: zero or a key with a value, such that the next integer has none. -/
def length (t : Table) : Nat :=
  let size := t.array.size
  if 0 < size ∧ (t.array[size - 1]?.getD .nil).isNil then
    bisect (fun n => !(t.array[n - 1]?.getD .nil).isNil) size 0 size
  else if t.part.nodes = 0 then size
  else t.unboundSearch ctx 64 size (size + 1)

/-- Stores behind the border. -/
def append (t : Table) (value : Value) : Table :=
  t.setInt ctx (Int64.ofNat (t.length ctx + 1)) value

/-- The sizes and the weak mode of a table in words. -/
def describe (t : Table) : String :=
  let flag := fun (b : Bool) => if b then "true" else "false"
  String.join ["LuaTable \x7b array_len: ", Number.intText t.array.size, ", hash_len: ",
    Number.intText (t.hashLength ctx), ", weak_mode: WeakMode \x7b keys: ", flag t.mode.keys,
    ", values: ", flag t.mode.values, " \x7d \x7d"]

end LuaMachine.Table
