import LuaMachine.Table.Slot

namespace LuaMachine.Value

/-- Spreads the bits of a word over all of it. -/
def mix (z : UInt64) : UInt64 :=
  let z := (z ^^^ (z >>> 30)) * 0xbf58476d1ce4e5b9
  let z := (z ^^^ (z >>> 27)) * 0x94d049bb133111eb
  z ^^^ (z >>> 31)

/-- Hashes a text character by character. -/
def hashText (s : String) : UInt64 :=
  s.toList.foldl (fun h c => (h ^^^ c.val.toUInt64) * 0x100000001b3) 0xcbf29ce484222325

/-- A hash of values for machines that are given no other: equal objects, texts and numbers of one form have one hash.
The order in which tables list their entries depends on it. -/
def hashCode : Value → UInt64
  | nil => 0
  | bool b => mix (if b then 2 else 1)
  | int i => mix (i.toUInt64 * 8 + 3)
  | float x => mix (x.value.toBits * 8 + 4)
  | str s => mix (hashText s)
  | table id => mix (UInt64.ofNat (Ref.table id).address)
  | closure id => mix (UInt64.ofNat (Ref.closure id).address)
  | native id => mix (UInt64.ofNat (Ref.native id).address)
  | userdata id => mix (UInt64.ofNat (Ref.userdata id).address)
  | thread id => mix (UInt64.ofNat (Ref.thread id).address)

end LuaMachine.Value

namespace LuaMachine.Table

/-- The world of a table that holds nothing weakly: every object exists. -/
def Context.strong (hash : Value → UInt64) : Context := ⟨hash, fun _ _ => true, {}⟩

end LuaMachine.Table
