namespace LuaMachine.SizeByte

/-- The size that a byte stands for: its low three bits `x` for an exponent `e` of zero, and `(8 + x) * 2 ^ (e - 1)`
otherwise. -/
def decode (byte : UInt32) : Nat :=
  let e := byte.toNat / 8 % 32
  if e = 0 then byte.toNat else (byte.toNat % 8 + 8) * Nat.pow 2 (e - 1)

/-- Halves `x`, rounding up, until it is below sixteen, and counts the halvings. -/
def reduce : Nat → UInt32 → UInt32 → UInt32 × UInt32
  | 0, x, e => (x, e)
  | fuel + 1, x, e => if x < 16 then (x, e) else reduce fuel ((x + 1) >>> 1) (e + 1)

/-- The byte of the least size that is not below `size`. The largest word overflows in the first halving and gets the
byte of zero. -/
def encode (size : UInt32) : UInt32 :=
  let (x, e) := reduce 32 size 0
  if x < 8 then x else ((e + 1) <<< 3) ||| (x - 8)

end LuaMachine.SizeByte
