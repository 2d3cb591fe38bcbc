import LuaMachine.Value.Basic

namespace LuaMachine

/-- A constant of a compiled function. Doubles are kept by their bits: a program sees no more of a NaN than its sign,
but a chunk that is read and written again has the bits that it had. -/
inductive Constant
  | nil
  | bool (b : Bool)
  | int (i : Int64)
  | float (bits : UInt64)
  | str (s : String)
deriving DecidableEq, Repr, Inhabited

namespace Constant

/-- The value that a program sees. -/
def value : Constant → Value
  | nil => .nil
  | bool b => .bool b
  | int i => .int i
  | float bits => .float (.ofBits bits)
  | str s => .str s

/-- The number of a double given by its bits: the equal 64-bit integer if there is one, negative zero
excepted. -/
def number (bits : UInt64) : Constant :=
  match Value.number (.ofBits bits) with
  | .int i => int i
  | _ => float bits

end Constant

end LuaMachine
