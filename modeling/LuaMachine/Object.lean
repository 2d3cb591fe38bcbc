import LuaMachine.Value.List
import LuaMachine.Prototype.Naming
import LuaMachine.Table.Traversal
import LuaMachine.Table.Hash

namespace LuaMachine

/-- Names an upvalue cell. -/
structure CellId where
  index : Nat
deriving DecidableEq, Repr, Inhabited

/-- Names the registers of one activation of a closure. -/
structure FileId where
  index : Nat
deriving DecidableEq, Repr, Inhabited

/-- A captured variable: a register while its frame lives, a value of its own afterwards. -/
inductive Cell
  | onStack (file : FileId) (register : Nat)
  | closed (v : Value)
deriving DecidableEq, Inhabited

/-- A prototype with its captured variables and its table of globals. -/
structure Closure where
  proto : Prototype
  cells : List CellId
  env : TableId
deriving Inhabited

/-- An opaque value of the host, which programs only pass around. -/
structure Userdata where
  payload : Int64
  metatable : Option TableId
deriving Inhabited

end LuaMachine
