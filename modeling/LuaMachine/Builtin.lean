import LuaMachine.Object

namespace LuaMachine

/-- Names a group of scheduled threads. -/
structure GroupId where
  index : Nat
deriving DecidableEq, Repr, Inhabited

/-- The arithmetic operations. -/
inductive ArithOp
  | add | sub | mul | div | mod | pow | unm
deriving DecidableEq, Repr

/-- The functions of the base library. -/
inductive BaseFunction
  | assert | error | pcall | next | pairs | ipairs | ipairsNext | select | type | tostring | tonumber
  | rawget | rawset | rawequal | setmetatable | getmetatable | unpack | print
deriving DecidableEq, Repr

/-- The functions of the coroutine library. -/
inductive CoroutineFunction
  | create | resume | yield | status | wrap | running | wait
deriving DecidableEq, Repr

/-- What a host can do on the thread that runs it, each as a function of its own. -/
inductive HostOperation
  | echo | nothing | count | yield | fail | failAt | failFatal | escapeYield | call | traceback
  | position | depth | threadNumber | status | sleep | destroy | jump | resume | references | index
  | setIndex | arith | equal | lessThan | lessEqual | concat | length | tostring | metamethod
deriving DecidableEq, Repr

/-- The host operation with a name. -/
def HostOperation.ofName? : String → Option HostOperation
  | "ident" => some echo
  | "none" => some nothing
  | "nargs" => some count
  | "yielder" => some yield
  | "fail" => some fail
  | "failat" => some failAt
  | "fatal" => some failFatal
  | "rawyield" => some escapeYield
  | "call" => some call
  | "traceback" => some traceback
  | "where" => some position
  | "depth" => some depth
  | "tid" => some threadNumber
  | "status" => some status
  | "sleep" => some sleep
  | "destroy" => some destroy
  | "jump" => some jump
  | "resume" => some resume
  | "refs" => some references
  | "index" => some index
  | "set_index" => some setIndex
  | "arith" => some arith
  | "eq" => some equal
  | "lt" => some lessThan
  | "le" => some lessEqual
  | "concat" => some concat
  | "len" => some length
  | "tostring" => some tostring
  | "metamethod" => some metamethod
  | _ => none

/-- What a program can do to a group of threads. -/
inductive GroupAction
  | update | suspend | resume | destroy
deriving DecidableEq, Repr

/-- The group action with a name. -/
def GroupAction.ofName? : String → Option GroupAction
  | "update" => some update
  | "suspend" => some suspend
  | "resume" => some resume
  | "destroy" => some destroy
  | _ => none

/-- The functions that the machine itself provides. -/
inductive Builtin
  | base (f : BaseFunction)
  | coroutine (f : CoroutineFunction)
  | wrapped (thread : ThreadId)
  | spawn (name : String)
  | host (op : HostOperation)
  | group (id : GroupId) (action : GroupAction)
deriving DecidableEq, Repr

/-- A native function object: a name for messages and what it does. -/
structure Native where
  name : String
  body : Builtin
deriving DecidableEq, Repr

/-- The text of a native function in quoted form. -/
def Native.describe (n : Native) : String := "function [host " ++ n.name ++ "]"

end LuaMachine
