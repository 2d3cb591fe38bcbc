import LuaMachine.Object

namespace LuaMachine

/-- What becomes of the values that a call returns. -/
inductive Continuation
  /-- They go into registers of the caller. -/
  | store
  /-- They go into registers of a loop, which then tests its control variable. -/
  | forIterator
  /-- They go back to native code. -/
  | host
deriving DecidableEq, Repr, Inhabited

/-- Where the results of a call go: `count` registers from `base` on, all of them for none. -/
structure ReturnTarget where
  base : Nat
  count : Option Nat
  continuation : Continuation
deriving DecidableEq, Repr, Inhabited

/-- The results go to the host. -/
def ReturnTarget.host : ReturnTarget := ⟨0, none, .host⟩

/-- A native call that yielded; the values of the next resume complete it. A tail call returns them from
its frame. -/
structure PendingCall where
  target : ReturnTarget
  tail : Bool
deriving DecidableEq, Repr, Inhabited

/-- One activation of a closure. -/
structure Frame where
  closure : ClosureId
  proto : Prototype
  file : FileId
  varargs : Values
  openCells : List CellId
  /-- The index of the next instruction. -/
  pc : Nat
  /-- The end of the values that the last instruction with open results left. -/
  top : Nat
  target : ReturnTarget
  pending : Option PendingCall
  tailCalls : Nat
deriving Inhabited

end LuaMachine
