namespace LuaMachine

/-- The limits, each with its usual setting. -/
structure Limits where
  /-- Frames that one thread may hold. -/
  callDepth : Nat := 200
  /-- Nested calls from native code that one thread may hold. -/
  nativeDepth : Nat := 200
  /-- Instructions that one resume may run; none for no limit. -/
  fuse : Option Nat := some 100000000
  /-- Frames that one resume of a scheduled thread may push; none for no limit. -/
  framesPerTick : Option Nat := none
deriving DecidableEq, Repr, Inhabited

/-- Items that one instruction stores into a list. -/
def Limits.listBlock : Nat := 50

/-- The longest chain of index handlers that is followed. -/
def Limits.handlerChain : Nat := 100

/-- Frames that a traceback shows before it leaves out the middle. -/
def Limits.tracebackLevels : Nat := 20

/-- `unpack` gives fewer values than this. -/
def Limits.unpack : Nat := 8000

end LuaMachine
