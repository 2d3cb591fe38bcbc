import LuaMachine.Value.Basic

namespace LuaMachine

/-- How the bookkeeping of frames can be found broken. -/
inductive Corruption
  | noActiveFrame
  | popOnEmpty
  | nestedCallSuspended
  | hostReturnDelivered
  | noPendingCall
  | yieldEscaped
  | reported (what : String)
deriving DecidableEq, Repr

/-- What is broken, in words. -/
def Corruption.message : Corruption → String
  | noActiveFrame => "no active frame"
  | popOnEmpty => "pop on empty call stack"
  | nestedCallSuspended => "nested call suspended"
  | hostReturnDelivered => "host return delivered to a frame"
  | noPendingCall => "no pending call to complete"
  | yieldEscaped => "yield escaped the interpreter"
  | reported what => what

/-- Failures that no program can catch: the thread they happen on is finished. -/
inductive Fatal
  | instructionFuse (limit : Nat)
  | badProgramCounter (pc : Nat)
  | invalidOpcode (op : Nat)
  | corruptedStack (what : Corruption)
deriving DecidableEq, Repr

/-- The failure in words, as a host reads it. -/
def Fatal.message : Fatal → String
  | instructionFuse limit =>
    "instruction limit exceeded (" ++ Number.intText limit ++ " instructions)"
  | badProgramCounter pc => "program counter out of range (" ++ Number.intText pc ++ ")"
  | invalidOpcode op => "invalid opcode " ++ Number.intText op
  | corruptedStack what => "corrupted call stack: " ++ what.message

/-- An error that a program raised: the value, and where it happened. -/
structure Raised where
  value : Value
  traceback : Option String := none
  /-- The number of the thread it was raised on. -/
  thread : Option Nat := none
deriving DecidableEq

/-- How running can stop short of a result. -/
inductive Error
  | raised (e : Raised)
  | yield
  | fatal (f : Fatal)
deriving DecidableEq

namespace Error

/-- An error with a value, without a place. -/
def ofValue (v : Value) : Error := .raised { value := v }

/-- An error whose value is a text. -/
def ofText (message : String) : Error := ofValue (.str message)

/-- The fatal error of broken bookkeeping. -/
def corrupted (what : Corruption) : Error := .fatal (.corruptedStack what)

/-- The raised value, or a text for the other failures. -/
def value : Error → Value
  | raised e => e.value
  | yield => .str "attempt to yield"
  | fatal f => .str f.message

/-- The message of a failure. -/
def message : Error → String
  | raised e =>
    match e.value with
    | .str s => s
    | .nil => "nil"
    | v => "(error object is a " ++ v.typeName ++ " value)"
  | yield => "attempt to yield"
  | fatal f => "fatal: " ++ f.message

/-- The message and, on a line of its own, the traceback. -/
def report : Error → String
  | raised ⟨v, some trace, n⟩ => message (.raised ⟨v, some trace, n⟩) ++ "\n" ++ trace
  | e => e.message

end Error

end LuaMachine
