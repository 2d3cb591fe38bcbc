import LuaMachine.Thread.Basic
import LuaMachine.Builtin
import LuaMachine.Limits
import LuaMachine.Error

namespace LuaMachine

/-- An ordered set of threads that are ticked together. -/
structure Group where
  threads : List ThreadId := []
  suspended : Bool := false
  destroyed : Bool := false
  /-- Whether its reports keep the values of errors alive. -/
  keepsErrors : Bool := false
deriving DecidableEq, Repr, Inhabited

/-- An error that a group's tick met. -/
structure Report where
  group : GroupId
  /-- The number of the failing thread. -/
  thread : Nat
  error : Error
deriving DecidableEq

/-- How the results of a handler are read. -/
inductive Reading
  | first | nothing | truth | falsity
deriving DecidableEq, Repr

/-- The values that an operation gives when its handler returned `vs`. -/
def Reading.apply : Reading → Values → Values
  | first, vs => [vs.first]
  | nothing, _ => []
  | truth, vs => [.bool vs.first.isTruthy]
  | falsity, vs => [.bool !vs.first.isTruthy]

/-- The code that an interpreter works on: a closure, a register file, and the index of the next
instruction. The frame it was entered through may be gone before the interpreter looks at it again. -/
structure Window where
  closure : ClosureId
  file : FileId
  pc : Nat
deriving DecidableEq, Repr

/-- What an interpreter does with the values that it waits for. -/
inductive Sequel
  /-- Nothing. -/
  | discard
  /-- The first one goes into a register. -/
  | store (register : Nat)
  /-- The next instruction is skipped unless the first one is as expected. -/
  | branch (expected : Bool)
  /-- A native function called by an instruction returns them. The values in `held` are kept alive. -/
  | deliver (target : ReturnTarget) (held : Values)
  /-- A native function called in tail position returns them from the frame. The values in `held` are kept alive. -/
  | leave (held : Values)
deriving DecidableEq

/-- Where an interpreter is. -/
inductive Stage
  /-- It is about to look up the innermost frame. -/
  | entering
  /-- It is about to run an instruction. -/
  | running (w : Window)
  /-- It waits for the outcome of an instruction. -/
  | waiting (w : Window) (sequel : Sequel)
deriving DecidableEq

/-- Runs instructions of a thread until its frames are back at `floor`; `limit` bounds the depth of calls. -/
structure Interpreter where
  thread : ThreadId
  floor : Nat
  limit : Option Nat
  stage : Stage := .entering
deriving DecidableEq

/-- Work that waits for the work above it on the machine's stack. Values in `held` are kept alive. -/
inductive Activation
  /-- Instructions run. -/
  | interpret (i : Interpreter)
  /-- Reads the results of a handler. -/
  | read (reading : Reading)
  /-- Joins the values in `left`, the last first, with the result of a handler. -/
  | concat (thread : ThreadId) (left held : Values)
  /-- Native code called a function; a closure's frames are cut back to `floor` on an error, and an idle
  thread gets its status back. -/
  | endCall (thread : ThreadId) (floor : Option Nat) (previous : Option Status) (held : Values)
  /-- A thread's start function is a native one. -/
  | startedNative (thread : ThreadId) (held : Values)
  /-- A thread is being resumed. -/
  | endResume (thread : ThreadId) (floor : Nat) (held : Values)
  /-- A protected call. -/
  | protect
  /-- `print` has the texts in `shown`, the last first, of its arguments. -/
  | print (thread : ThreadId) (shown : List String) (args : Values)
  /-- A thread resumed another one and takes its status back afterwards. -/
  | resumed (thread : ThreadId) (previous : Status) (wrapped : Bool) (target : ThreadId)
  /-- Only a failure is of interest. -/
  | forget
  /-- A group that had the threads in `members` ticks a thread and has the threads in `rest` to go. -/
  | tick (group : GroupId) (members : List ThreadId) (thread : ThreadId) (rest : List ThreadId)
  /-- A program updated a group and gets its size. -/
  | groupSize (group : GroupId) (held : Values)
  /-- Groups that are still to be updated. -/
  | updateGroups (rest : List GroupId)
deriving DecidableEq

/-- What a piece of work hands to the one below it. -/
inductive Signal
  /-- Nothing: the interpreter goes on. -/
  | go
  /-- A native function is about to run. -/
  | invoke (thread : ThreadId) (native : NativeId) (args : Values)
  /-- A call returned, or a thread's start function did. -/
  | values (vs : Values)
  /-- A thread yielded. -/
  | yielded (vs : Values)
  /-- A resume met its frame limit. -/
  | frameLimit
  /-- A resume was skipped. -/
  | sleeping
  | error (e : Error)
deriving DecidableEq

/-- The thread that an activation keeps busy. -/
def Activation.thread? : Activation → Option ThreadId
  | .endCall thread .. => some thread
  | .endResume thread .. => some thread
  | _ => none

/-- The code that an interpreter works on, once it has looked it up. -/
def Stage.window? : Stage → Option Window
  | .entering => none
  | .running w => some w
  | .waiting w _ => some w

/-- Whether an activation works on a register file. -/
def Activation.uses (file : FileId) : Activation → Bool
  | .interpret i => i.stage.window?.any fun w => w.file = file
  | _ => false

end LuaMachine
