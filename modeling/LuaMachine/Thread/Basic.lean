import LuaMachine.Thread.Frame

namespace LuaMachine

/-- Where a thread is in its life. -/
inductive Status
  /-- Its start function has not been called. -/
  | initial
  | running
  /-- It yielded or met its frame limit. -/
  | suspended
  /-- It resumed another thread and waits for it. -/
  | normal
  /-- An error ended its last resume; frames below remain. -/
  | endCall
  | dead
deriving DecidableEq, Repr, Inhabited

/-- The name of a status for the host. -/
def Status.label : Status → String
  | initial => "Initial"
  | running => "Running"
  | suspended => "Suspended"
  | normal => "Normal"
  | endCall => "EndCall"
  | dead => "Dead"

/-- The name of a status for programs. -/
def Status.name : Status → String
  | initial => "suspended"
  | suspended => "suspended"
  | running => "running"
  | normal => "normal"
  | endCall => "dead"
  | dead => "dead"

/-- Whether the thread is in the middle of a resume or call. -/
def Status.isActive : Status → Bool
  | running => true
  | normal => true
  | _ => false

/-- Whether a resume would run the thread. -/
def Status.isResumable : Status → Bool
  | initial => true
  | suspended => true
  | _ => false

/-- A thread: its frames and what its next resume does. -/
structure Thread where
  number : Nat
  status : Status := .initial
  /-- The frames, the innermost first. -/
  frames : List Frame := []
  /-- The number of frames. -/
  depth : Nat := 0
  /-- Resumes to skip. -/
  sleep : Nat := 0
  /-- The function and arguments that the next resume starts with. -/
  start : Option (Value × Values) := none
  /-- The start function was a native one that yielded: the next resume gives its results. -/
  hostReturnPending : Bool := false
  yielded : Values := []
  /-- Nested calls from native code in progress. -/
  nativeDepth : Nat := 0
  /-- Instructions run since the last resume began. -/
  instructions : Nat := 0
deriving Inhabited

namespace Thread

/-- One more instruction is run. -/
def counted (t : Thread) : Thread := { t with instructions := t.instructions + 1 }

/-- One more instruction is run, and the innermost frame stands at `pc`. -/
def movedTo (t : Thread) (pc : Nat) : Thread :=
  match t with
  | { frames := top :: rest, .. } =>
    { t with frames := { top with pc } :: rest, instructions := t.instructions + 1 }
  | _ => t.counted

end Thread

end LuaMachine
