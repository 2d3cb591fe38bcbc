import LuaMachine.External
import LuaMachine.Machine.References

namespace LuaMachine

/-- A machine and what its host keeps of it. -/
structure Session where
  machine : Machine
  handles : List (String × Value) := []
  /-- Values that are watched but not kept. -/
  watched : List (String × Value) := []
  names : ExternalNames := {}
  /-- Values that the work at hand keeps. -/
  inUse : Values := []

namespace Session

/-- What a host keeps alive: the values with handles, the named objects, and those that it works with. -/
def kept (handles : List (String × Value)) (names : ExternalNames) (inUse : Values) : Values :=
  handles.map (·.2) ++ names.byName.map (·.2) ++ inUse

/-- The machine, which knows what the host keeps. -/
def current (s : Session) : Machine :=
  { s.machine with held := kept s.handles s.names s.inUse, inUse := [] }

/-- Works on the machine, which knows what the host keeps and is nobody else's meanwhile. -/
def update (s : Session) (f : Machine → Machine × α) : Session × α :=
  let ⟨machine, handles, watched, names, inUse⟩ := s
  let (machine, result) := f { machine with held := kept handles names inUse, inUse := [] }
  (⟨machine, handles, watched, names, inUse⟩, result)

/-- Keeps a value under a name, in place of the one before. -/
def hold (s : Session) (name : String) (v : Value) : Session :=
  { s with handles := (name, v) :: s.handles.filter (·.1 != name) }

/-- Lets go of the value with a name. -/
def release (s : Session) (name : String) : Session :=
  { s with handles := s.handles.filter (·.1 != name) }

/-- The value kept under a name. -/
def handle? (s : Session) (name : String) : Option Value := s.handles.lookup name

/-- Watches a value under a name, in place of the one before. -/
def watch (s : Session) (name : String) (v : Value) : Session :=
  { s with watched := (name, v) :: s.watched.filter (·.1 != name) }

/-- A watched value, and whether it still exists. -/
def watched? (s : Session) (name : String) : Option (Value × Bool) :=
  (s.watched.lookup name).map fun v => (v, s.current.isAlive v)

/-- How often each named object occurs among some values, in order of the names. -/
def occurrences (s : Session) (vs : Values) : List (String × Nat) :=
  let counted := s.handles.map fun (name, held) =>
    (name, (vs.filter fun v => held.isObject && v.ref? = held.ref?).length)
  (counted.filter fun (_, n) => n ≠ 0).mergeSort fun a b => !(b.1 < a.1)

end Session

end LuaMachine
