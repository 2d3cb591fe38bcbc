import LuaMachine.Value.List

namespace LuaMachine

/-- Which parts of its entries a table holds weakly. -/
structure WeakMode where
  keys : Bool
  values : Bool
deriving DecidableEq, Repr, Inhabited

namespace WeakMode

/-- Everything is held. -/
def strong : WeakMode := ⟨false, false⟩

/-- The mode that a text names: the letters k and v, anywhere in it. -/
def parse (s : String) : WeakMode := ⟨s.toList.contains 'k', s.toList.contains 'v'⟩

/-- Whether anything is held weakly. -/
def isWeak (m : WeakMode) : Bool := m.keys || m.values

end WeakMode

namespace Table

/-- What an operation on a table has taken out and holds, and what the table let go of. -/
structure Transit where
  taken : Values := []
  released : Values := []
deriving DecidableEq, Inhabited

/-- What a table has to know of the world around it: how keys hash, and which objects still exist once an
operation has taken and released some values. -/
structure Context where
  hash : Value → UInt64
  survives : Transit → Ref → Bool
  /-- What the operation under way has taken and released so far. -/
  transit : Transit := {}

namespace Context

/-- Whether an object still exists. -/
def alive (ctx : Context) (r : Ref) : Bool := ctx.survives ctx.transit r

/-- Whether a value still exists; only objects can vanish. -/
def present (ctx : Context) (v : Value) : Bool := v.ref?.all ctx.alive

/-- The operation takes values out and holds them. -/
def take (ctx : Context) (vs : Values) : Context :=
  match vs.filter Value.isObject with
  | [] => ctx
  | objects => { ctx with transit := { ctx.transit with taken := objects ++ ctx.transit.taken } }

/-- The table lets go of values. -/
def release (ctx : Context) (vs : Values) : Context :=
  match vs.filter Value.isObject with
  | [] => ctx
  | objects => { ctx with transit := { ctx.transit with released := objects ++ ctx.transit.released } }

end Context

/-- A place of the hash part in use. A dead slot keeps its key for traversals. -/
inductive Slot
  | live (strength : WeakMode) (key value : Value)
  | dead (key : Value)
deriving DecidableEq

namespace Slot

/-- The key of a slot. -/
def key : Slot → Value
  | live _ key _ => key
  | dead key => key

/-- Whether the entry was removed. -/
def isDead : Slot → Bool
  | live .. => false
  | dead _ => true

/-- A live slot whose weak key or value no longer exists. -/
def isVanished (ctx : Context) : Slot → Bool
  | live strength key value =>
    (strength.keys && !ctx.present key) || (strength.values && !ctx.present value)
  | dead _ => false

/-- The key and value of a live slot that has not vanished. -/
def entry? (ctx : Context) : Slot → Option (Value × Value)
  | live strength key value =>
    if (live strength key value).isVanished ctx then none else some (key, value)
  | dead _ => none

/-- What a slot holds strongly. -/
def strongValues : Slot → Values
  | live strength key value =>
    (if strength.keys then [] else [key]) ++ (if strength.values then [] else [value])
  | dead _ => []

/-- What a slot holds weakly. -/
def weakValues : Slot → Values
  | live strength key value =>
    (if strength.keys then [key] else []) ++ (if strength.values then [value] else [])
  | dead _ => []

/-- Whether the slot belongs to `key`, dead or alive. -/
def holds (s : Slot) (key : Value) : Bool := s.key.rawEqual key

/-- The dead slot of the same key. -/
def kill (s : Slot) : Slot := dead s.key

/-- The slot with another value; a dead slot stays dead. -/
def setValue (s : Slot) (value : Value) : Slot :=
  match s with
  | live strength key _ => live strength key value
  | dead key => dead key

end Slot

end Table

end LuaMachine
