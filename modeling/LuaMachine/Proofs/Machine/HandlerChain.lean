import LuaMachine.Machine.Metamethod
import LuaMachine.Proofs.Machine.Heap

namespace LuaMachine

namespace Machine

/-- The values that an operation goes through: after each one comes its handler of the event. -/
def chain (m : Machine) (event : String) (inUse : Values) (obj : Value) : Nat → Value
  | 0 => obj
  | n + 1 => m.metamethod (m.chain event inUse obj n) event inUse

/-- A value leaves an operation on a key to the next value of the chain: it has no entry for the key, and its handler
is not a function. -/
structure Passes (m : Machine) (event : String) (key : Value) (inUse : Values) (v : Value) : Prop where
  noEntry : m.hasEntry v key inUse = false
  handled : (m.metamethod v event inUse).isNil = false
  noFunction : (m.metamethod v event inUse).isFunction = false

/-- What the lookup of a key comes to at the value that settles it. -/
inductive Finds (m : Machine) (t : ThreadId) (key : Value) (inUse : Values) : Value → Attempt → Prop
  /-- A table has an entry of its own. -/
  | entry {id : TableId} (hentry : m.hasEntry (.table id) key inUse = true) :
      Finds m t key inUse (.table id) (.done [m.rawGet id key inUse])
  /-- A function handles the lookup. -/
  | handler {v : Value} (hentry : m.hasEntry v key inUse = false)
      (hfunction : (m.metamethod v "__index" inUse).isFunction = true) :
      Finds m t key inUse v (.handler ⟨m.metamethod v "__index" inUse, [v, key], .first, inUse⟩)
  /-- A table has neither an entry nor a handler. -/
  | absent {id : TableId} (hentry : m.hasEntry (.table id) key inUse = false)
      (hnone : (m.metamethod (.table id) "__index" inUse).isNil = true) :
      Finds m t key inUse (.table id) (.done [.nil])
  /-- Anything else cannot be indexed without a handler. -/
  | refused {v : Value} (hkind : v.kind ≠ .table) (hnone : (m.metamethod v "__index" inUse).isNil = true) :
      Finds m t key inUse v (.fail (m.typeError t v "index"))

/-- A table takes an assignment to a key itself: it has an entry for the key, or no handler. -/
def Takes (m : Machine) (id : TableId) (key : Value) (inUse : Values) : Prop :=
  m.hasEntry (.table id) key inUse = true ∨ (m.metamethod (.table id) "__newindex" inUse).isNil = true

variable {m : Machine} {t : ThreadId} {event : String} {obj key value v : Value} {inUse held : Values}

section Chains

variable {α : Type} {follow : Nat → Value → α}

end Chains

section Kinds

end Kinds

section Lookups

variable {k : Nat}

end Lookups

section Assignments

variable {k : Nat}

end Assignments

section Inheriting

end Inheriting

end Machine

end LuaMachine
