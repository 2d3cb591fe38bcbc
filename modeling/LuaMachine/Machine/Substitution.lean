import LuaMachine.Machine.References

namespace LuaMachine.Machine

/-- The tables among some values. -/
def tablesAmong (vs : Values) : List TableId :=
  vs.filterMap fun
    | .table t => some t
    | _ => none

/-- Replaces a value in one entry of a table. Gives the number of replacements and the tables in the new
entry. -/
def substituteEntry (m : Machine) (id : TableId) (source target key value : Value) (inUse : Values) :
    Machine × Nat × List TableId :=
  let newKey := if key.rawEqual source then target else key
  let newValue := if value.rawEqual source then target else value
  let keyChanged := !newKey.rawEqual key
  let valueChanged := !newValue.rawEqual value
  let inUse := source :: target :: key :: value :: inUse
  let m :=
    if keyChanged then
      let ctx := m.context id inUse
      m.modifyTable id fun t => (t.remove ctx key).1
    else m
  let m :=
    if keyChanged || valueChanged then
      -- a key that cannot be stored drops the entry
      match Table.normalizeKey newKey with
      | .ok newKey => m.storeKey id newKey newValue inUse
      | .error _ => m
    else m
  (m, keyChanged.toNat + valueChanged.toNat, tablesAmong [newKey, newValue])

/-- Replaces a value in entries of a table one after the other. The tables in the new entries are put in front
of `pending`. -/
def substituteEntries (id : TableId) (source target : Value) (held : Values) :
    Machine → Nat → List TableId → List (Value × Value) → Machine × Nat × List TableId
  | m, count, pending, [] => (m, count, pending)
  | m, count, pending, (key, value) :: rest =>
    -- only a weak table asks what is in use
    let inUse :=
      if (m.table id).mode.isWeak then pending.map .table ++ (rest.flatMap fun (k, v) => [k, v]) ++ held
      else []
    let (m, n, tables) := m.substituteEntry id source target key value inUse
    substituteEntries id source target held m (count + n) (tables.reverse ++ pending) rest

/-- Replaces a value as the metatable of a table. A replacement that is no table removes the metatable. Gives
the number of replacements and the metatable to look at next. -/
def substituteMetatable (m : Machine) (id : TableId) (source target : Value) (pending : List TableId) :
    Machine × Nat × List TableId :=
  match (m.table id).metatable with
  | none => (m, 0, [])
  | some old =>
    if (Value.table old).rawEqual source then
      let inUse := .table old :: source :: target :: pending.map .table
      let replacement := (tablesAmong [target]).head?
      let mode := match replacement with
        | some t => if t = id then (m.table id).mode else (m.table t).requestedMode (m.context t inUse)
        | none => (m.table id).mode
      (m.installMetatable id replacement mode inUse, 1, replacement.toList)
    else (m, 0, [old])

/-- Works through pending tables, each once, counting the replacements. -/
def substituteFrom (source target : Value) : Nat → Machine → List TableId → List TableId → Nat → Machine × Nat
  | 0, m, _, _, count => (m, count)
  | _, m, [], _, count => (m, count)
  | fuel + 1, m, id :: pending, seen, count =>
    if seen.contains id then substituteFrom source target fuel m pending seen count
    else
      let held := source :: target :: (m.table id).metatable.toList.map .table
      let waiting : Values := if (m.table id).mode.isWeak then pending.map .table else []
      let entries := m.entries id (held ++ waiting)
      let (m, count, pending) := substituteEntries id source target held m count pending entries
      let (m, n, next) := m.substituteMetatable id source target pending
      substituteFrom source target fuel m (next ++ pending) (id :: seen) (count + n)

/-- An upper bound on the tables that a substitution comes across, repeated ones included. -/
def substitutionBound (m : Machine) : Nat :=
  m.tables.foldl (fun n t => n + 2 * (t.array.size + t.part.nodes) + 1) 2

/-- Replaces `source` by `target` as key, value or metatable in `root` and every table that can be reached
from it through tables, and counts the replacements. -/
def substitute (m : Machine) (root : TableId) (source target : Value) : Machine × Nat :=
  substituteFrom source target m.substitutionBound m [root] [] 0

end LuaMachine.Machine
