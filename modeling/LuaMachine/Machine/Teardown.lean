import LuaMachine.Machine.References
import LuaMachine.Machine.Call

namespace LuaMachine.Machine

/-- The objects that can be reached from some values, each once. -/
def reachable (m : Machine) : Nat → Values → List Ref → List Ref
  | 0, _, seen => seen
  | _, [], seen => seen
  | fuel + 1, v :: pending, seen =>
    match v.ref? with
    | none => reachable m fuel pending seen
    | some r =>
      if seen.contains r then reachable m fuel pending seen
      else reachable m fuel (m.references v ++ pending) (r :: seen)

/-- An upper bound on the references between all objects. -/
def referenceCount (m : Machine) : Nat :=
  let all : Values :=
    (List.range m.tables.size).map (fun i => .table ⟨i⟩) ++
      (List.range m.closures.size).map (fun i => .closure ⟨i⟩) ++
      (List.range m.userdata.size).map (fun i => .userdata ⟨i⟩) ++
      (List.range m.threads.size).map (fun i => .thread ⟨i⟩)
  all.foldl (fun n v => n + (m.references v).length) 0

/-- Empties what one object holds. -/
def dismantle (m : Machine) : Ref → Machine
  | .closure id => (m.closure id).cells.foldl (fun m cell => m.setCellValue cell .nil) m
  | .table id => m.modifyTable id fun _ => Table.new 0 0
  | _ => m

/-- Closes the machine: reachable threads end, captured variables become nil, tables empty. -/
def close (m : Machine) : Machine :=
  let starts : Values :=
    .table m.globals :: .table m.registry :: m.stringMetatable.toList.map .table
  let found := m.reachable (m.referenceCount + starts.length + 1) starts []
  let m := { m with stringMetatable := none }
  let m := found.foldl (fun m r =>
    match r with
    | .thread id => if m.isBusy id then m else m.destroyThread id
    | _ => m) m
  found.foldl dismantle m

/-- Ends all scheduled groups and closes the machine. -/
def destroyAll (m : Machine) : Machine :=
  let groups := m.schedule
  let m := { m with schedule := [] }
  (groups.foldl destroyGroup m).close

end LuaMachine.Machine
