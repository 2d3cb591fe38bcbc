import LuaMachine.Machine.Frames

namespace LuaMachine

/-- The objects among some values. -/
def Values.objects (vs : Values) : Values := vs.filter Value.isObject

namespace Machine

/-- The entries of a table. -/
def entries (m : Machine) (id : TableId) (inUse : Values) : List (Value × Value) :=
  (m.table id).entries (m.context id inUse)

/-- What a table refers to: keys and values of its entries, then its metatable. -/
def tableReferences (m : Machine) (id : TableId) : Values :=
  ((m.entries id []).flatMap fun (k, v) => Values.objects [k, v]) ++
    (m.table id).metatable.toList.map .table

/-- What a closure refers to: its captured values, then its globals. -/
def closureReferences (m : Machine) (id : ClosureId) : Values :=
  let c := m.closure id
  Values.objects (c.cells.map m.cellValue) ++ [.table c.env]

/-- What a thread refers to: its start function and arguments, then frame by frame the closure, registers and
surplus arguments. -/
def threadReferences (m : Machine) (id : ThreadId) : Values :=
  let t := m.thread id
  (t.start.toList.flatMap fun (f, args) => Values.objects (f :: args)) ++
    t.frames.flatMap fun f =>
      .closure f.closure :: Values.objects (m.file f.file).toList ++ Values.objects f.varargs

/-- The objects that a value refers to directly; a busy thread shows none. -/
def references (m : Machine) : Value → Values
  | .table id => m.tableReferences id
  | .closure id => m.closureReferences id
  | .userdata id => (m.userdatum id).metatable.toList.map .table
  | .thread id => if m.isBusy id then [] else m.threadReferences id
  | _ => []

end Machine

end LuaMachine
