import LuaMachine.Library.Arguments
import LuaMachine.Machine.References

namespace LuaMachine.Machine

/-- An integer given as an argument; zero for anything else. -/
def integerArg (args : Values) (i : Nat) : Int := ((Values.arg args i).toInteger?.getD 0).toInt

/-- Runs a host operation on a thread. Its arguments are kept while a handler runs; a concatenation keeps only
those that it has not joined yet. -/
def hostOperation (m : Machine) (t : ThreadId) (op : HostOperation) (args : Values) : Machine × Signal :=
  let arg := Values.arg args
  let th := m.thread t
  match op with
  | .echo => (m, .values args)
  | .nothing => (m, .values [])
  | .count => (m, .values [.int (Int64.ofNat args.length)])
  | .yield => m.yieldNow t args
  | .fail => (m, .error (.ofValue (arg 0)))
  | .failAt => (m, .error (th.errorHere (arg 0).text))
  | .failFatal => (m, .error (.corrupted (.reported "host")))
  | .escapeYield => (m, .error .yield)
  | .call => m.beginCall t (arg 0) (args.drop 1) []
  | .traceback => (m, .values [.str th.traceback])
  | .position => (m, .values [.str (th.position (integerArg args 0).toNat)])
  | .depth => (m, .values [.int (Int64.ofNat th.depth)])
  | .threadNumber => (m, .values [.int (Int64.ofNat th.number)])
  | .status => (m, .values [.str (th.status.label ++ "/" ++ th.status.name)])
  | .sleep =>
    -- ticks are counted in 32 bits
    let ticks := UInt32.ofInt (integerArg args 0)
    (m.modifyThread t fun th => { th with sleep := ticks.toNat }, .values [])
  | .destroy => (m.destroyThread t, .values [])
  | .jump =>
    match m.jumpThread t (arg 0) (args.drop 1) with
    | .ok m => (m, .values [])
    | .error e => (m, .error e)
  | .resume => (m.push .forget).beginResume t none args
  | .references => (m, .values [.int (Int64.ofNat (m.references (arg 0)).length)])
  | .index => m.attempt t (m.index t (arg 0) (arg 1)) args
  | .setIndex =>
    let (m, a) := m.setIndex t (arg 0) (arg 1) (arg 2)
    m.attempt t a args
  | .arith =>
    match arg 0 with
    | .str name =>
      match ArithOp.ofName? name with
      | some op => m.attempt t (m.arith t op (arg 1) (arg 2)) args
      | none => (m, .error (.ofText ("unknown operation " ++ name)))
    | v => (m, .error (.ofText ("unknown operation " ++ v.text)))
  | .equal => m.attempt t (m.equal (arg 0) (arg 1)) args
  | .lessThan => m.attempt t (m.lessThan t (arg 0) (arg 1)) args
  | .lessEqual => m.attempt t (m.lessEqual t (arg 0) (arg 1)) args
  | .concat => m.continueJoin t args.reverse []
  | .length => m.attempt t (m.lengthOf t (arg 0)) args
  | .tostring => m.attempt t (m.toText (arg 0) []) args
  | .metamethod =>
    match arg 1 with
    | .str event => (m, .values [m.metamethod (arg 0) event args])
    | _ => (m, .values [.nil])

/-- The number of threads of a group, as a result. -/
def groupSizeSignal (m : Machine) (g : GroupId) : Signal :=
  .values [.int (Int64.ofNat (m.group g).threads.length)]

/-- Runs an action on a group, which gives the group's size afterwards. The arguments are kept meanwhile. -/
def groupAction (m : Machine) (g : GroupId) (action : GroupAction) (args : Values) : Machine × Signal :=
  match action with
  | .update => (m.push (.groupSize g args)).beginUpdate g
  | .suspend =>
    let m := m.modifyGroup g fun group => { group with suspended := true }
    (m, m.groupSizeSignal g)
  | .resume =>
    let m := m.modifyGroup g fun group => { group with suspended := false }
    (m, m.groupSizeSignal g)
  | .destroy =>
    let m := m.destroyGroup g
    (m, m.groupSizeSignal g)

/-- Starts a thread in a group for a program. -/
def spawnFrom (m : Machine) (t : ThreadId) (name : String) (g : GroupId) (args : Values) :
    Except Error Effect := do
  let f ← m.requireArg t args 1 name
  return fun m =>
    let (m, id) := m.newThread f (args.drop 1)
    (m.addToGroup g id, .values [.thread id])

end LuaMachine.Machine
