import LuaMachine.Library.Base
import LuaMachine.Library.Coroutine

namespace LuaMachine.Library

/-- An entry of a module: a function or a value. -/
inductive Entry
  | function (body : Builtin)
  | globals
  | text (s : String)
deriving DecidableEq, Repr

/-- Whether an entry is a function. -/
def Entry.isFunction : Entry → Bool
  | function _ => true
  | _ => false

/-- A named table of entries. -/
structure Module where
  name : String
  entries : List (String × Entry)
deriving DecidableEq, Repr

/-- The name of the module whose entries are globals themselves. -/
def globalsName : String := "_G"

/-- The base library. -/
def baseModule : Module where
  name := globalsName
  entries :=
    ([.assert, .error, .pcall, .next, .pairs, .ipairs, .select, .type, .tostring, .tonumber, .rawget,
      .rawset, .rawequal, .setmetatable, .getmetatable, .unpack, .print].map
        fun (f : BaseFunction) => (f.name, .function (.base f))) ++
      [(globalsName, .globals), ("_VERSION", .text "Lua 5.1")]

/-- The coroutine library. -/
def coroutineModule : Module where
  name := "coroutine"
  entries := [.create, .resume, .yield, .status, .wrap, .running, .wait].map
    fun (f : CoroutineFunction) => (f.name, .function (.coroutine f))

/-- Which libraries to open. -/
inductive Selection
  | base | coroutine | all
deriving DecidableEq, Repr

/-- The modules of a selection, in the order they are opened. -/
def Selection.modules : Selection → List Module
  | base => [baseModule]
  | coroutine => [coroutineModule]
  | all => [baseModule, coroutineModule]

/-- The module with a name among the selected ones. -/
def Selection.module? (s : Selection) (name : String) : Option Module :=
  s.modules.find? (·.name == name)

end LuaMachine.Library

namespace LuaMachine.Machine

/-- The value of a library entry; functions get a new object with a name for messages. -/
def entryValue (m : Machine) (name : String) : Library.Entry → Machine × Value
  | .function body =>
    let (m, id) := m.addNative ⟨name, body⟩
    (m, .native id)
  | .globals => (m, .table m.globals)
  | .text s => (m, .str s)

/-- Opens a module: entries of the globals module become globals, any other one a global table. -/
def openModule (m : Machine) (module : Library.Module) : Machine :=
  if module.name == Library.globalsName then
    module.entries.foldl (fun m (name, entry) =>
      let (m, v) := m.entryValue name entry
      m.setGlobal name v) m
  else
    let (m, id) := m.addTable (Table.new 0 module.entries.length)
    let m := module.entries.foldl (fun m (name, entry) =>
      let (m, v) := m.entryValue (module.name ++ "." ++ name) entry
      m.setStr id name v []) m
    m.setGlobal module.name (.table id)

/-- Opens the selected libraries. -/
def openLibraries (m : Machine) (selection : Library.Selection) : Machine :=
  selection.modules.foldl openModule m

/-- A machine with an empty globals table, registry and default group. -/
def new (limits : Limits) : Machine where
  limits := limits
  tables := #[Table.new 0 32, Table.new 0 4]
  groups := #[{}]
  schedule := [⟨0⟩]

/-- The group that exists from the start. -/
def defaultGroup : GroupId := ⟨0⟩

/-- Adds a group, which the common update ticks last. -/
def newGroup (m : Machine) : Machine × GroupId :=
  let id : GroupId := ⟨m.groups.size⟩
  ({ m with groups := m.groups.push {}, schedule := m.schedule ++ [id] }, id)

/-- Makes a global function that starts threads in the default group. -/
def registerSpawn (m : Machine) (name : String) : Machine :=
  let (m, id) := m.addNative ⟨name, .spawn name⟩
  m.setGlobal name (.native id)

/-- Starts a thread in a group. -/
def spawn (m : Machine) (g : GroupId) (f : Value) (args : Values) : Machine × ThreadId :=
  let (m, id) := m.newThread f args
  (m.addToGroup g id, id)

end LuaMachine.Machine
