import LuaMachine.Machine.Activation

namespace LuaMachine

/-- Replaces the element at a place by its image under `f`, if there is one. A call of its own, so that a machine
takes the new array in place. -/
@[noinline]
def modifyAt (xs : Array α) (i : Nat) (f : α → α) : Array α := xs.modify i f

/-- Everything that running changes. Objects never move: an identifier is a place in the array of its
kind. -/
structure Machine where
  limits : Limits := {}
  /-- How the tables hash their keys. -/
  hash : Value → UInt64 := Value.hashCode
  tables : Array Table := #[]
  closures : Array Closure := #[]
  natives : Array Native := #[]
  userdata : Array Userdata := #[]
  threads : Array Thread := #[]
  cells : Array Cell := #[]
  files : Array (Array Value) := #[]
  globals : TableId := ⟨0⟩
  registry : TableId := ⟨1⟩
  stringMetatable : Option TableId := none
  nextThreadNumber : Nat := 1
  groups : Array Group := #[]
  /-- The groups that a common update ticks, in order. -/
  schedule : List GroupId := []
  /-- The work in progress, the innermost first. -/
  stack : List Activation := []
  /-- Values that the host keeps alive. -/
  held : Values := []
  /-- Values that the native function at work holds. -/
  inUse : Values := []
  /-- Lines printed, the latest first. -/
  printed : List String := []
  /-- Errors that groups met, the latest first. -/
  reports : List Report := []
deriving Inhabited

namespace Machine

/-- The table with an identifier, an empty one if it names none. -/
def table (m : Machine) (id : TableId) : Table := m.tables[id.index]?.getD (Table.new 0 0)

/-- The closure with an identifier. -/
def closure (m : Machine) (id : ClosureId) : Closure := m.closures[id.index]?.getD default

/-- The native function with an identifier. -/
def native (m : Machine) (id : NativeId) : Native := m.natives[id.index]?.getD ⟨"", .host .nothing⟩

/-- The userdata with an identifier. -/
def userdatum (m : Machine) (id : UserdataId) : Userdata := m.userdata[id.index]?.getD default

/-- The thread with an identifier, a dead one if it names none. -/
def thread (m : Machine) (id : ThreadId) : Thread := m.threads[id.index]?.getD { number := 0, status := .dead }

/-- The cell with an identifier. -/
def cell (m : Machine) (id : CellId) : Cell := m.cells[id.index]?.getD (.closed .nil)

/-- The group with an identifier. -/
def group (m : Machine) (id : GroupId) : Group := m.groups[id.index]?.getD {}

/-- Replaces a table by its image under `f`. -/
def modifyTable (m : Machine) (id : TableId) (f : Table → Table) : Machine :=
  { m with tables := modifyAt m.tables id.index f }

/-- Replaces a thread by its image under `f`. -/
def modifyThread (m : Machine) (id : ThreadId) (f : Thread → Thread) : Machine :=
  { m with threads := modifyAt m.threads id.index f }

/-- Replaces a group by its image under `f`. -/
def modifyGroup (m : Machine) (id : GroupId) (f : Group → Group) : Machine :=
  { m with groups := modifyAt m.groups id.index f }

/-- Overwrites a cell. -/
def setCell (m : Machine) (id : CellId) (c : Cell) : Machine :=
  { m with cells := m.cells.setIfInBounds id.index c }

/-- Adds a table and names it. -/
def addTable (m : Machine) (t : Table) : Machine × TableId :=
  let place := m.tables.size
  ({ m with tables := m.tables.push t }, ⟨place⟩)

/-- Adds a closure and names it. -/
def addClosure (m : Machine) (c : Closure) : Machine × ClosureId :=
  let place := m.closures.size
  ({ m with closures := m.closures.push c }, ⟨place⟩)

/-- Adds a native function and names it. -/
def addNative (m : Machine) (n : Native) : Machine × NativeId :=
  let place := m.natives.size
  ({ m with natives := m.natives.push n }, ⟨place⟩)

/-- Adds a userdata and names it. -/
def addUserdata (m : Machine) (u : Userdata) : Machine × UserdataId :=
  let place := m.userdata.size
  ({ m with userdata := m.userdata.push u }, ⟨place⟩)

/-- Adds a cell and names it. -/
def addCell (m : Machine) (c : Cell) : Machine × CellId :=
  let place := m.cells.size
  ({ m with cells := m.cells.push c }, ⟨place⟩)

/-- Adds a register file and names it. -/
def addFile (m : Machine) (registers : Array Value) : Machine × FileId :=
  let place := m.files.size
  ({ m with files := m.files.push registers }, ⟨place⟩)

/-- A thread with the next number and nothing to do. -/
def addThread (m : Machine) : Machine × ThreadId :=
  let place := m.threads.size
  let number := m.nextThreadNumber
  ({ m with threads := m.threads.push { number }, nextThreadNumber := number + 1 }, ⟨place⟩)

/-- A thread that starts with `f` and `args`. -/
def newThread (m : Machine) (f : Value) (args : Values) : Machine × ThreadId :=
  let (m, id) := m.addThread
  (m.modifyThread id fun t => { t with start := some (f, args) }, id)

/-- A closure of a main chunk. -/
def load (m : Machine) (p : Prototype) : Machine × ClosureId :=
  m.addClosure ⟨p, [], m.globals⟩

/-- Puts work on the stack. -/
def push (m : Machine) (a : Activation) : Machine := { m with stack := a :: m.stack }

/-- Puts work in place of the innermost work. -/
def replaceTop (m : Machine) (a : Activation) : Machine := { m with stack := a :: m.stack.tail }

/-- Takes the innermost work from the stack. -/
def pop (m : Machine) : Machine := { m with stack := m.stack.tail }

/-- Whether a thread is in the middle of a resume or call, so that nobody else may touch it. -/
def isBusy (m : Machine) (id : ThreadId) : Bool :=
  m.stack.any fun a => a.thread? == some id

end Machine

end LuaMachine
