import LuaMachine.Machine.Basic

namespace LuaMachine

/-- Something that can hold objects and be held. -/
inductive Holder
  | object (r : Ref)
  | cell (id : CellId)
  | file (id : FileId)
deriving DecidableEq, Repr

namespace Holder

/-- The objects among some values. -/
def ofValues (vs : Values) : List Holder := vs.filterMap fun v => v.ref?.map object

/-- A table as a holder. -/
def ofTable (id : TableId) : Holder := object (.table id)

/-- A thread as a holder. -/
def ofThread (id : ThreadId) : Holder := object (.thread id)

end Holder

/-- What the hash part of a table holds. -/
def Table.HashPart.holds (p : Table.HashPart) : List Holder :=
  if p.nodes = 0 then []
  else p.buckets.toList.flatMap fun chain => chain.flatMap fun n => Holder.ofValues n.slot.strongValues

/-- What a table holds. -/
def Table.holds (t : Table) : List Holder :=
  let own := t.metatable.toList.map Holder.ofTable
  if t.array.isEmpty && t.part.nodes = 0 then own
  else Holder.ofValues t.array.toList ++ t.part.holds ++ own

/-- What a frame holds. -/
def Frame.holds (f : Frame) : List Holder :=
  .object (.closure f.closure) :: .file f.file :: Holder.ofValues f.varargs ++ f.openCells.map .cell

/-- What a thread holds. -/
def Thread.holds (t : Thread) : List Holder :=
  t.frames.flatMap Frame.holds ++
    (t.start.toList.flatMap fun (f, args) => Holder.ofValues (f :: args)) ++ Holder.ofValues t.yielded

/-- What a closure holds. -/
def Closure.holds (c : Closure) : List Holder := .ofTable c.env :: c.cells.map .cell

/-- What a userdata holds. -/
def Userdata.holds (u : Userdata) : List Holder := u.metatable.toList.map .ofTable

/-- What a captured variable holds. -/
def Cell.holds : Cell → List Holder
  | onStack file _ => [.file file]
  | closed v => Holder.ofValues [v]

/-- What a builtin holds. -/
def Builtin.holds : Builtin → List Holder
  | wrapped thread => [.ofThread thread]
  | _ => []

/-- What an interpreter works on. -/
def Window.holds (w : Window) : List Holder := [.object (.closure w.closure), .file w.file]

/-- What an interpreter keeps for the values that it waits for. -/
def Sequel.holds : Sequel → List Holder
  | deliver _ held => Holder.ofValues held
  | leave held => Holder.ofValues held
  | _ => []

/-- What an interpreter keeps alive. -/
def Stage.holds : Stage → List Holder
  | entering => []
  | running w => w.holds
  | waiting w sequel => w.holds ++ sequel.holds

/-- What work in progress keeps alive. -/
def Activation.holds : Activation → List Holder
  | interpret i => .ofThread i.thread :: i.stage.holds
  | concat thread left held => .ofThread thread :: Holder.ofValues (left ++ held)
  | endCall thread _ _ held => .ofThread thread :: Holder.ofValues held
  | startedNative thread held => .ofThread thread :: Holder.ofValues held
  | endResume thread _ held => .ofThread thread :: Holder.ofValues held
  | print thread _ args => .ofThread thread :: Holder.ofValues args
  | resumed thread _ _ target => [.ofThread thread, .ofThread target]
  | tick _ members _ _ => members.map .ofThread
  | groupSize _ held => Holder.ofValues held
  | _ => []

/-- The places of all holders in a row, sort by sort, the tables first: where each other sort starts, and how
many places there are. -/
structure Places where
  closures : Nat
  natives : Nat
  userdata : Nat
  threads : Nat
  cells : Nat
  files : Nat
  size : Nat

/-- The place of a holder. -/
def Places.of (p : Places) : Holder → Nat
  | .object (.table id) => id.index
  | .object (.closure id) => p.closures + id.index
  | .object (.native id) => p.natives + id.index
  | .object (.userdata id) => p.userdata + id.index
  | .object (.thread id) => p.threads + id.index
  | .cell id => p.cells + id.index
  | .file id => p.files + id.index

/-- The holder at a place. -/
def Places.holder (p : Places) (place : Nat) : Holder :=
  if place < p.closures then .object (.table ⟨place⟩)
  else if place < p.natives then .object (.closure ⟨place - p.closures⟩)
  else if place < p.userdata then .object (.native ⟨place - p.natives⟩)
  else if place < p.threads then .object (.userdata ⟨place - p.userdata⟩)
  else if place < p.cells then .object (.thread ⟨place - p.threads⟩)
  else if place < p.files then .cell ⟨place - p.cells⟩
  else .file ⟨place - p.files⟩

namespace Machine

/-- The places of all holders that were ever made. -/
def places (m : Machine) : Places :=
  let closures := m.tables.size
  let natives := closures + m.closures.size
  let userdata := natives + m.natives.size
  let threads := userdata + m.userdata.size
  let cells := threads + m.threads.size
  let files := cells + m.cells.size
  ⟨closures, natives, userdata, threads, cells, files, files + m.files.size⟩

/-- The registers of a frame. -/
def file (m : Machine) (id : FileId) : Array Value := m.files[id.index]?.getD #[]

/-- What a holder holds. -/
def holds (m : Machine) : Holder → List Holder
  | .object (.table id) => (m.table id).holds
  | .object (.closure id) => (m.closure id).holds
  | .object (.native id) => (m.native id).body.holds
  | .object (.userdata id) => (m.userdatum id).holds
  | .object (.thread id) => (m.thread id).holds
  | .cell id => (m.cell id).holds
  | .file id => Holder.ofValues (m.file id).toList

/-- The error values that reports keep alive. -/
def reportedValues (m : Machine) : Values :=
  (m.reports.filter fun r => (m.group r.group).keepsErrors).map (·.error.value)

/-- What the machine itself, its host and its work in progress hold, together with some values in use. -/
def roots (m : Machine) (inUse : Values) : List Holder :=
  [.ofTable m.globals, .ofTable m.registry] ++ m.stringMetatable.toList.map .ofTable ++
    Holder.ofValues (m.held ++ m.inUse ++ inUse ++ m.reportedValues) ++
    m.groups.toList.flatMap (fun g => g.threads.map .ofThread) ++ m.stack.flatMap Activation.holds

end Machine

/-- How often each holder is held, and which cells outlived the thread whose register they were. -/
structure Census where
  counts : Array Nat
  outlived : List CellId

namespace Census

/-- How often a holder is held. -/
def count (p : Places) (c : Census) (h : Holder) : Nat := c.counts[p.of h]?.getD 0

/-- Counts one more hold. -/
def add (p : Places) (c : Census) (h : Holder) : Census :=
  { c with counts := c.counts.modify (p.of h) (· + 1) }

/-- Counts more holds. -/
def addAll (p : Places) (c : Census) (hs : List Holder) : Census := hs.foldl (add p) c

/-- Counts what everything holds that was ever made. -/
def addHolds (m : Machine) (p : Places) (c : Census) : Census :=
  let c := m.tables.foldl (fun c t => c.addAll p t.holds) c
  let c := m.closures.foldl (fun c f => c.addAll p f.holds) c
  let c := m.natives.foldl (fun c f => c.addAll p f.body.holds) c
  let c := m.userdata.foldl (fun c u => c.addAll p u.holds) c
  let c := m.threads.foldl (fun c t => c.addAll p t.holds) c
  let c := m.cells.foldl (fun c cell => c.addAll p cell.holds) c
  m.files.foldl (fun c file => c.addAll p (Holder.ofValues file.toList)) c

/-- The holders that nothing holds. -/
def unheld (p : Places) (c : Census) : List Holder :=
  ((List.range p.size).filter fun place => c.counts[place]?.getD 0 = 0).map p.holder

/-- Takes one hold away; the second part says whether it was the last one. -/
def drop (p : Places) (c : Census) (h : Holder) : Census × Bool :=
  let last := c.count p h = 1
  ({ c with counts := c.counts.modify (p.of h) (· - 1) }, last)

/-- Takes holds away and collects the holders that nothing holds any more. -/
def dropAll (p : Places) (c : Census) (hs : List Holder) (gone : List Holder) : Census × List Holder :=
  hs.foldl (fun (c, gone) h =>
    let (c, last) := c.drop p h
    (c, if last then h :: gone else gone)) (c, gone)

/-- The registers that a thread's open cells stand for, as pairs of a cell and what it holds. -/
def openCells (m : Machine) (t : Thread) : List (CellId × FileId × Value) :=
  t.frames.flatMap fun f => f.openCells.filterMap fun id =>
    match m.cell id with
    | .onStack file register => some (id, file, (m.file file)[register]?.getD .nil)
    | .closed _ => none

/-- When a thread goes, its open cells keep their values and let go of its registers. -/
def detach (m : Machine) (p : Places) (c : Census) (t : Thread) : Census × List Holder :=
  (openCells m t).foldl (fun (c, gone) (id, file, v) =>
    let c := { c with outlived := id :: c.outlived }.addAll p (Holder.ofValues [v])
    c.dropAll p [.file file] gone) (c, [])

/-- What a holder holds, cells that outlived their thread holding a value only. -/
def holds (m : Machine) (c : Census) : Holder → List Holder
  | .cell id =>
    match m.cell id with
    | .onStack file register =>
      if c.outlived.contains id then Holder.ofValues [(m.file file)[register]?.getD .nil]
      else [.file file]
    | .closed v => Holder.ofValues [v]
  | h => m.holds h

/-- Lets go of everything that is no longer held, one holder at a time. -/
def settle (m : Machine) (p : Places) : Nat → List Holder → Census → Census
  | 0, _, c => c
  | _, [], c => c
  | fuel + 1, h :: gone, c =>
    let (c, freed) := match h with
      | .object (.thread id) => c.detach m p (m.thread id)
      | _ => (c, [])
    let (c, gone) := c.dropAll p (c.holds m h) (freed ++ gone)
    settle m p fuel gone c

/-- Counts who holds whom and lets go of what nothing holds. -/
def take (m : Machine) (inUse : Values) : Census :=
  let p := m.places
  let start : Census := ⟨Array.replicate p.size 0, []⟩
  let full := (start.addAll p (m.roots inUse)).addHolds m p
  settle m p (p.size + 1) (full.unheld p) full

/-- The census after an operation took some values and a table let go of others. -/
def after (m : Machine) (c : Census) (transit : Table.Transit) : Census :=
  let p := m.places
  let c := c.addAll p (Holder.ofValues transit.taken)
  let (c, gone) := c.dropAll p (Holder.ofValues transit.released) []
  settle m p (p.size + 1) gone c

/-- Whether an object still exists. It is gone once nothing holds it; objects that hold each other in a circle keep each
other, and weak entries of tables hold nothing. -/
def alive (p : Places) (c : Census) (r : Ref) : Bool := 0 < c.count p (.object r)

end Census

namespace Machine

/-- Whether a value still exists. -/
def isAlive (m : Machine) (v : Value) : Bool :=
  v.ref?.all fun r => (Census.take m []).alive m.places r

/-- What a table of this machine has to know, the table and some values being in use. Only a weak table asks
whether objects still exist, and the census is taken when it asks first. -/
def context (m : Machine) (id : TableId) (inUse : Values) : Table.Context :=
  if (m.table id).mode.isWeak then
    let census := Thunk.mk fun _ => Census.take m (.table id :: inUse)
    let places := m.places
    { hash := m.hash
      survives := fun transit r =>
        if transit.released.isEmpty then census.get.alive places r
        else (census.get.after m transit).alive places r }
  else .strong m.hash

/-- Reads a table without metamethods. -/
def rawGet (m : Machine) (id : TableId) (key : Value) (inUse : Values) : Value :=
  (m.table id).get (m.context id inUse) key

/-- Reads a text key of a table. -/
def getStr (m : Machine) (id : TableId) (key : String) (inUse : Values) : Value :=
  (m.table id).getStr (m.context id inUse) key

/-- Writes a table without metamethods under a key in stored form. -/
def storeKey (m : Machine) (id : TableId) (key value : Value) (inUse : Values) : Machine :=
  let ctx := m.context id (key :: value :: inUse)
  m.modifyTable id fun t => t.setNormal ctx key value

/-- Writes a table without metamethods. -/
def rawSet (m : Machine) (id : TableId) (key value : Value) (inUse : Values) :
    Except Table.Error Machine :=
  match Table.normalizeKey key with
  | .ok key => .ok (m.storeKey id key value inUse)
  | .error e => .error e

/-- Writes a text key of a table. -/
def setStr (m : Machine) (id : TableId) (key : String) (value : Value) (inUse : Values) : Machine :=
  let ctx := m.context id (value :: inUse)
  m.modifyTable id fun t => t.setStr ctx key value

/-- Installs or removes the metatable of a table together with a weak mode. The table lets go of the old
metatable before it is rebuilt. -/
def installMetatable (m : Machine) (id : TableId) (metatable : Option TableId) (mode : WeakMode)
    (inUse : Values) : Machine :=
  let m := m.modifyTable id fun t => { t with metatable }
  let ctx := m.context id inUse
  m.modifyTable id fun t => t.setMode ctx mode

/-- A global variable. -/
def getGlobal (m : Machine) (name : String) : Value := m.getStr m.globals name []

/-- Stores under a name in the table of globals. -/
def setGlobal (m : Machine) (name : String) (v : Value) : Machine := m.setStr m.globals name v []

end Machine

end LuaMachine
