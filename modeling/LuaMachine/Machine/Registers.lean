import LuaMachine.Machine.Lifetime

namespace LuaMachine

/-- The registers with at least `size` places, new ones nil. -/
def growTo (registers : Array Value) (size : Nat) : Array Value :=
  registers ++ Array.replicate (size - registers.size) .nil

/-- Writes a register, making room for it: a register beyond the end of its file reads as nil. -/
def writeAt (registers : Array Value) (i : Nat) (v : Value) : Array Value :=
  if i < registers.size then registers.setIfInBounds i v
  else (growTo registers (i + 1)).setIfInBounds i v

/-- Writes values into consecutive registers that exist. -/
def writeRow (registers : Array Value) (start : Nat) : Values → Array Value
  | [] => registers
  | v :: rest => writeRow (registers.setIfInBounds start v) (start + 1) rest

namespace Machine

/-- A register; those that were never written are nil. -/
def register (m : Machine) (file : FileId) (i : Nat) : Value := (m.file file)[i]?.getD .nil

/-- Replaces a register file by its image under `f`. -/
def modifyFile (m : Machine) (file : FileId) (f : Array Value → Array Value) : Machine :=
  { m with files := modifyAt m.files file.index f }

/-- Overwrites a register. -/
def setRegister (m : Machine) (file : FileId) (i : Nat) (v : Value) : Machine :=
  m.modifyFile file fun registers => writeAt registers i v

/-- The value of a captured variable. -/
def cellValue (m : Machine) (id : CellId) : Value :=
  match m.cell id with
  | .onStack file i => m.register file i
  | .closed v => v

/-- Writes through a cell. -/
def setCellValue (m : Machine) (id : CellId) (v : Value) : Machine :=
  match m.cell id with
  | .onStack file i => m.setRegister file i v
  | .closed _ => m.setCell id (.closed v)

/-- The register that an open cell stands for. -/
def openRegister? (m : Machine) (id : CellId) : Option Nat :=
  match m.cell id with
  | .onStack _ i => some i
  | .closed _ => none

/-- Copies the register's value into the cell and detaches it. -/
def closeCell (m : Machine) (id : CellId) : Machine := m.setCell id (.closed (m.cellValue id))

/-- Closes the cells at register `start` or above; the cells below it stay open. -/
def closeCells (m : Machine) (start : Nat) : List CellId → Machine × List CellId
  | [] => (m, [])
  | id :: rest =>
    match m.openRegister? id with
    | none => closeCells m start rest
    | some i =>
      if start ≤ i then closeCells (m.closeCell id) start rest
      else
        let (m, kept) := closeCells m start rest
        (m, id :: kept)

/-- The innermost frame of a thread. -/
def topFrame? (m : Machine) (t : ThreadId) : Option Frame := (m.thread t).frames.head?

/-- Changes the innermost frame of a thread. -/
def modifyTop (m : Machine) (t : ThreadId) (f : Frame → Frame) : Machine :=
  m.modifyThread t fun th =>
    match th with
    | { frames := top :: rest, .. } => { th with frames := f top :: rest }
    | _ => th

/-- The open cell of a register of the innermost frame, made on first capture. -/
def captureRegister (m : Machine) (t : ThreadId) (top : Frame) (i : Nat) : Machine × CellId :=
  match top.openCells.find? fun id => m.openRegister? id == some i with
  | some id => (m, id)
  | none =>
    let (m, id) := m.addCell (.onStack top.file i)
    (m.modifyTop t fun f => { f with openCells := f.openCells ++ [id] }, id)

/-- Closes the cells of the innermost frame at register `start` or above. -/
def closeTopCells (m : Machine) (t : ThreadId) (start : Nat) : Machine :=
  match m.topFrame? t with
  | none => m
  | some top =>
    let (m, kept) := m.closeCells start top.openCells
    m.modifyTop t fun f => { f with openCells := kept }

end Machine

end LuaMachine
