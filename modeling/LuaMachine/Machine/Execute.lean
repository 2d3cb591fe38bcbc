import LuaMachine.Machine.Call
import LuaMachine.Instruction.Size

namespace LuaMachine

/-- How an instruction ends. -/
inductive Ending
  /-- The interpreter goes on at an instruction of the same function. -/
  | goOn (pc : Nat)
  /-- The interpreter goes on with the innermost frame. -/
  | enter
  /-- The interpreter waits for a handler. -/
  | handle (h : Handler) (sequel : Sequel)
  /-- The interpreter waits for values to be joined, the last one first in the list. -/
  | join (reversed : Values) (sequel : Sequel)
  /-- The interpreter waits for a native function. -/
  | invoke (native : NativeId) (args : Values) (sequel : Sequel)
  /-- The interpreter is done. -/
  | stop (s : Signal)

namespace Ending

/-- The interpreter fails. -/
def fail (e : Error) : Ending := .stop (.error e)

/-- The interpreter goes on with the innermost frame if there is nothing else to do. -/
def ofSignal : Signal → Ending
  | .go => .enter
  | s => .stop s

end Ending

namespace Machine

/-- The end of the open values of the innermost frame. -/
def openEnd (m : Machine) (t : ThreadId) : Nat := ((m.topFrame? t).map (·.top)).getD 0

/-- The value of an operand: a constant or a register. -/
def operand (m : Machine) (p : Prototype) (file : FileId) (x : UInt32) : Value :=
  if Instruction.isConstant x then p.constant (Instruction.constantIndex x)
  else m.register file x.toNat

/-- Moves the innermost frame to another instruction. -/
def setPc (m : Machine) (t : ThreadId) (pc : Nat) : Machine := m.modifyTop t fun f => { f with pc }

/-- The instruction `offset` behind `pc`, if there can be one. -/
def jumpTarget (pc : Nat) (offset : Int) : Except Error Nat :=
  let target := (pc : Int) + offset
  if target < 0 then .error (.fatal (.badProgramCounter pc)) else .ok target.toNat

/-- Jumps relative to the next instruction `pc`. -/
def jump (m : Machine) (pc : Nat) (offset : Int) : Machine × Ending :=
  match jumpTarget pc offset with
  | .ok target => (m, .goOn target)
  | .error e => (m, .fail e)

/-- Spends all instructions that a thread's fuse leaves, if it has one. -/
def spendFuse (m : Machine) (t : ThreadId) : Machine :=
  match m.limits.fuse with
  | some fuse => m.modifyThread t fun th => { th with instructions := max fuse th.instructions }
  | none => m

/-- Jumps relative to the next instruction `pc`. Nothing but the fuse ends a jump to itself, which otherwise
changes nothing, so it is spent at once. -/
def jumpFrom (m : Machine) (t : ThreadId) (pc : Nat) (offset : Int) : Machine × Ending :=
  if offset = -1 then (m.spendFuse t).jump pc offset else m.jump pc offset

/-- Goes on at `pc`, or behind it unless an outcome is as expected. -/
def branchTo (pc : Nat) (expected : Bool) (outcome : Value) : Ending :=
  .goOn (if outcome.isTruthy = expected then pc else pc + 1)

/-- Ends an instruction by an attempt whose result goes into a register. -/
def storeAttempt (m : Machine) (w : Window) (a : Nat) (attempt : Attempt) : Machine × Ending :=
  match attempt with
  | .done vs => (m.setRegister w.file a vs.first, .goOn w.pc)
  | .fail e => (m, .fail e)
  | .handler h => (m, .handle h (.store a))

/-- Ends a comparison by an attempt. -/
def branchAttempt (m : Machine) (w : Window) (expected : Bool) (attempt : Attempt) : Machine × Ending :=
  match attempt with
  | .done vs => (m, branchTo w.pc expected vs.first)
  | .fail e => (m, .fail e)
  | .handler h => (m, .handle h (.branch expected))

/-- Ends an assignment by an attempt. -/
def assignAttempt (m : Machine) (w : Window) (attempt : Attempt) : Machine × Ending :=
  match attempt with
  | .done _ => (m, .goOn w.pc)
  | .fail e => (m, .fail e)
  | .handler h => (m, .handle h .discard)

/-- Calls a value from an instruction. A closure gets a frame unless that passes the interpreter's limit, in
which case the instruction is to be run again; a native function is invoked. -/
def callFrom (m : Machine) (i : Interpreter) (w : Window) (f : Value) (args : Values)
    (target : ReturnTarget) : Machine × Ending :=
  match m.callee? f args [] with
  | none => (m, .fail (m.typeError i.thread f "call"))
  | some (.closure id, args) =>
    if i.limit.any (· ≤ (m.thread i.thread).depth) then
      (m.setPc i.thread (w.pc - 1), .stop .frameLimit)
    else
      let (m, s) := m.pushFrame i.thread id args target
      (m, .ofSignal s)
  | some (.native id, args) => (m, .invoke id args (.deliver target [f, .native id]))

/-- Replaces the innermost frame by a call. -/
def tailCallFrom (m : Machine) (i : Interpreter) (f : Value) (args : Values) : Machine × Ending :=
  match m.callee? f args [] with
  | none => (m, .fail (m.typeError i.thread f "call"))
  | some (.closure id, args) => (m.rebindTop i.thread id args, .enter)
  | some (.native id, args) => (m, .invoke id args (.leave [f, .native id]))

/-- Captures the variables of a new closure, as the words behind the instruction say. Gives the cells and
the index of the next instruction. -/
def captureCells (m : Machine) (t : ThreadId) (c : Closure) :
    Nat → Nat → List CellId → Machine × Except Error (List CellId × Nat)
  | 0, pc, cells => (m, .ok (cells.reverse, pc))
  | count + 1, pc, cells =>
    match m.topFrame? t with
    | none => (m, .error (.corrupted .noActiveFrame))
    | some top =>
      match c.proto.code[pc]? with
      | none => (m, .error (.fatal (.badProgramCounter pc)))
      | some word =>
        match word.opcode? with
        | some .getUpval =>
          match c.cells[word.b.toNat]? with
          | some id => captureCells m t c count (pc + 1) (id :: cells)
          | none =>
            let (m, id) := m.addCell (.closed .nil)
            captureCells m t c count (pc + 1) (id :: cells)
        | some .move =>
          let (m, id) := m.captureRegister t top word.b.toNat
          captureCells m t c count (pc + 1) (id :: cells)
        | _ => (m, .error (.fatal (.invalidOpcode word.op.toNat)))

/-- Makes a closure of a nested prototype. -/
def makeClosure (m : Machine) (t : ThreadId) (w : Window) (a bx : Nat) : Machine × Ending :=
  let c := m.closure w.closure
  match c.proto.children[bx]? with
  | none => (m, .fail (m.errorHere t "invalid function prototype index"))
  | some child =>
    match m.captureCells t c child.upvalueCount.toNat w.pc [] with
    | (m, .error e) => (m, .fail e)
    | (m, .ok (cells, pc)) =>
      let m := m.setPc t pc
      let (m, id) := m.addClosure ⟨child, cells, c.env⟩
      (m.setRegister w.file a (.closure id), .goOn pc)

/-- Stores values behind each other into a list from index `start` on. -/
def storeList (m : Machine) (id : TableId) (start : Nat) (vs : Values) : Machine :=
  (vs.zipIdx start).foldl (fun m (v, i) =>
    let ctx := m.context id [v]
    m.modifyTable id fun table => table.setInt ctx (Int64.ofNat i) v) m

/-- Stores a block of registers into a list and goes on at `pc`. The registers run up to `top` for `b = 0`. -/
def setList (m : Machine) (t : ThreadId) (file : FileId) (top a b block pc : Nat) : Machine × Ending :=
  let count := if b = 0 then top - (a + 1) else b
  match m.register file a with
  | .table id =>
    let vs := (List.range count).map fun i => m.register file (a + 1 + i)
    (m.storeList id ((block - 1) * Limits.listBlock + 1) vs, .goOn pc)
  | _ => (m, .fail (m.errorHere t "SETLIST target is not a table"))

/-- Loads surplus arguments of the innermost frame into its registers, all of them for `b = 0`. -/
def loadVarargs (m : Machine) (t : ThreadId) (a b : Nat) : Machine :=
  match m.topFrame? t with
  | none => m
  | some top =>
    let count := if b = 0 then top.varargs.length else b - 1
    let m := m.modifyFile top.file fun registers =>
      writeRow (growTo registers (a + count)) a (Values.adjust top.varargs count)
    if b = 0 then m.modifyTop t fun f => { f with top := a + count } else m

/-- Prepares a numeric loop: all three values are numbers, and the index is one step back. -/
def forPrep (m : Machine) (t : ThreadId) (w : Window) (a : Nat) (offset : Int) : Machine × Ending :=
  match (m.register w.file a).toNumber? with
  | none => (m, .fail (m.errorHere t "'for' initial value must be a number"))
  | some start =>
    match (m.register w.file (a + 1)).toNumber? with
    | none => (m, .fail (m.errorHere t "'for' limit must be a number"))
    | some limit =>
      match (m.register w.file (a + 2)).toNumber? with
      | none => (m, .fail (m.errorHere t "'for' step must be a number"))
      | some step =>
        let first := (Arithmetic.raw? .sub start step).getD .nil
        let m := m.setRegister w.file a first
        let m := m.setRegister w.file (a + 1) limit
        let m := m.setRegister w.file (a + 2) step
        m.jump w.pc offset

/-- Takes one step of a numeric loop. -/
def forLoop (m : Machine) (w : Window) (a : Nat) (offset : Int) : Machine × Ending :=
  let reg := fun i => m.register w.file (a + i)
  let (next, goesOn) := Arithmetic.forStep (reg 0) (reg 1) (reg 2)
  if goesOn then
    match jumpTarget w.pc offset with
    | .ok pc => ((m.setRegister w.file a next).setRegister w.file (a + 3) next, .goOn pc)
    | .error e => (m, .fail e)
  else (m, .goOn w.pc)

/-- The arithmetic of an operation that has one. -/
def arithOf : Opcode → ArithOp
  | .add => .add
  | .sub => .sub
  | .mul => .mul
  | .div => .div
  | .mod => .mod
  | _ => .pow

/-- Runs one decoded instruction. The window stands at the instruction behind it. -/
def perform (m : Machine) (i : Interpreter) (w : Window) (word : Instruction) (op : Opcode) :
    Machine × Ending :=
  let t := i.thread
  let a := word.a.toNat
  let b := word.b.toNat
  let c := word.c.toNat
  let file := w.file
  let closure := m.closure w.closure
  let proto := closure.proto
  let next : Ending := .goOn w.pc
  match op with
  | .move => (m.setRegister file a (m.register file b), next)
  | .loadK => (m.setRegister file a (proto.constant word.bx.toNat), next)
  | .loadBool =>
    (m.setRegister file a (.bool (b != 0)), .goOn (if c = 0 then w.pc else w.pc + 1))
  | .loadNil =>
    (m.modifyFile file fun registers => writeRow registers a (List.replicate (b + 1 - a) .nil), next)
  | .getUpval =>
    (m.setRegister file a ((closure.cells[b]?.map m.cellValue).getD .nil), next)
  | .getGlobal =>
    m.storeAttempt w a (m.index t (.table closure.env) (proto.constant word.bx.toNat))
  | .getTable =>
    m.storeAttempt w a (m.index t (m.register file b) (m.operand proto file word.c))
  | .setGlobal =>
    let (m, attempt) :=
      m.setIndex t (.table closure.env) (proto.constant word.bx.toNat) (m.register file a)
    m.assignAttempt w attempt
  | .setUpval =>
    match closure.cells[b]? with
    | some id => (m.setCellValue id (m.register file a), next)
    | none => (m, next)
  | .setTable =>
    let (m, attempt) :=
      m.setIndex t (m.register file a) (m.operand proto file word.b) (m.operand proto file word.c)
    m.assignAttempt w attempt
  | .newTable =>
    let (m, id) := m.addTable (Table.new (SizeByte.decode word.b) (SizeByte.decode word.c))
    (m.setRegister file a (.table id), next)
  | .self =>
    let obj := m.register file b
    let m := m.setRegister file (a + 1) obj
    m.storeAttempt w a (m.index t obj (m.operand proto file word.c))
  | .add | .sub | .mul | .div | .mod | .pow =>
    let x := m.operand proto file word.b
    let y := m.operand proto file word.c
    m.storeAttempt w a (m.arith t (arithOf op) x y)
  | .unm =>
    let x := m.register file b
    m.storeAttempt w a (m.arith t .unm x x)
  | .not => (m.setRegister file a (.bool !(m.register file b).isTruthy), next)
  | .len => m.storeAttempt w a (m.lengthOf t (m.register file b))
  | .concat =>
    let vs := (List.range (c + 1 - b)).map fun n => m.register file (b + n)
    (m, .join vs.reverse (.store a))
  | .jmp => m.jumpFrom t w.pc word.sbx
  | .eq =>
    m.branchAttempt w (a != 0) (m.equal (m.operand proto file word.b) (m.operand proto file word.c))
  | .lt =>
    m.branchAttempt w (a != 0) (m.lessThan t (m.operand proto file word.b) (m.operand proto file word.c))
  | .le =>
    m.branchAttempt w (a != 0) (m.lessEqual t (m.operand proto file word.b) (m.operand proto file word.c))
  | .test => (m, branchTo w.pc (c != 0) (m.register file a))
  | .testSet =>
    let v := m.register file b
    if v.isTruthy = (c != 0) then (m.setRegister file a v, next) else (m, .goOn (w.pc + 1))
  | .call =>
    m.callFrom i w (m.register file a) (m.collect file (m.openEnd t) (a + 1) b)
      ⟨a, if c = 0 then none else some (c - 1), .store⟩
  | .tailCall => m.tailCallFrom i (m.register file a) (m.collect file (m.openEnd t) (a + 1) b)
  | .ret =>
    let (m, s) := m.finishReturn t (m.collect file (m.openEnd t) a b) i.floor
    (m, .ofSignal s)
  | .forLoop => m.forLoop w a word.sbx
  | .forPrep => m.forPrep t w a word.sbx
  | .tForLoop =>
    m.callFrom i w (m.register file a) [m.register file (a + 1), m.register file (a + 2)]
      ⟨a + 3, some c, .forIterator⟩
  | .setList =>
    if c = 0 then
      match proto.code[w.pc]? with
      | none => (m, .fail (.fatal (.badProgramCounter w.pc)))
      | some block =>
        (m.setPc t (w.pc + 1)).setList t file (m.openEnd t) a b block.word.toNat (w.pc + 1)
    else m.setList t file (m.openEnd t) a b c w.pc
  | .close => (m.closeTopCells t a, next)
  | .closure => m.makeClosure t w a word.bx.toNat
  | .varArg => (m.loadVarargs t a b, next)

/-- Fetches the next instruction of a window, moves the innermost frame behind it and runs it. -/
def fetch (m : Machine) (i : Interpreter) (w : Window) : Machine × Ending :=
  match (m.closure w.closure).proto.code[w.pc]? with
  | none => (m.modifyThread i.thread (·.counted), .fail (.fatal (.badProgramCounter w.pc)))
  | some word =>
    if (m.thread i.thread).frames.isEmpty then
      (m.modifyThread i.thread (·.counted), .fail (.corrupted .noActiveFrame))
    else
      let pc := w.pc + 1
      let m := m.modifyThread i.thread (·.movedTo pc)
      match word.opcode? with
      | none => (m, .fail (.fatal (.invalidOpcode word.op.toNat)))
      | some op => m.perform i { w with pc } word op

/-- Runs the next instruction of a window, unless the thread has run as many as its fuse allows. The
instruction counts also if it fails, and the innermost frame stands behind it while it runs. -/
def execute (m : Machine) (i : Interpreter) (w : Window) : Machine × Ending :=
  let count := (m.thread i.thread).instructions
  match m.limits.fuse with
  | some fuse =>
    if fuse ≤ count then (m.modifyThread i.thread (·.counted), .fail (.fatal (.instructionFuse fuse)))
    else m.fetch i w
  | none => m.fetch i w

/-- Goes on as the end of an instruction says. The window stands at the instruction behind it. -/
def conclude (m : Machine) (i : Interpreter) (w : Window) : Ending → Machine × Signal
  | .goOn pc => (m.replaceTop (.interpret { i with stage := .running { w with pc } }), .go)
  | .enter => (m.replaceTop (.interpret { i with stage := .entering }), .go)
  | .handle h sequel =>
    (m.replaceTop (.interpret { i with stage := .waiting w sequel })).callHandler i.thread h []
  | .join reversed sequel =>
    (m.replaceTop (.interpret { i with stage := .waiting w sequel })).continueJoin i.thread reversed []
  | .invoke id args sequel =>
    (m.replaceTop (.interpret { i with stage := .waiting w sequel }), .invoke i.thread id args)
  | .stop (.error e) => (m.pop, .error ((m.thread i.thread).attachTrace e))
  | .stop s => (m.pop, s)

/-- Runs the next instruction of a window and goes on as it says. -/
def advance (m : Machine) (i : Interpreter) (w : Window) : Machine × Signal :=
  let (m, ending) := m.execute i w
  m.conclude i { w with pc := w.pc + 1 } ending

/-- Looks up the innermost frame and runs its next instruction. -/
def enter (m : Machine) (i : Interpreter) : Machine × Signal :=
  match m.topFrame? i.thread with
  | none => (m.pop, .error (.corrupted .noActiveFrame))
  | some top =>
    let w : Window := ⟨top.closure, top.file, top.pc⟩
    (m.replaceTop (.interpret { i with stage := .running w })).advance i w

/-- What becomes of the values that an interpreter waited for. -/
def settle (m : Machine) (i : Interpreter) (w : Window) (vs : Values) : Sequel → Machine × Ending
  | .discard => (m, .goOn w.pc)
  | .store a => (m.setRegister w.file a vs.first, .goOn w.pc)
  | .branch expected => (m, branchTo w.pc expected vs.first)
  | .deliver target _ =>
    match m.deliver i.thread target vs with
    | (m, .go) =>
      match target.continuation, m.topFrame? i.thread with
      | .forIterator, some top => (m, .goOn top.pc)
      | _, _ => (m, .goOn w.pc)
    | (m, s) => (m, .stop s)
  | .leave _ =>
    let (m, s) := m.finishReturn i.thread vs i.floor
    (m, .ofSignal s)

/-- A native function yielded: the innermost frame keeps the call pending. -/
def suspend (m : Machine) (t : ThreadId) (pending : Frame → PendingCall) : Machine × Ending :=
  match m.topFrame? t with
  | none => (m, .fail (.corrupted .noActiveFrame))
  | some top =>
    let m := m.modifyTop t fun f => { f with pending := some (pending top) }
    let (m, vs) := m.takeYielded t
    (m, .stop (.yielded vs))

/-- What becomes of a signal other than values. -/
def interrupted (m : Machine) (i : Interpreter) (s : Signal) : Sequel → Machine × Ending
  | .deliver target _ =>
    match s with
    | .error .yield => m.suspend i.thread fun _ => ⟨target, false⟩
    | s => (m, .stop s)
  | .leave _ =>
    match s with
    | .error .yield => m.suspend i.thread fun top => ⟨top.target, true⟩
    | s => (m, .stop s)
  | _ => (m, .stop s)

/-- The interpreter takes a signal: it enters, runs an instruction, or goes on after what it waited for. -/
def interpret (m : Machine) (i : Interpreter) (s : Signal) : Machine × Signal :=
  match i.stage, s with
  | .entering, .go => m.enter i
  | .running w, .go => m.advance i w
  | .waiting w sequel, .values vs =>
    let (m, ending) := m.settle i w vs sequel
    m.conclude i w ending
  | .waiting w sequel, s =>
    let (m, ending) := m.interrupted i s sequel
    m.conclude i w ending
  | _, s => (m.pop, s)

end Machine

end LuaMachine
