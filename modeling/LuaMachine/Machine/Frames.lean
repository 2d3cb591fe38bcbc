import LuaMachine.Machine.Registers

namespace LuaMachine

namespace Frame

/-- The source line of the instruction being run. -/
def line? (f : Frame) : Option UInt32 := f.proto.lineAt? (f.pc - 1)

/-- The position of the instruction being run, empty without line information. -/
def position (f : Frame) : String :=
  match f.line? with
  | some line => f.proto.sourceName ++ ":" ++ Number.intText line.toNat ++ ": "
  | none => ""

/-- The line of a frame in a traceback. -/
def traceLine (f : Frame) : String :=
  let name := f.proto.sourceName
  let place := match f.line? with
    | some line => name ++ ":" ++ Number.intText line.toNat
    | none => name
  let what :=
    if f.proto.lineDefined = 0 then "main chunk"
    else "function <" ++ name ++ ":" ++ Number.intText f.proto.lineDefined.toNat ++ ">"
  "\n\t" ++ place ++ ": in " ++ what ++ (if 0 < f.tailCalls then "\n\t(tail call): ?" else "")

end Frame

namespace Thread

/-- The position `level` frames down, one being the innermost; empty if there is none. -/
def position (t : Thread) (level : Nat) : String :=
  if level = 0 then "" else (t.frames[level - 1]?.map Frame.position).getD ""

/-- The frames of a thread in words, the innermost first; of many, the middle is left out. -/
def traceback (t : Thread) : String :=
  let lines := t.frames.map Frame.traceLine
  let half := Limits.tracebackLevels / 2
  let shown :=
    if Limits.tracebackLevels < lines.length then
      lines.take half ++ ["\n\t..."] ++ lines.drop (lines.length - half)
    else lines
  "stack traceback:" ++ String.join shown

/-- An error with the position of the running instruction in front. -/
def errorHere (t : Thread) (message : String) : Error := .ofText (t.position 1 ++ message)

/-- Records where an error happened. An error from another thread gets this thread's trace in front. -/
def attachTrace (t : Thread) : Error → Error
  | .raised ⟨v, none, _⟩ => .raised ⟨v, some t.traceback, some t.number⟩
  | .raised ⟨v, some inner, some origin⟩ =>
    if origin = t.number then .raised ⟨v, some inner, some origin⟩
    else .raised ⟨v, some (t.traceback ++ "\n" ++ inner), some t.number⟩
  | e => e

/-- The sizes and the status of a thread in words. -/
def describe (t : Thread) : String :=
  String.join ["LuaThread \x7b id: ", Number.intText t.number, ", status: ", t.status.label,
    ", depth: ", Number.intText t.depth, ", sleep: ", Number.intText t.sleep, " \x7d"]

end Thread

namespace Machine

/-- An error at the current position of a thread. -/
def errorHere (m : Machine) (t : ThreadId) (message : String) : Error :=
  (m.thread t).errorHere message

/-- The table of surplus arguments and their number. -/
def argTable (hash : Value → UInt64) (surplus : Values) : Table :=
  let filled : Table := { Table.new surplus.length 1 with array := surplus.toArray }
  filled.setStr (.strong hash) "n" (.int (Int64.ofNat surplus.length))

/-- Registers with the fixed parameters in front. -/
def boundRegisters (p : Prototype) (args : Values) : Array Value :=
  let params := p.paramCount.toNat
  let size := max p.stackSize.toNat (params + 1)
  (Values.adjust (args.take params) size).toArray

/-- Lays out arguments for a prototype: registers, and the surplus arguments if it keeps them. -/
def bindArgs (m : Machine) (p : Prototype) (args : Values) : Machine × Array Value × Values :=
  let params := p.paramCount.toNat
  let registers := boundRegisters p args
  let surplus := args.drop params
  if !p.isVararg then (m, registers, [])
  else if p.needsArgTable then
    let (m, id) := m.addTable (argTable m.hash surplus)
    (m, registers.setIfInBounds params (.table id), surplus)
  else (m, registers, surplus)

/-- A new frame for a closure. -/
def newFrame (m : Machine) (id : ClosureId) (args : Values) (target : ReturnTarget) : Machine × Frame :=
  let proto := (m.closure id).proto
  let (m, registers, varargs) := m.bindArgs proto args
  let (m, file) := m.addFile registers
  (m, {
    closure := id
    proto, file, varargs
    openCells := []
    pc := 0
    top := 0
    target
    pending := none
    tailCalls := 0 })

/-- Enters a closure, unless the thread has as many frames as it may. -/
def pushFrame (m : Machine) (t : ThreadId) (id : ClosureId) (args : Values) (target : ReturnTarget) :
    Machine × Signal :=
  let (m, frame) := m.newFrame id args target
  if m.limits.callDepth ≤ (m.thread t).depth then (m, .error (m.errorHere t "stack overflow"))
  else
    (m.modifyThread t fun th => { th with frames := frame :: th.frames, depth := th.depth + 1 }, .go)

/-- Leaves the innermost frame `top`, closing its cells. -/
def popFrame (m : Machine) (t : ThreadId) (top : Frame) : Machine :=
  let (m, _) := m.closeCells 0 top.openCells
  m.modifyThread t fun th => { th with frames := th.frames.tail, depth := th.depth - 1 }

/-- Leaves frames until `depth` remain, at most `fuel` of them. -/
def unwindFrames (m : Machine) (t : ThreadId) (depth : Nat) : Nat → Machine
  | 0 => m
  | fuel + 1 =>
    if (m.thread t).depth ≤ depth then m
    else match m.topFrame? t with
      | none => m.modifyThread t fun th => { th with depth := 0 }
      | some top => unwindFrames (m.popFrame t top) t depth fuel

/-- Leaves frames until `depth` remain. -/
def unwind (m : Machine) (t : ThreadId) (depth : Nat) : Machine :=
  m.unwindFrames t depth ((m.thread t).frames.length + 1)

/-- Rebinds the innermost frame to another closure for a tail call. -/
def rebindTop (m : Machine) (t : ThreadId) (id : ClosureId) (args : Values) : Machine :=
  match m.topFrame? t with
  | none => m
  | some top =>
    let (m, _) := m.closeCells 0 top.openCells
    let proto := (m.closure id).proto
    let (m, registers, varargs) := m.bindArgs proto args
    let m := m.modifyFile top.file fun _ => registers
    m.modifyTop t fun f => { f with
      closure := id
      proto, varargs
      openCells := []
      pc := 0
      top := 0
      pending := none
      tailCalls := f.tailCalls + 1 }

/-- Copies results into the registers of the innermost frame; all of them also set its top. -/
def storeResults (m : Machine) (t : ThreadId) (target : ReturnTarget) (vs : Values) : Machine × Signal :=
  match m.topFrame? t with
  | none => (m, .error (.corrupted .noActiveFrame))
  | some top =>
    match target.count with
    | none =>
      let stop := target.base + vs.length
      let m := m.modifyFile top.file fun registers => writeRow (growTo registers stop) target.base vs
      (m.modifyTop t fun f => { f with top := stop }, .go)
    | some count =>
      let m := m.modifyFile top.file fun registers =>
        writeRow (growTo registers (target.base + count)) target.base (vs.adjust count)
      (m, .go)

/-- After an iterator returned: a first result that is nil skips the jump back, any other one becomes the
control variable. -/
def iteratorStep (m : Machine) (t : ThreadId) (a : Nat) : Machine × Signal :=
  match m.topFrame? t with
  | none => (m, .error (.corrupted .noActiveFrame))
  | some top =>
    let control := m.register top.file (a + 3)
    if control.isNil then (m.modifyTop t fun f => { f with pc := f.pc + 1 }, .go)
    else (m.modifyFile top.file fun registers => registers.setIfInBounds (a + 2) control, .go)

/-- Hands results to the innermost frame as the call asked for. -/
def deliver (m : Machine) (t : ThreadId) (target : ReturnTarget) (vs : Values) : Machine × Signal :=
  match target.continuation with
  | .store => m.storeResults t target vs
  | .forIterator =>
    match m.storeResults t target vs with
    | (m, .go) => m.iteratorStep t (target.base - 3)
    | failed => failed
  | .host => (m, .error (.corrupted .hostReturnDelivered))

/-- Empties the registers of a frame that was left, unless work below the innermost still looks at them. -/
def discardFile (m : Machine) (file : FileId) : Machine :=
  if m.stack.tail.any (Activation.uses file) then m else m.modifyFile file fun _ => #[]

/-- Leaves the innermost frame with results: they go to its caller, or are the outcome if the frame
belongs to native code or the frames are back at `floor`. -/
def finishReturn (m : Machine) (t : ThreadId) (vs : Values) (floor : Nat) : Machine × Signal :=
  match m.topFrame? t with
  | none => (m, .error (.corrupted .popOnEmpty))
  | some frame =>
    let m := (m.popFrame t frame).discardFile frame.file
    if (m.thread t).depth ≤ floor ∨ frame.target.continuation = .host then (m, .values vs)
    else m.deliver t frame.target vs

/-- Completes the native call that the innermost frame waits for. -/
def completePending (m : Machine) (t : ThreadId) (vs : Values) (floor : Nat) : Machine × Signal :=
  match m.topFrame? t with
  | none => (m, .error (.corrupted .noActiveFrame))
  | some top =>
    match top.pending with
    | none => (m, .error (.corrupted .noPendingCall))
    | some pending =>
      let m := m.modifyTop t fun f => { f with pending := none }
      if pending.tail then m.finishReturn t vs floor else m.deliver t pending.target vs

/-- Values of a file from register `start` on: `count - 1` of them, or up to `top` for zero. -/
def collect (m : Machine) (file : FileId) (top start count : Nat) : Values :=
  let stop := if count = 0 then max top start else start + count - 1
  (List.range (stop - start)).map fun i => m.register file (start + i)

/-- Ends a thread: all its frames are left and nothing is pending. -/
def destroyThread (m : Machine) (t : ThreadId) : Machine :=
  (m.unwind t 0).modifyThread t fun th => { th with
    start := none
    hostReturnPending := false
    yielded := []
    sleep := 0
    status := .dead }

/-- Makes a thread start over with `f` and `args`, unless it is active. -/
def jumpThread (m : Machine) (t : ThreadId) (f : Value) (args : Values) : Except Error Machine :=
  if (m.thread t).status.isActive then .error (.ofText "cannot jump an active coroutine")
  else .ok ((m.unwind t 0).modifyThread t fun th => { th with
    hostReturnPending := false
    yielded := []
    start := some (f, args)
    status := .initial })

end Machine

end LuaMachine
