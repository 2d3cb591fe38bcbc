import LuaMachine.Machine.Execute
import LuaMachine.Library.Base
import LuaMachine.Library.Coroutine
import LuaMachine.Library.Host

namespace LuaMachine.Machine

/-- What a native function does, or why it refuses its arguments. -/
def effect (m : Machine) (t : ThreadId) (body : Builtin) (args : Values) : Except Error Effect :=
  match body with
  | .base f => m.base t f args
  | .coroutine f => m.coroutine t f args
  | .wrapped target => .ok fun m => m.beginResumeFrom t target true args
  | .spawn name => m.spawnFrom t name ⟨0⟩ args
  | .host op => .ok fun m => m.hostOperation t op args
  | .group g action => .ok fun m => m.groupAction g action args

/-- Runs a native function, which holds its arguments meanwhile. -/
def invoke (m : Machine) (t : ThreadId) (id : NativeId) (args : Values) : Machine × Signal :=
  let m := { m with inUse := args }
  match m.effect t (m.native id).body args with
  | .ok effect => effect m
  | .error e => (m, .error e)

/-- A call from native code ends: the thread gets its frames, its native depth and, if it was idle, its status
back. -/
def stepEndCall (m : Machine) (t : ThreadId) (floor : Option Nat) (previous : Option Status)
    (s : Signal) : Machine × Signal :=
  let s := match s with
    | .yielded _ => .error (.corrupted .nestedCallSuspended)
    | .frameLimit => .error (.corrupted .nestedCallSuspended)
    | s => s
  let m := match s, floor with
    | .error _, some floor => m.unwind t floor
    | _, _ => m
  (m.modifyThread t fun th => { th with
    nativeDepth := th.nativeDepth - 1
    status := previous.getD th.status }, s)

/-- A resume ends. A fatal error, or a yield that no instruction took, ends the thread; a raised error leaves
the frames below the resume. -/
def stepEndResume (m : Machine) (t : ThreadId) (floor : Nat) (s : Signal) : Machine × Signal :=
  match s with
  | .error .yield =>
    ((m.unwind t 0).setStatus t .dead, .error (.corrupted .yieldEscaped))
  | .error (.fatal f) => ((m.unwind t 0).setStatus t .dead, .error (.fatal f))
  | .error e =>
    let m := m.unwind t floor
    (m.setStatus t (if (m.thread t).depth = 0 then .dead else .endCall), .error e)
  | .values vs => (m.setStatus t .dead, .values vs)
  | other => (m.setStatus t .suspended, other)

/-- A thread's native start function ends; a yield leaves its results to the next resume. -/
def stepStartedNative (m : Machine) (t : ThreadId) (s : Signal) : Machine × Signal :=
  match s with
  | .error .yield =>
    let (m, vs) := m.takeYielded t
    (m.modifyThread t fun th => { th with hostReturnPending := true }, .yielded vs)
  | .error e => (m, .error ((m.thread t).attachTrace e))
  | other => (m, other)

/-- A protected call ends: a raised error becomes its value. -/
def stepProtect (s : Signal) : Signal :=
  match s with
  | .values vs => .values (.bool true :: vs)
  | .error (.raised e) => .values [.bool false, e.value]
  | other => other

/-- The values that resuming another thread gave. -/
def stepResumed (m : Machine) (t : ThreadId) (previous : Status) (wrapped : Bool) (s : Signal) :
    Machine × Signal :=
  let m := m.setStatus t previous
  let success := fun (vs : Values) => Signal.values (if wrapped then vs else .bool true :: vs)
  match s with
  | .values vs => (m, success vs)
  | .yielded vs => (m, success vs)
  | .error (.fatal f) => (m, .error (.fatal f))
  | .error e =>
    if wrapped then
      match e with
      | .raised ⟨.str message, trace, origin⟩ =>
        (m, .error (.raised ⟨.str ((m.thread t).position 1 ++ message), trace, origin⟩))
      | e => (m, .error e)
    else (m, .values [.bool false, e.value])
  | _ => (m, success [])

/-- A tick ends: an error is reported, a thread that it left unable to run is ended, and the pass goes on. -/
def stepTick (m : Machine) (g : GroupId) (members : List ThreadId) (t : ThreadId) (rest : List ThreadId)
    (s : Signal) : Machine × Signal :=
  let m := match s with
    | .error e =>
      let th := m.thread t
      let m := { m with reports := ⟨g, th.number, e⟩ :: m.reports }
      if !m.isBusy t && !th.status.isResumable && th.status ≠ .dead then m.destroyThread t else m
    | _ => m
  if (m.group g).destroyed then (m, .values []) else m.continueTicks g members rest

/-- A handler gave the text of an argument of `print`. -/
def stepPrint (m : Machine) (t : ThreadId) (shown : List String) (args vs : Values) : Machine × Signal :=
  match vs.first with
  | .str s => m.continuePrint t args (s :: shown) (args.drop (shown.length + 1))
  | _ => (m, .error (m.errorHere t "'tostring' must return a string to 'print'"))

/-- Work that waits takes a signal. -/
def resumeWork (m : Machine) (a : Activation) (rest : List Activation) (s : Signal) : Machine × Signal :=
  match a with
  | .interpret i => m.interpret i s
  | a =>
    let m := { m with stack := rest }
    match a, s with
    | .endCall t floor previous _, s => m.stepEndCall t floor previous s
    | .startedNative t _, s => m.stepStartedNative t s
    | .endResume t floor _, s => m.stepEndResume t floor s
    | .protect, s => (m, stepProtect s)
    | .resumed t previous wrapped _, s => m.stepResumed t previous wrapped s
    | .forget, .error e => (m, .error e)
    | .forget, _ => (m, .values [])
    | .tick g members t rest, s => m.stepTick g members t rest s
    | .groupSize g _, .values _ => (m, m.groupSizeSignal g)
    | .updateGroups groups, .values _ => m.continueUpdates groups
    | .read reading, .values vs => (m, .values (reading.apply vs))
    | .concat t left held, .values vs => m.continueJoin t (vs.first :: left) held
    | .print t shown args, .values vs => m.stepPrint t shown args vs
    | _, s => (m, s)

/-- One step; a machine without work keeps its signal. -/
def step (m : Machine) (s : Signal) : Machine × Signal :=
  match s with
  | .invoke t id args => m.invoke t id args
  | s =>
    match m.stack with
    | [] => (m, s)
    | a :: rest => { m with inUse := [] }.resumeWork a rest s

/-- Whether a machine has work left. -/
def isWorking (m : Machine) (s : Signal) : Bool :=
  match s with
  | .invoke .. => true
  | _ => !m.stack.isEmpty

/-- Steps until no work is left; none if `fuel` steps are not enough. -/
def run : Nat → Machine → Signal → Option (Machine × Signal)
  | 0, m, s => if m.isWorking s then none else some (m, s)
  | fuel + 1, m, s =>
    if m.isWorking s then
      let (m, s) := m.step s
      run fuel m s
    else some (m, s)

end LuaMachine.Machine
