import LuaMachine.Machine.Metamethod

namespace LuaMachine

/-- What a call of a value runs. -/
inductive Callee
  | closure (id : ClosureId)
  | native (id : NativeId)
deriving DecidableEq

namespace Machine

/-- What calling a value means, possibly through its call handler, which gets the value as first argument;
none if it cannot be called. The values in `inUse` exist meanwhile. -/
def callee? (m : Machine) (f : Value) (args inUse : Values) : Option (Callee × Values) :=
  match f with
  | .closure id => some (.closure id, args)
  | .native id => some (.native id, args)
  | _ =>
    match m.metamethod f "__call" (args ++ inUse) with
    | .closure id => some (.closure id, f :: args)
    | .native id => some (.native id, f :: args)
    | _ => none

/-- Sets the status of a thread. -/
def setStatus (m : Machine) (t : ThreadId) (status : Status) : Machine :=
  m.modifyThread t fun th => { th with status }

/-- Begins a call from native code, which keeps the function and the values in `held` meanwhile. An idle thread
counts as running, with a fresh instruction count, until the call ends. -/
def beginCall (m : Machine) (t : ThreadId) (f : Value) (args held : Values) : Machine × Signal :=
  let th := m.thread t
  if m.limits.nativeDepth ≤ th.nativeDepth then (m, .error (th.errorHere "C stack overflow"))
  else match m.callee? f args held with
    | none =>
      (m, .error (th.errorHere (String.join ["attempt to call a ", f.typeName, " value"])))
    | some (callee, args) =>
      let idle := !th.status.isActive
      let previous := if idle then some th.status else none
      let m := m.modifyThread t fun th => { th with
        status := if idle then .running else th.status
        instructions := if idle then 0 else th.instructions
        nativeDepth := th.nativeDepth + 1 }
      match callee with
      | .native id => (m.push (.endCall t none previous (f :: .native id :: held)), .invoke t id args)
      | .closure id =>
        let floor := (m.thread t).depth
        let m := m.push (.endCall t (some floor) previous (f :: held))
        match m.pushFrame t id args .host with
        | (m, .go) => (m.push (.interpret ⟨t, floor, none, .entering⟩), .go)
        | failed => failed

/-- Begins to call a handler, more values being kept meanwhile. -/
def callHandler (m : Machine) (t : ThreadId) (h : Handler) (held : Values) : Machine × Signal :=
  (m.push (.read h.reading)).beginCall t h.function h.args (h.held ++ held)

/-- Hands the outcome of an attempt on, or calls its handler first. -/
def attempt (m : Machine) (t : ThreadId) (a : Attempt) (held : Values) : Machine × Signal :=
  match a with
  | .done vs => (m, .values vs)
  | .fail e => (m, .error e)
  | .handler h => m.callHandler t h held

/-- Goes on with a concatenation, the last value first, more values being kept meanwhile. -/
def continueJoin (m : Machine) (t : ThreadId) (reversed held : Values) : Machine × Signal :=
  match m.join t reversed held with
  | .done v => (m, .values [v])
  | .fail e => (m, .error e)
  | .handler h left => (m.push (.concat t left held)).callHandler t h held

/-- Suspends the running thread with values for its resumer, unless it is not running or native code waits
for it. -/
def yieldNow (m : Machine) (t : ThreadId) (vs : Values) : Machine × Signal :=
  let th := m.thread t
  if th.status ≠ .running then
    (m, .error (th.errorHere "attempt to yield from outside a coroutine"))
  else if 0 < th.nativeDepth then
    (m, .error (th.errorHere "attempt to yield across metamethod/C-call boundary"))
  else (m.modifyThread t fun th => { th with yielded := vs }, .error .yield)

/-- The values a thread yielded, which are taken from it. -/
def takeYielded (m : Machine) (t : ThreadId) : Machine × Values :=
  let vs := (m.thread t).yielded
  (m.modifyThread t fun th => { th with yielded := [] }, vs)

/-- The depth that calls of a resume may not pass, for a budget of new frames; at least one is allowed. -/
def frameLimit (floor : Nat) (budget : Option Nat) : Option Nat :=
  budget.map fun n => floor + max n 1

/-- Begins a thread with its start function. -/
def beginStart (m : Machine) (t : ThreadId) (limit : Option Nat) (f : Value) (args : Values) :
    Machine × Signal :=
  match m.callee? f args [] with
  | none => (m, .error (.ofText (String.join ["attempt to call a ", f.typeName, " value"])))
  | some (.closure id, args) =>
    match m.pushFrame t id args .host with
    | (m, .go) => (m.push (.interpret ⟨t, 0, limit, .entering⟩), .go)
    | failed => failed
  | some (.native id, args) => (m.push (.startedNative t [f, .native id]), .invoke t id args)

/-- What a resumed thread does first: it calls its start function, or completes what it waits for. A thread that
waits for nothing goes on, and the arguments are kept meanwhile. -/
def beginResumed (m : Machine) (t : ThreadId) (floor : Nat) (limit : Option Nat) (args : Values) :
    Machine × Signal :=
  let th := m.thread t
  let begun := m.push (.endResume t floor [])
  match th.start with
  | some (f, startArgs) =>
    (begun.modifyThread t fun th => { th with start := none }).beginStart t limit f (startArgs ++ args)
  | none =>
    if th.hostReturnPending then
      (begun.modifyThread t fun th => { th with hostReturnPending := false }, .values args)
    else match th.frames.head? with
      | none => (begun, .error (.corrupted .noActiveFrame))
      | some top =>
        let interpreter := Activation.interpret ⟨t, 0, limit, .entering⟩
        if top.pending.isNone then ((m.push (.endResume t floor args)).push interpreter, .go)
        else match begun.completePending t args 0 with
          | (m, .go) => (m.push interpreter, .go)
          | other => other

/-- Begins to resume a thread. A sleeping thread only sleeps one tick less. -/
def beginResume (m : Machine) (t : ThreadId) (budget : Option Nat) (args : Values) : Machine × Signal :=
  let th := m.thread t
  if 0 < th.sleep then
    (m.modifyThread t fun th => { th with sleep := th.sleep - 1 }, .sleeping)
  else if th.status.isActive then
    (m, .error (.ofText "cannot resume non-suspended coroutine"))
  else if !th.status.isResumable then
    (m, .error (.ofText "cannot resume dead coroutine"))
  else
    let floor := th.depth
    let m := m.modifyThread t fun th => { th with status := .running, instructions := 0 }
    m.beginResumed t floor (frameLimit floor budget) args

/-- Begins to resume another thread from the thread `t`. -/
def beginResumeFrom (m : Machine) (t target : ThreadId) (wrapped : Bool) (args : Values) :
    Machine × Signal :=
  let previous := (m.thread t).status
  let m := m.push (.resumed t previous wrapped target)
  if target = t ∨ m.isBusy target then
    (m, .error (.ofText "cannot resume non-suspended coroutine"))
  else (m.setStatus t .normal).beginResume target none args

/-- Adds a thread to a group; a destroyed group ends it instead. -/
def addToGroup (m : Machine) (g : GroupId) (t : ThreadId) : Machine :=
  if (m.group g).destroyed then if m.isBusy t then m else m.destroyThread t
  else m.modifyGroup g fun group => { group with threads := group.threads ++ [t] }

/-- Drops the dead threads of a group. -/
def pruneGroup (m : Machine) (g : GroupId) : Machine :=
  let isDead := fun t => !m.isBusy t && (m.thread t).status = .dead
  let live := (m.group g).threads.filter fun t => !isDead t
  m.modifyGroup g fun group => { group with threads := live }

/-- Ticks the next runnable thread of a group's pass over `members`, or ends the pass by dropping the dead
threads. -/
def continueTicks (m : Machine) (g : GroupId) (members : List ThreadId) : List ThreadId → Machine × Signal
  | [] => (m.pruneGroup g, .values [])
  | t :: rest =>
    if m.isBusy t || !(m.thread t).status.isResumable then continueTicks m g members rest
    else (m.push (.tick g members t rest)).beginResume t m.limits.framesPerTick []

/-- Begins to tick every thread of a group once. -/
def beginUpdate (m : Machine) (g : GroupId) : Machine × Signal :=
  let group := m.group g
  if group.suspended || group.destroyed then (m, .values [])
  else m.continueTicks g group.threads group.threads

/-- Ends all threads of a group, except those that are busy, and refuses new ones. -/
def destroyGroup (m : Machine) (g : GroupId) : Machine :=
  let threads := (m.group g).threads
  let m := m.modifyGroup g fun group => { group with destroyed := true, threads := [] }
  threads.foldl (fun m t => if m.isBusy t then m else m.destroyThread t) m

/-- Begins to update groups one after the other. -/
def continueUpdates (m : Machine) : List GroupId → Machine × Signal
  | [] => (m, .values [])
  | g :: rest => (m.push (.updateGroups rest)).beginUpdate g

/-- Whether a tick would run no thread of a group. -/
def isGroupIdle (m : Machine) (g : GroupId) : Bool :=
  (m.group g).threads.all fun t => !m.isBusy t && !(m.thread t).status.isResumable

/-- Whether a common update would run no thread. -/
def isIdle (m : Machine) : Bool := m.schedule.all m.isGroupIdle

end Machine

end LuaMachine
