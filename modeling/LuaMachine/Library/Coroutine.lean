import LuaMachine.Library.Arguments

namespace LuaMachine

/-- The name of a coroutine function inside its library. -/
def CoroutineFunction.name : CoroutineFunction → String
  | create => "create"
  | resume => "resume"
  | yield => "yield"
  | status => "status"
  | wrap => "wrap"
  | running => "running"
  | wait => "wait"

namespace Machine

/-- What a coroutine function does. -/
def coroutine (m : Machine) (t : ThreadId) (f : CoroutineFunction) (args : Values) :
    Except Error Effect := do
  match f with
  | .create =>
    let f ← m.requireFunction t args "coroutine.create"
    return fun m =>
      let (m, id) := m.newThread f []
      (m, .values [.thread id])
  | .resume =>
    let target ← m.requireThread t args 1 "coroutine.resume"
    return fun m => m.beginResumeFrom t target false (args.drop 1)
  | .yield => return fun m => m.yieldNow t args
  | .status =>
    let target ← m.requireThread t args 1 "coroutine.status"
    let name :=
      if target = t then "running"
      else if m.isBusy target then "normal"
      else (m.thread target).status.name
    return answer [.str name]
  | .wrap =>
    let f ← m.requireFunction t args "coroutine.wrap"
    return fun m =>
      let (m, thread) := m.newThread f []
      let (m, id) := m.addNative ⟨"coroutine.wrap", .wrapped thread⟩
      (m, .values [.native id])
  | .running => return answer [.thread t]
  | .wait =>
    let ticks ← m.optionalInteger t args 1 "coroutine.wait" 1
    return fun m =>
      match m.yieldNow t [] with
      | (m, .error .yield) =>
        let ticks := min (max ticks.toInt 0).toNat 0xffffffff
        (m.modifyThread t fun th => { th with sleep := ticks }, .error .yield)
      | refused => refused

end Machine

end LuaMachine
