import LuaMachine.Proofs.Machine.Failure
import LuaMachine.Library.Base
import LuaMachine.Library.Coroutine

namespace LuaMachine.Machine

/-- What a base function does with the arguments `args` on the thread `t`. -/
inductive BaseEffect (t : ThreadId) (args : Values) : Effect → Prop
  | answer (vs : Values) : BaseEffect t args (answer vs)
  | protect (f : Value) : BaseEffect t args fun m => (m.push .protect).beginCall t f (args.drop 1) []
  | iterate (f : BaseFunction) (vs : Values) :
      BaseEffect t args fun m => ((m.newBase f).1, .values ((m.newBase f).2 :: vs))
  | convert (v : Value) : BaseEffect t args fun m => m.attempt t (m.toText v []) args
  | store (id : TableId) (key value : Value) :
      BaseEffect t args fun m => (m.storeKey id key value args, .values [.table id])
  | install (id : TableId) (metatable : Option TableId) :
      BaseEffect t args fun m => (m.setMetatable id metatable args, .values [.table id])
  | print : BaseEffect t args fun m => m.continuePrint t args [] args

/-- A base function refuses its arguments, or has one of these effects. -/
theorem checked_base (m : Machine) (t : ThreadId) (f : BaseFunction) (args : Values) :
    Checked (BaseEffect t args) (m.base t f args) := by
  have hanswer (vs : Values) : BaseEffect t args (answer vs) := .answer vs
  cases f with
  | assert =>
    refine (m.checked_requireArg t args 1 _).bind fun condition _ => ?_
    split
    · exact hanswer args
    · dsimp only
      split
      · trivial
      · split <;> trivial
  | error =>
    refine (m.checked_optionalInteger t args 2 _ 1).bind fun level _ => ?_
    split
    · split <;> trivial
    · trivial
  | pcall =>
    refine (m.checked_requireArg t args 1 _).bind fun f _ => ?_
    exact .protect f
  | next =>
    refine (m.checked_requireTable t args 1 _).bind fun id _ => ?_
    split
    · exact hanswer _
    · exact hanswer _
    · trivial
  | pairs =>
    refine (m.checked_requireTable t args 1 _).bind fun id _ => ?_
    exact .iterate .next [.table id, .nil]
  | ipairs =>
    refine (m.checked_requireTable t args 1 _).bind fun id _ => ?_
    exact .iterate .ipairsNext [.table id, .int 0]
  | ipairsNext =>
    refine (m.checked_requireTable t args 1 _).bind fun id _ => ?_
    refine (m.checked_optionalInteger t args 2 _ 0).bind fun i _ => ?_
    exact hanswer _
  | select =>
    refine (m.checked_requireArg t args 1 _).bind fun selector _ => ?_
    dsimp only
    split
    · exact hanswer _
    · split
      · trivial
      · rename_i n _
        generalize (if n.toInt < 0 then n.toInt + args.length else min n.toInt args.length) = place
        split
        · trivial
        · exact hanswer _
  | type =>
    refine (m.checked_requireArg t args 1 _).bind fun v _ => ?_
    exact hanswer _
  | tostring =>
    refine (m.checked_requireArg t args 1 _).bind fun v _ => ?_
    exact .convert v
  | tonumber =>
    refine (m.checked_requireArg t args 1 _).bind fun v _ => ?_
    refine (m.checked_optionalInteger t args 2 _ 10).bind fun base _ => ?_
    dsimp only
    split
    · exact hanswer _
    · split
      · trivial
      · split
        · exact hanswer _
        · trivial
  | rawget =>
    refine (m.checked_requireTable t args 1 _).bind fun id _ => ?_
    refine (m.checked_requireArg t args 2 _).bind fun key _ => ?_
    exact hanswer _
  | rawset =>
    refine (m.checked_requireTable t args 1 _).bind fun id _ => ?_
    refine (m.checked_requireArg t args 2 _).bind fun key _ => ?_
    refine (m.checked_requireArg t args 3 _).bind fun value _ => ?_
    split
    · exact .store id _ value
    · trivial
  | rawequal =>
    refine (m.checked_requireArg t args 1 _).bind fun a _ => ?_
    refine (m.checked_requireArg t args 2 _).bind fun b _ => ?_
    exact hanswer _
  | setmetatable =>
    refine (m.checked_requireTable t args 1 _).bind fun id _ => ?_
    extract_lets install
    have hinstall (metatable : Option TableId) : Checked (BaseEffect t args) (install metatable) := by
      dsimp only [install]
      split
      · split
        · exact .install id metatable
        · trivial
      · exact .install id metatable
    split
    · exact hinstall none
    · exact hinstall _
    · trivial
  | getmetatable =>
    refine (m.checked_requireArg t args 1 _).bind fun v _ => ?_
    split
    · exact hanswer _
    · exact hanswer _
  | unpack =>
    refine (m.checked_requireTable t args 1 _).bind fun id _ => ?_
    refine (m.checked_optionalInteger t args 2 _ 1).bind fun i _ => ?_
    extract_lets table ctx low list
    have hlist (j : Int) : Checked (BaseEffect t args) (list j) := by
      dsimp only [list]
      split
      · exact hanswer []
      · split
        · trivial
        · exact hanswer _
    split
    · exact hlist _
    · have hlast := m.checked_optionalInteger t args 3 "unpack" 0
      cases hj : m.optionalInteger t args 3 "unpack" 0 with
      | ok j => exact hlist j.toInt
      | error e =>
        rw [hj] at hlast
        exact hlast
  | print => exact .print

/-- What a coroutine function does with the arguments `args` on the thread `t`. -/
inductive CoroutineEffect (t : ThreadId) (args : Values) : Effect → Prop
  | answer (vs : Values) : CoroutineEffect t args (answer vs)
  | create (f : Value) : CoroutineEffect t args fun m => ((m.newThread f []).1, .values [.thread (m.newThread f []).2])
  | wrap (f : Value) : CoroutineEffect t args fun m =>
      let wrapped := (m.newThread f []).1.addNative ⟨"coroutine.wrap", .wrapped (m.newThread f []).2⟩
      (wrapped.1, .values [.native wrapped.2])
  | resume (target : ThreadId) : CoroutineEffect t args fun m => m.beginResumeFrom t target false (args.drop 1)
  | yield : CoroutineEffect t args fun m => m.yieldNow t args
  | wait (ticks : Nat) : CoroutineEffect t args fun m =>
      match m.yieldNow t [] with
      | (m, .error .yield) => (m.modifyThread t fun th => { th with sleep := ticks }, .error .yield)
      | refused => refused

/-- A coroutine function refuses its arguments, or has one of these effects. -/
theorem checked_coroutine (m : Machine) (t : ThreadId) (f : CoroutineFunction) (args : Values) :
    Checked (CoroutineEffect t args) (m.coroutine t f args) := by
  cases f with
  | create =>
    refine (m.checked_requireFunction t args _).bind fun f _ => ?_
    exact .create f
  | resume =>
    refine (m.checked_requireThread t args 1 _).bind fun target _ => ?_
    exact .resume target
  | yield => exact .yield
  | status =>
    refine (m.checked_requireThread t args 1 _).bind fun target _ => ?_
    exact CoroutineEffect.answer _
  | wrap =>
    refine (m.checked_requireFunction t args _).bind fun f _ => ?_
    exact .wrap f
  | running => exact CoroutineEffect.answer _
  | wait =>
    refine (m.checked_optionalInteger t args 1 _ 1).bind fun ticks _ => ?_
    exact .wait _

end LuaMachine.Machine
