import LuaMachine.Proofs.Machine.Interpreting
import LuaMachine.Proofs.Machine.BaseLibrary
import LuaMachine.Library.Coroutine
import LuaMachine.Library.Host

namespace LuaMachine

variable {scope : Scope}

namespace Outline

/-- A thread with a start function and nothing else to do. -/
def fresh : ThreadOutline := ⟨.initial, [], 0, true, false, 0⟩

def addThread (o : Outline) : Outline := { o with threads := o.threads.push fresh }

def addNative (o : Outline) (n : Native) : Outline := { o with natives := o.natives.push n }

variable {o : Outline}

theorem thread_addThread_of_lt {id : ThreadId} (h : id.index < o.threads.size) :
    o.addThread.thread id = o.thread id := by
  rw [thread, addThread, Array.getElem?_push_lt h, thread, Array.getElem?_eq_getElem h]

/-- What was no thread before is idle afterwards. -/
theorem idle_addThread_of_le {id : ThreadId} (h : o.threads.size ≤ id.index) (depth : Nat) :
    (o.addThread.thread id).Idle scope depth := by
  by_cases hnew : id.index = o.threads.size
  · have hfresh : o.addThread.thread id = fresh := by
      rw [thread, addThread, hnew, Array.getElem?_push_size]
      rfl
    rw [hfresh]
    exact ⟨⟨rfl, Nat.zero_le _⟩, rfl, fun _ => rfl, rfl, rfl⟩
  · have hnone : o.addThread.thread id = ⟨.dead, [], 0, false, false, 0⟩ := by
      rw [thread, addThread, Array.getElem?_eq_none (by rw [Array.size_push]; omega)]
      rfl
    rw [hnone]
    exact ⟨⟨rfl, Nat.zero_le _⟩, rfl, rfl, rfl⟩

theorem Setting.addThread {t : ThreadId} {below : List Activation} {ts : List ThreadId}
    (h : o.Setting scope t below ts) : o.addThread.Setting scope t below ts := by
  refine h.congr rfl h.regular (by rw [Outline.addThread, Array.size_push]; omega) ?_ ?_ ?_
  · rw [thread_addThread_of_lt h.range]
    exact h.fits
  · intro id hid
    exact thread_addThread_of_lt (h.below.range hid)
  · intro id hid
    by_cases hlt : id.index < o.threads.size
    · rw [thread_addThread_of_lt hlt]
      exact h.others id hid
    · exact (idle_addThread_of_le (Nat.not_lt.mp hlt) _).rests id

theorem Setting.addNative {t : ThreadId} {below : List Activation} {ts : List ThreadId} (h : o.Setting scope t below ts)
    {n : Native} (hn : n.body.IsRegular) : (o.addNative n).Setting scope t below ts := by
  refine h.congr rfl ?_ (Nat.le_refl _) h.fits (fun _ _ => rfl) h.others
  intro hscope other hother
  rcases Array.mem_push.mp hother with hold | rfl
  · exact h.regular hscope other hold
  · exact hn

/-- A thread that nobody runs may change if it is idle afterwards. -/
theorem Setting.modifyOther {t : ThreadId} {below : List Activation} {ts : List ThreadId}
    (h : o.Setting scope t below ts) {id : ThreadId} (hid : id ∉ t :: ts) {f : ThreadOutline → ThreadOutline}
    (hidle : (f (o.thread id)).Idle scope o.limits.callDepth) : (o.modifyThread id f).Setting scope t below ts := by
  refine h.congr rfl h.regular (by simp) ?_ ?_ ?_
  · rw [thread_modifyThread_of_ne _ _ _ fun heq => hid (by simp [heq])]
    exact h.fits
  · intro other hother
    exact thread_modifyThread_of_ne _ _ _ fun heq => hid (by simp [← heq, hother])
  · intro other hother
    obtain hsame | ⟨-, hchanged⟩ := o.thread_modifyThread_cases id f other
    · rw [hsame]
      exact h.others other hother
    · rw [hchanged]
      exact hidle.rests other

end Outline

namespace Machine

variable {m : Machine} {t : ThreadId} {acts below : List Activation} {ts : List ThreadId}

theorem outline_newThread (m : Machine) (f : Value) (args : Values) :
    (m.newThread f args).1.outline = m.outline.addThread := by
  have hadded : m.addThread.1.outline =
      { m.outline with threads := m.outline.threads.push ⟨.initial, [], 0, false, false, 0⟩ } := by
    simp [Machine.outline, Machine.addThread, Thread.outline]
  have hstarted : (m.newThread f args).1.outline =
      m.addThread.1.outline.modifyThread m.addThread.2 fun th => { th with starts := true } :=
    outline_modifyThread _ (by intro; rfl) _
  have hplace : m.addThread.2.index = m.outline.threads.size := m.outline_size.symm
  rw [hstarted, hadded]
  simp only [Outline.modifyThread, Outline.addThread, Outline.mk.injEq, true_and, and_true]
  apply Array.ext_getElem?
  intro i
  rw [Array.getElem?_modify, Array.getElem?_push, Array.getElem?_push, hplace]
  by_cases hi : i = m.outline.threads.size
  · rw [if_pos hi, if_pos hi, if_pos hi.symm]
    rfl
  · rw [if_neg hi, if_neg hi, if_neg (Ne.symm hi)]

theorem outline_destroyThread (hcount : (m.outline.thread t).Counted) (hrange : t.index < m.threads.size) :
    (m.destroyThread t).outline = m.outline.modifyThread t fun th => { th with
      status := .dead
      frames := []
      depth := 0
      starts := false
      hostReturnPending := false } := by
  have hunwound := outline_unwind hcount hrange 0
  rw [Nat.sub_zero, List.drop_length] at hunwound
  rw [destroyThread, outline_modifyThread (g := fun th => { th with
    status := .dead
    starts := false
    hostReturnPending := false }) _ (by intro; rfl), hunwound, Outline.setFrames, Outline.modifyThread_modifyThread]
  rfl

namespace Works

theorem addThread (h : m.Works scope t acts below ts) (f : Value) (args : Values) :
    (m.newThread f args).1.Works scope t acts below ts := by
  have houtline := m.outline_newThread f args
  have hlimits : (m.newThread f args).1.limits = m.limits := congrArg Outline.limits houtline
  have hstack : (m.newThread f args).1.stack = m.stack := congrArg Outline.stack houtline
  have hthread := Outline.thread_addThread_of_lt h.setting.range
  rw [← houtline] at hthread
  refine ⟨hstack.trans h.stack, ?_, ?_, ?_⟩
  · rw [houtline]
    exact h.setting.addThread
  · rw [hthread]
    exact h.status
  · rw [hthread, hlimits]
    exact h.under

theorem addNative (h : m.Works scope t acts below ts) {n : Native} (hn : n.body.IsRegular) :
    (m.addNative n).1.Works scope t acts below ts :=
  ⟨h.stack, h.setting.addNative hn, h.status, h.under⟩

/-- A thread that nobody runs may change if it is idle afterwards. -/
theorem modifyThread (h : m.Works scope t acts below ts) {m' : Machine} {id : ThreadId}
    {f : ThreadOutline → ThreadOutline} (ho : m'.outline = m.outline.modifyThread id f) (hid : id ∉ t :: ts)
    (hidle : (f (m.outline.thread id)).Idle scope m.limits.callDepth) : m'.Works scope t acts below ts := by
  have hlimits : m'.limits = m.limits := congrArg Outline.limits ho
  have hstack : m'.stack = m.stack := congrArg Outline.stack ho
  have hthread : m'.outline.thread t = m.outline.thread t := by
    rw [ho]
    exact Outline.thread_modifyThread_of_ne _ _ _ fun heq => hid (by simp [heq])
  refine ⟨hstack.trans h.stack, ?_, ?_, ?_⟩
  · rw [ho]
    exact h.setting.modifyOther hid hidle
  · rw [hthread]
    exact h.status
  · rw [hthread, hlimits]
    exact h.under

/-- A thread that nobody runs may be ended. -/
theorem destroyThread (h : m.Works scope t acts below ts) {id : ThreadId} (hid : id ∉ t :: ts)
    (hrange : id.index < m.threads.size) (hidle : (m.outline.thread id).Idle scope m.limits.callDepth) :
    (m.destroyThread id).Works scope t acts below ts :=
  h.modifyThread (outline_destroyThread hidle.counted hrange) hid ⟨⟨rfl, Nat.zero_le _⟩, hidle.native, rfl, rfl⟩

/-- A group takes a thread that nobody runs, or ends it. -/
theorem addToGroup (h : m.Works scope t acts below ts) (g : GroupId) {id : ThreadId} (hid : id ∉ t :: ts)
    (hrange : id.index < m.threads.size) (hidle : (m.outline.thread id).Idle scope m.limits.callDepth) :
    (m.addToGroup g id).Works scope t acts below ts := by
  unfold Machine.addToGroup
  split
  · split
    · exact h
    · exact h.destroyThread hid hrange hidle
  · exact h.congr rfl

/-- A thread yields, unless native code waits for it. -/
theorem yieldNow (h : m.Works scope t acts below ts)
    (htakes : (m.outline.thread t).nativeDepth = 0 → TakesYield acts) (vs : Values) :
    (m.yieldNow t vs).1.outline = m.outline ∧ m.outline.Sound scope (m.yieldNow t vs).2 := by
  have hnative : (m.thread t).nativeDepth = (m.outline.thread t).nativeDepth := by
    rw [outline_thread]
    rfl
  unfold Machine.yieldNow
  dsimp only
  split
  · exact ⟨rfl, h.error (m.isRaised_errorHere t _)⟩
  · split
    · exact ⟨rfl, h.error (m.isRaised_errorHere t _)⟩
    · have hzero : (m.outline.thread t).nativeDepth = 0 := by omega
      exact ⟨outline_modifyThread_of_eq m (by intro; rfl) t,
        .working h.stack h.setting h.status (.yield h.under hzero (htakes hzero))⟩

end Works

/-- An effect leaves the bookkeeping of calls in order. -/
def Keeps (scope : Scope) (m : Machine) (effect : Effect) : Prop := (effect m).1.outline.Sound scope (effect m).2

namespace Works

/-- A base function computes, or calls back. -/
theorem keeps_baseEffect (h : m.Works scope t acts below ts) {args : Values} {effect : Effect}
    (heffect : BaseEffect t args effect) : m.Keeps scope effect := by
  cases heffect with
  | answer vs => exact h.values vs
  | protect f => exact (h.push (a := .protect) trivial).beginCall f _ []
  | iterate f vs => exact (h.addNative (n := ⟨_, .base f⟩) trivial).values _
  | convert v => exact h.attempt (m.regular_toText v []) args
  | store id key value => exact (h.congr (outline_storeKey m _ _ _ _)).values _
  | install id metatable => exact (h.congr (outline_setMetatable m id metatable args)).values _
  | print => exact h.continuePrint args [] args

/-- A coroutine function makes threads and functions, resumes another thread, or yields. -/
theorem checked_coroutine (h : m.Works scope t acts below ts)
    (htakes : (m.outline.thread t).nativeDepth = 0 → TakesYield acts) (f : CoroutineFunction) (args : Values) :
    Checked (m.Keeps scope) (m.coroutine t f args) := by
  have hanswer (vs : Values) : m.Keeps scope (answer vs) := h.values vs
  cases f with
  | create =>
    refine (m.checked_requireFunction t args _).bind fun f _ => ?_
    exact (h.addThread f []).values _
  | resume =>
    refine (m.checked_requireThread t args 1 _).bind fun target _ => ?_
    exact h.beginResumeFrom target false _
  | yield =>
    obtain ⟨hsame, hsound⟩ := h.yieldNow htakes args
    rw [← hsame] at hsound
    exact hsound
  | status =>
    refine (m.checked_requireThread t args 1 _).bind fun target _ => ?_
    exact hanswer _
  | wrap =>
    refine (m.checked_requireFunction t args _).bind fun f _ => ?_
    exact ((h.addThread f []).addNative (n := ⟨_, .wrapped _⟩) trivial).values _
  | running => exact hanswer _
  | wait =>
    refine (m.checked_optionalInteger t args 1 _ 1).bind fun ticks _ => ?_
    obtain ⟨hsame, hsound⟩ := h.yieldNow htakes []
    rw [← hsame] at hsound
    change Outline.Sound scope _ _
    dsimp only
    split
    · rename_i m' hyield
      rw [hyield] at hsound
      rw [outline_modifyThread_of_eq m' (by intro; rfl)]
      exact hsound
    · exact hsound

/-- A thread that is spawned starts later, or is ended at once if its group refuses it. -/
theorem checked_spawnFrom (h : m.Works scope t acts below ts) (name : String) (g : GroupId) (args : Values) :
    Checked (m.Keeps scope) (m.spawnFrom t name g args) := by
  refine (m.checked_requireArg t args 1 _).bind fun f _ => ?_
  have hadded := h.addThread f (args.drop 1)
  have hplace : (m.newThread f (args.drop 1)).2.index = m.threads.size := rfl
  have hother : (m.newThread f (args.drop 1)).2 ∉ t :: ts := by
    intro hmem
    have hlt : (m.newThread f (args.drop 1)).2.index < m.outline.threads.size := by
      rcases List.mem_cons.mp hmem with heq | hmem
      · rw [heq]
        exact h.setting.range
      · exact h.setting.below.range hmem
    rw [hplace, outline_size] at hlt
    exact Nat.lt_irrefl _ hlt
  have hrange : (m.newThread f (args.drop 1)).2.index < (m.newThread f (args.drop 1)).1.threads.size := by
    rw [hplace, ← outline_size, ← outline_size, outline_newThread, Outline.addThread, Array.size_push]
    exact Nat.lt_succ_self _
  have hidle : ((m.newThread f (args.drop 1)).1.outline.thread (m.newThread f (args.drop 1)).2).Idle scope
      (m.newThread f (args.drop 1)).1.limits.callDepth := by
    rw [outline_newThread]
    exact Outline.idle_addThread_of_le (Nat.le_of_eq (m.outline_size.trans hplace.symm)) _
  exact (hadded.addToGroup g hother hrange hidle).values _

/-- What a host does on the thread that runs it. -/
theorem keeps_hostOperation (h : m.Works scope t acts below ts)
    (htakes : (m.outline.thread t).nativeDepth = 0 → TakesYield acts) {op : HostOperation} (hop : op.IsRegular)
    (args : Values) : m.Keeps scope fun m => m.hostOperation t op args := by
  cases op with
  | destroy | resume | failFatal | escapeYield => cases hop
  | echo | nothing | count | traceback | position | depth | threadNumber | status | references => exact h.values _
  | fail | failAt => exact h.error trivial
  | yield =>
    obtain ⟨hsame, hsound⟩ := h.yieldNow htakes args
    rw [← hsame] at hsound
    exact hsound
  | call => exact h.beginCall _ _ []
  | sleep =>
    have hslept : (m.modifyThread t fun th =>
        { th with sleep := (UInt32.ofInt (integerArg args 0)).toNat }).Works scope t acts below ts :=
      h.congr (m.outline_modifyThread_of_eq (by intro; rfl) t)
    exact hslept.values []
  | jump =>
    have hactive : (m.thread t).status = .running := by
      rw [← h.status, outline_thread]
      rfl
    have hrefused : m.jumpThread t (Values.arg args 0) (args.drop 1) =
        .error (.ofText "cannot jump an active coroutine") := by
      rw [jumpThread, hactive]
      rfl
    rw [Keeps, hostOperation]
    rw [hrefused]
    exact h.error trivial
  | index => exact h.attempt (m.regular_index t _ _) args
  | setIndex => exact (h.congr (m.outline_setIndex t _ _ _)).attempt (m.regular_setIndex t _ _ _) args
  | arith =>
    rw [Keeps, hostOperation]
    split
    · split
      · exact h.attempt (m.regular_arith t _ _ _) args
      · exact h.error trivial
    · exact h.error trivial
  | equal => exact h.attempt (m.regular_equal _ _) args
  | lessThan => exact h.attempt (m.regular_lessThan t _ _) args
  | lessEqual => exact h.attempt (m.regular_lessEqual t _ _) args
  | concat => exact h.continueJoin _ []
  | length => exact h.attempt (m.regular_lengthOf t _) args
  | tostring => exact h.attempt (m.regular_toText _ _) args
  | metamethod =>
    rw [Keeps, hostOperation]
    split <;> exact h.values _

/-- What a regular function does. -/
theorem checked_effect (h : m.Works scope t acts below ts)
    (htakes : (m.outline.thread t).nativeDepth = 0 → TakesYield acts) {body : Builtin} (hbody : body.IsRegular)
    (args : Values) : Checked (m.Keeps scope) (m.effect t body args) := by
  cases body with
  | base f => exact (m.checked_base t f args).imp fun _ => h.keeps_baseEffect
  | coroutine f => exact h.checked_coroutine htakes f args
  | wrapped target => exact h.beginResumeFrom target true args
  | spawn name => exact h.checked_spawnFrom name ⟨0⟩ args
  | host op => exact h.keeps_hostOperation htakes hbody args
  | group => cases hbody

end Works

theorem isRegular_native (h : ∀ n ∈ m.natives, n.body.IsRegular) (id : NativeId) : (m.native id).body.IsRegular := by
  rw [native]
  cases hget : m.natives[id.index]? with
  | none => trivial
  | some n => exact h n (Array.mem_of_getElem? hget)

/-- A regular function that is invoked leaves the bookkeeping of calls in order. -/
theorem invoke_sound (h : m.Works scope t acts below ts)
    (htakes : (m.outline.thread t).nativeDepth = 0 → TakesYield acts) {id : NativeId}
    (hregular : (m.native id).body.IsRegular) (args : Values) :
    (m.invoke t id args).1.outline.Sound scope (m.invoke t id args).2 := by
  have hcalled : ({ m with inUse := args } : Machine).Works scope t acts below ts := h.congr rfl
  have hregular : (({ m with inUse := args } : Machine).native id).body.IsRegular := hregular
  have hchecked := hcalled.checked_effect htakes hregular args
  unfold invoke
  dsimp only
  split
  · rename_i effect heq
    rw [heq] at hchecked
    exact hchecked
  · rename_i e heq
    rw [heq] at hchecked
    exact hcalled.error hchecked

end Machine

end LuaMachine
