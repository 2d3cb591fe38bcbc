import LuaMachine.Proofs.Machine.Frames

namespace LuaMachine

/-- The frames that one interpreter runs: only the outermost one belongs to native code, and none waits for a
native call. -/
inductive Band : List FrameOutline → Prop
  | host {f : FrameOutline} (hpending : f.pending = none) (htarget : f.target.continuation = .host) : Band [f]
  | inner {f : FrameOutline} {fs : List FrameOutline} (hpending : f.pending = none)
      (htarget : f.target.continuation ≠ .host) (hrest : Band fs) : Band (f :: fs)

/-- The frames of a suspended thread, of which the innermost one may wait for a native call. -/
inductive Paused : List FrameOutline → Prop
  | mk {f : FrameOutline} {fs : List FrameOutline} (hband : Band ({ f with pending := none } :: fs))
      (hpending : ∀ p, f.pending = some p → p.tail = false → p.target.continuation ≠ .host) : Paused (f :: fs)

/-- What is taken for granted around the work in progress. -/
structure Scope where
  /-- The work that was in progress before, and waits for it. -/
  base : List Activation
  /-- Every thread that nobody has run has a function to start with. A host that calls a function on a new thread leaves
  one behind that has none. -/
  starting : Bool
  /-- All native functions are regular. -/
  regular : Bool

namespace Scope

/-- What a host can rely on that makes each thread with a function to start with. -/
def host : Scope := ⟨[], true, true⟩

/-- Nothing was in progress before, and only regular functions are native. -/
structure Whole (scope : Scope) : Prop where
  base : scope.base = []
  regular : scope.regular = true

theorem Whole.host : Scope.host.Whole := ⟨rfl, rfl⟩

/-- The work that was in progress before keeps a thread busy. -/
def Occupies (scope : Scope) (id : ThreadId) : Prop := (scope.base.any fun a => a.thread? == some id) = true

theorem Whole.not_occupies {scope : Scope} (h : scope.Whole) (id : ThreadId) : ¬scope.Occupies id := by
  simp [Occupies, h.base]

end Scope

namespace ThreadOutline

/-- The counter of frames is exact and within its bound. -/
structure Fits (depth : Nat) (th : ThreadOutline) : Prop where
  counted : th.Counted
  bounded : th.frames.length ≤ depth

/-- What the status of a thread says while nobody runs it. -/
def AtRest (scope : Scope) (th : ThreadOutline) : Prop :=
  match th.status with
  | .initial => (scope.starting = true → th.starts = true) ∧ th.frames = [] ∧ th.hostReturnPending = false
  | .suspended => th.starts = false ∧
      (Paused th.frames ∧ th.hostReturnPending = false ∨ th.frames = [] ∧ th.hostReturnPending = true)
  | .endCall => th.starts = false ∧ Band th.frames
  | .dead => th.starts = false ∧ th.frames = []
  | .running => False
  | .normal => False

/-- A thread that nobody runs is in order. -/
structure Idle (scope : Scope) (depth : Nat) (th : ThreadOutline) : Prop extends Fits depth th where
  native : th.nativeDepth = 0
  atRest : th.AtRest scope

/-- A thread that the work in progress does not concern is in order: it is idle, unless the work that was in progress
before keeps it busy. -/
structure Rests (scope : Scope) (depth : Nat) (id : ThreadId) (th : ThreadOutline) : Prop where
  counted : th.Counted
  idle (hfree : ¬scope.Occupies id) : th.Idle scope depth

theorem Idle.rests {scope : Scope} {depth : Nat} {th : ThreadOutline} (h : th.Idle scope depth) (id : ThreadId) :
    th.Rests scope depth id := ⟨h.counted, fun _ => h⟩

end ThreadOutline

namespace Band

theorem ne_nil {fs : List FrameOutline} (h : Band fs) : fs ≠ [] := by
  cases h <;> exact List.cons_ne_nil _ _

theorem pending_head {f : FrameOutline} {fs : List FrameOutline} (h : Band (f :: fs)) : f.pending = none := by
  cases h <;> assumption

/-- Under a frame that belongs to native code there is nothing left. -/
theorem eq_nil_of_host {f : FrameOutline} {fs : List FrameOutline} (h : Band (f :: fs))
    (htarget : f.target.continuation = .host) : fs = [] := by
  cases h with
  | host => rfl
  | inner _ hinner => exact absurd htarget hinner

theorem tail {f : FrameOutline} {fs : List FrameOutline} (h : Band (f :: fs))
    (htarget : f.target.continuation ≠ .host) : Band fs := by
  cases h with
  | host _ hhost => exact absurd hhost htarget
  | inner _ _ hrest => exact hrest

theorem pending_of_mem {fs : List FrameOutline} (h : Band fs) {f : FrameOutline} (hf : f ∈ fs) : f.pending = none := by
  induction h with
  | host hpending =>
    rw [List.mem_singleton.mp hf]
    exact hpending
  | inner hpending _ _ ih =>
    rcases List.mem_cons.mp hf with rfl | hrest
    · exact hpending
    · exact ih hrest

/-- The outer frames of a band are a band. -/
theorem drop {fs : List FrameOutline} (h : Band fs) (n : Nat) : fs.drop n = [] ∨ Band (fs.drop n) := by
  induction h generalizing n with
  | host hpending htarget =>
    cases n with
    | zero => exact Or.inr (.host hpending htarget)
    | succ n => exact Or.inl (by simp)
  | inner hpending htarget hrest ih =>
    cases n with
    | zero => exact Or.inr (.inner hpending htarget hrest)
    | succ n => exact ih n

end Band

namespace Paused

theorem ne_nil {fs : List FrameOutline} (h : Paused fs) : fs ≠ [] := by
  cases h
  exact List.cons_ne_nil _ _

/-- A thread that waits for nothing goes on with its frames as they are. -/
theorem band_of_none {f : FrameOutline} {fs : List FrameOutline} (h : Paused (f :: fs)) (hpending : f.pending = none) :
    Band (f :: fs) := by
  obtain ⟨hband, -⟩ := h
  rwa [← hpending] at hband

end Paused

/-- A band may be paused. -/
theorem Band.paused {fs : List FrameOutline} (h : Band fs) : Paused fs := by
  obtain ⟨f, rest, rfl⟩ := List.exists_cons_of_ne_nil h.ne_nil
  have hnone := h.pending_head
  refine ⟨by rwa [← hnone], fun p hsome => ?_⟩
  rw [hnone] at hsome
  cases hsome

theorem ThreadOutline.Idle.isActive_eq_false {scope : Scope} {depth : Nat} {th : ThreadOutline}
    (h : th.Idle scope depth) : th.status.isActive = false := by
  have hrest := h.atRest
  unfold ThreadOutline.AtRest at hrest
  cases hstatus : th.status <;> first | rfl | (rw [hstatus] at hrest; cases hrest)

theorem ThreadOutline.Idle.visited {scope : Scope} {depth : Nat} {th : ThreadOutline} (h : th.Idle scope depth) :
    ThreadOutline.Idle scope depth ⟨th.status, th.frames, th.frames.length, th.starts, th.hostReturnPending, 0⟩ :=
  ⟨⟨rfl, h.bounded⟩, rfl, h.atRest⟩

/-- A failure that does not concern the bookkeeping of calls: no yield, and broken bookkeeping only where a thread
without a function to start with is resumed. -/
def Error.Ordinary (scope : Scope) : Error → Prop
  | .raised _ => True
  | .yield => False
  | .fatal (.corruptedStack what) => scope.starting = false ∧ what = .noActiveFrame
  | .fatal _ => True

/-- A signal that can be the outcome of a resume or of a call from the host. -/
def Signal.IsOutcome (scope : Scope) : Signal → Prop
  | .values _ => True
  | .yielded _ => True
  | .frameLimit => True
  | .sleeping => True
  | .error e => e.Ordinary scope
  | .go => False
  | .invoke .. => False

/-- What an instruction waits for is never for native code. -/
def Sequel.Sound : Sequel → Prop
  | .deliver target _ => target.continuation ≠ .host
  | _ => True

/-- A native function called by an instruction may yield. -/
def Sequel.TakesYield : Sequel → Prop
  | .deliver .. => True
  | .leave _ => True
  | _ => False

namespace Activation

/-- Work on a thread that hands errors on and does not touch frames. -/
def Passes (t : ThreadId) : Activation → Prop
  | .read _ => True
  | .protect => True
  | .concat thread .. => thread = t
  | .print thread .. => thread = t
  | _ => False

end Activation

/-- The innermost work takes a yield. -/
def TakesYield : List Activation → Prop
  | .startedNative .. :: _ => True
  | .interpret i :: _ => ∃ w sequel, i.stage = .waiting w sequel ∧ sequel.TakesYield
  | _ => False

/-- The innermost work cuts the frames back on an error. -/
def Unwinds : List Activation → Prop
  | .endCall _ (some _) _ _ :: _ => True
  | .endResume .. :: _ => True
  | _ => False

/-- An interpreter stands on a resume or on a call from native code, with the frames `fs` below those that it
runs. -/
inductive Stands (t : ThreadId) (i : Interpreter) : List FrameOutline → List Activation → Prop
  | onResume {floor : Nat} {held : Values} {acts : List Activation} (hfloor : i.floor = 0) :
      Stands t i [] (.endResume t floor held :: acts)
  | onCall {previous : Option Status} {held : Values} {fs : List FrameOutline} {acts : List Activation}
      (hfloor : i.floor = fs.length) (hlimit : i.limit = none) :
      Stands t i fs (.endCall t (some fs.length) previous held :: acts)

/-- The work on one thread, which has the frames `fs` when the innermost work goes on, with `n` calls from native
code in progress. `starts` and `hostReturn` are what the thread has to do first when it is resumed next. -/
inductive Segment (scope : Scope) (limits : Limits) (t : ThreadId) (starts hostReturn : Bool) :
    List FrameOutline → Nat → List Activation → Prop
  | resume {floor : Nat} {held : Values} (hstarts : starts = false) (hhost : hostReturn = false) :
      Segment scope limits t starts hostReturn [] 0 [.endResume t floor held]
  | visit {floor : Option Nat} {previous : Status} {held : Values} {fs : List FrameOutline}
      (hidle : ThreadOutline.Idle scope limits.callDepth ⟨previous, fs, fs.length, starts, hostReturn, 0⟩)
      (hfloor : ∀ n ∈ floor, n = fs.length) (hroom : 0 < limits.nativeDepth) :
      Segment scope limits t starts hostReturn fs 1 [.endCall t floor (some previous) held]
  | call {floor : Option Nat} {held : Values} {fs : List FrameOutline} {n : Nat} {acts : List Activation}
      (hfloor : ∀ n ∈ floor, n = fs.length) (hroom : n < limits.nativeDepth)
      (hbelow : Segment scope limits t starts hostReturn fs n acts) :
      Segment scope limits t starts hostReturn fs (n + 1) (.endCall t floor none held :: acts)
  | pass {a : Activation} {fs : List FrameOutline} {n : Nat} {acts : List Activation} (ha : a.Passes t)
      (hbelow : Segment scope limits t starts hostReturn fs n acts) :
      Segment scope limits t starts hostReturn fs n (a :: acts)
  | started {floor : Nat} {held held' : Values} (hstarts : starts = false) (hhost : hostReturn = false) :
      Segment scope limits t starts hostReturn [] 0 [.startedNative t held, .endResume t floor held']
  | wait {i : Interpreter} {w : Window} {sequel : Sequel} {band fs : List FrameOutline} {n : Nat}
      {acts : List Activation} (hthread : i.thread = t) (hstage : i.stage = .waiting w sequel) (hsequel : sequel.Sound)
      (hband : Band band) (hstands : Stands t i fs acts) (hbelow : Segment scope limits t starts hostReturn fs n acts) :
      Segment scope limits t starts hostReturn (band ++ fs) n (.interpret i :: acts)

namespace ThreadOutline

/-- The work `acts` on a thread goes on with these frames below those on top. -/
def Under (scope : Scope) (limits : Limits) (t : ThreadId) (th : ThreadOutline) (fs : List FrameOutline)
    (acts : List Activation) : Prop :=
  Segment scope limits t th.starts th.hostReturnPending fs th.nativeDepth acts

end ThreadOutline

/-- The work below a thread: it was resumed by a thread that was resumed by another one, and so on, down to the work
that was in progress before. -/
inductive Below (scope : Scope) (o : Outline) : List Activation → List ThreadId → Prop
  | bottom : Below scope o scope.base []
  | resumed {t target : ThreadId} {wrapped : Bool} {acts below : List Activation} {ts : List ThreadId}
      (hstatus : (o.thread t).status = .normal) (hfits : (o.thread t).Fits o.limits.callDepth)
      (hrange : t.index < o.threads.size)
      (hacts : (o.thread t).Under scope o.limits t (o.thread t).frames acts) (hbelow : Below scope o below ts) :
      Below scope o (.resumed t .running wrapped target :: (acts ++ below)) (t :: ts)

/-- What a host may do on the thread that runs it: it computes, calls, yields and fails, but neither ends or resumes
that thread nor reports what only the bookkeeping of calls does. -/
def HostOperation.IsRegular : HostOperation → Prop
  | .destroy => False
  | .resume => False
  | .failFatal => False
  | .escapeYield => False
  | _ => True

/-- The functions of the standard library, and those of a host that may be called from programs. -/
def Builtin.IsRegular : Builtin → Prop
  | .base _ => True
  | .coroutine _ => True
  | .wrapped _ => True
  | .spawn _ => True
  | .host op => op.IsRegular
  | .group .. => False

namespace Outline

/-- All native functions are regular, if that is taken for granted. -/
def Regular (scope : Scope) (o : Outline) : Prop := scope.regular = true → ∀ n ∈ o.natives, n.body.IsRegular

/-- Everything around the thread at work: the threads `ts` that wait for it are in order, and so are those that nobody
runs. -/
structure Setting (scope : Scope) (o : Outline) (t : ThreadId) (below : List Activation) (ts : List ThreadId) :
    Prop where
  regular : o.Regular scope
  below : Below scope o below ts
  nodup : (t :: ts).Nodup
  range : t.index < o.threads.size
  fits : (o.thread t).Fits o.limits.callDepth
  others : ∀ id, id ∉ t :: ts → (o.thread id).Rests scope o.limits.callDepth id

end Outline

/-- The work `acts` on a thread is in order when it takes a signal. -/
inductive Ready (scope : Scope) (limits : Limits) (t : ThreadId) (th : ThreadOutline) :
    List Activation → Signal → Prop
  | go {i : Interpreter} {band fs : List FrameOutline} {acts : List Activation} (hthread : i.thread = t)
      (hstage : ∀ w sequel, i.stage ≠ .waiting w sequel) (hband : Band band) (hstands : Stands t i fs acts)
      (hframes : th.frames = band ++ fs) (hbelow : th.Under scope limits t fs acts) :
      Ready scope limits t th (.interpret i :: acts) .go
  | invoke {acts : List Activation} {id : NativeId} {args : Values} (hacts : th.Under scope limits t th.frames acts)
      (htakes : th.nativeDepth = 0 → TakesYield acts) : Ready scope limits t th acts (.invoke t id args)
  | values {acts : List Activation} {vs : Values} (hacts : th.Under scope limits t th.frames acts) :
      Ready scope limits t th acts (.values vs)
  | error {acts : List Activation} {e : Error} {above fs : List FrameOutline} (he : e.Ordinary scope)
      (hframes : th.frames = above ++ fs) (habove : above = [] ∨ Band above ∧ Unwinds acts)
      (hacts : th.Under scope limits t fs acts) : Ready scope limits t th acts (.error e)
  | yield {acts : List Activation} (hacts : th.Under scope limits t th.frames acts) (hnative : th.nativeDepth = 0)
      (htakes : TakesYield acts) : Ready scope limits t th acts (.error .yield)
  | pause {floor : Nat} {held : Values} {s : Signal} (hs : s = .frameLimit ∨ ∃ vs, s = .yielded vs)
      (hidle : ThreadOutline.Idle scope limits.callDepth { th with status := .suspended }) :
      Ready scope limits t th [.endResume t floor held] s

/-- An error of work that has touched no frames. -/
theorem Ready.errorHere {scope : Scope} {limits : Limits} {t : ThreadId} {th : ThreadOutline}
    {acts : List Activation} {e : Error} (he : e.Ordinary scope) (hacts : th.Under scope limits t th.frames acts) :
    Ready scope limits t th acts (.error e) :=
  .error he (List.nil_append _).symm (Or.inl rfl) hacts

/-- The bookkeeping of calls is in order: the machine is back at the work that was in progress before, it works on a
thread, or a thread takes the outcome of another one that it resumed. -/
inductive Outline.Sound (scope : Scope) (o : Outline) (s : Signal) : Prop
  | atRest (hregular : o.Regular scope) (hstack : o.stack = scope.base)
      (hrests : ∀ id, (o.thread id).Rests scope o.limits.callDepth id) (hs : s.IsOutcome scope)
  | working {t : ThreadId} {acts below : List Activation} {ts : List ThreadId} (hstack : o.stack = acts ++ below)
      (hsetting : o.Setting scope t below ts) (hstatus : (o.thread t).status = .running)
      (hready : Ready scope o.limits t (o.thread t) acts s)
  | back {t target : ThreadId} {wrapped : Bool} {acts below : List Activation} {ts : List ThreadId}
      (hstack : o.stack = .resumed t .running wrapped target :: (acts ++ below)) (hsetting : o.Setting scope t below ts)
      (hacts : (o.thread t).Under scope o.limits t (o.thread t).frames acts) (hs : s.IsOutcome scope)

end LuaMachine
