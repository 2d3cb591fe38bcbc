import LuaMachine.Proofs.Machine.Fatality
import LuaMachine.Proofs.Machine.Steady

namespace LuaMachine

/-- A thread that nobody has run has no function to start with. -/
def Thread.IsBlank (th : Thread) : Prop := th.status = .initial ∧ th.start = none

instance : DecidablePred Thread.IsBlank := fun th =>
  inferInstanceAs (Decidable (th.status = .initial ∧ th.start = none))

namespace Scope

/-- What a host can rely on that leaves blank threads behind. -/
def lenient : Scope := ⟨[], false, true⟩

theorem Whole.lenient : Scope.lenient.Whole := ⟨rfl, rfl⟩

end Scope

/-- A thread that is idle among blank ones, and is none itself, is idle. -/
theorem Thread.idle_of_not_isBlank {scope : Scope} {depth : Nat} {th : Thread} (h : th.outline.Idle scope depth)
    (hblank : ¬th.IsBlank) : th.outline.Idle .host depth := by
  refine ⟨h.toFits, h.native, ?_⟩
  have hrest := h.atRest
  unfold ThreadOutline.AtRest at hrest ⊢
  rw [show th.outline.status = th.status from rfl] at hrest ⊢
  cases hstatus : th.status with
  | initial =>
    rw [hstatus] at hrest
    have hstart : th.start ≠ none := fun hnone => hblank ⟨hstatus, hnone⟩
    exact ⟨fun _ => Option.isSome_iff_ne_none.mpr hstart, hrest.2⟩
  | suspended | endCall | dead | running | normal =>
    rw [hstatus] at hrest
    exact hrest

namespace Machine

variable {scope : Scope} {m m' : Machine} {t : ThreadId} {fuel : Nat} {s : Signal}

/-- Calls a function on a thread of its own, with at most `fuel` steps of the machine. -/
def callFunction (fuel : Nat) (m : Machine) (f : Value) (args : Values) : Option (Machine × Signal) :=
  let (m, t) := m.addThread
  m.operate fuel (.call t f args)

/-- The machines that a host can have between two operations, also if it calls functions on threads of their own. -/
inductive Served : Machine → Prop
  | new (limits : Limits) : Served (Machine.new limits)
  | change {m m' : Machine} (h : m.Served) (hlimits : m'.limits = m.limits) (hthreads : m'.threads = m.threads)
      (hstack : m'.stack = m.stack) (hnatives : ∀ n ∈ m'.natives, n.body.IsRegular) : Served m'
  | operate {m m' : Machine} {op : ThreadOperation} {fuel : Nat} {s : Signal} (h : m.Served)
      (hthread : ∀ t ∈ op.thread?, t.index < m.threads.size) (hresult : m.operate fuel op = some (m', s)) : Served m'
  | callFunction {m m' : Machine} {f : Value} {args : Values} {fuel : Nat} {s : Signal} (h : m.Served)
      (hresult : m.callFunction fuel f args = some (m', s)) : Served m'

/-- A resume of a blank thread that nobody runs and that is awake fails at once. -/
theorem beginResume_of_isBlank {depth : Nat} (hidle : (m.thread t).outline.Idle scope depth)
    (hblank : (m.thread t).IsBlank) (hawake : (m.thread t).sleep = 0) (budget : Option Nat) (args : Values) :
    m.beginResume t budget args =
      ((m.modifyThread t fun th => { th with status := .running, instructions := 0 }).push
        (.endResume t (m.thread t).depth []), .error (.corrupted .noActiveFrame)) := by
  obtain ⟨hstatus, hstart⟩ := hblank
  have hrest := hidle.atRest
  rw [ThreadOutline.AtRest, show (m.thread t).outline.status = .initial from hstatus] at hrest
  obtain ⟨-, hframes, hreturn⟩ := hrest
  have hframes : (m.thread t).frames = [] := List.map_eq_nil_iff.mp hframes
  have hreturn : (m.thread t).hostReturnPending = false := hreturn
  have hrange : t.index < m.threads.size := index_lt_of_status (by rw [hstatus]; rintro ⟨⟩)
  simp [beginResume, hawake, hstatus, Status.isActive, Status.isResumable, beginResumed, thread_modifyThread hrange,
    hstart, hreturn, hframes]

namespace AtRest

/-- Among blank threads there may be one more. -/
theorem addThread (h : m.AtRest scope) (hscope : scope.starting = false) : m.addThread.1.AtRest scope := by
  refine ⟨h.regular, h.stack, fun id => ?_⟩
  by_cases hnew : id.index = m.threads.size
  · have hblank : m.addThread.1.thread id = { number := m.nextThreadNumber } := by
      rw [thread, Machine.addThread, hnew, Array.getElem?_push_size]
      rfl
    rw [outline_thread, hblank]
    refine ⟨⟨rfl, Nat.zero_le _⟩, rfl, fun hstarting => ?_, rfl, rfl⟩
    rw [hscope] at hstarting
    cases hstarting
  · have hold : m.addThread.1.thread id = m.thread id := by
      rw [thread, Machine.addThread, Array.getElem?_push, if_neg hnew, thread]
    rw [outline_thread, hold, ← outline_thread]
    exact h.idle id

/-- Without blank threads all threads are in order as if a host left none behind. -/
theorem host_of_not_isBlank (h : m.AtRest scope) (hblank : ∀ t, ¬(m.thread t).IsBlank) : m.AtRest .host := by
  refine ⟨h.regular, h.stack, fun id => ?_⟩
  have hidle := h.idle id
  rw [outline_thread] at hidle ⊢
  exact Thread.idle_of_not_isBlank hidle (hblank id)

theorem callFunction (h : m.AtRest .lenient) {f : Value} {args : Values}
    (hresult : m.callFunction fuel f args = some (m', s)) : m'.AtRest .lenient ∧ s.IsOutcome .lenient := by
  have hcall : m.addThread.1.operate fuel (.call m.addThread.2 f args) = some (m', s) := hresult
  refine (h.addThread rfl).operate .lenient ?_ hcall
  rintro t ⟨⟩
  simp [Machine.addThread]

end AtRest

namespace Served

/-- Whatever a host does, all threads are in order when it is done, but for blank ones. -/
theorem atRest (h : m.Served) : m.AtRest .lenient := by
  induction h with
  | new limits => exact (Hosted.new limits).atRest.of_host
  | change _ hlimits hthreads hstack hnatives ih => exact ih.congr hlimits hthreads hstack hnatives
  | operate _ hthread hresult ih => exact (ih.operate .lenient hthread hresult).1
  | callFunction _ hresult ih => exact (ih.callFunction hresult).1

/-- The bookkeeping of calls is never found broken but for want of a frame. No operation finds it broken if there is no
blank thread before. -/
theorem corrupted_cases (h : m.Served) {what : Corruption} :
    (∀ {op : ThreadOperation}, (∀ t ∈ op.thread?, t.index < m.threads.size) →
      m.operate fuel op = some (m', .error (.corrupted what)) →
      what = .noActiveFrame ∧ ∃ t, (m.thread t).IsBlank) ∧
    ∀ {f : Value} {args : Values}, m.callFunction fuel f args = some (m', .error (.corrupted what)) →
      what = .noActiveFrame := by
  refine ⟨fun hthread hresult => ⟨((h.atRest.operate .lenient hthread hresult).2).2, ?_⟩, fun hresult =>
    ((h.atRest.callFunction hresult).2).2⟩
  by_contra hnone
  have hrest := h.atRest.host_of_not_isBlank fun t hblank => hnone ⟨t, hblank⟩
  exact Bool.false_ne_true (hrest.operate .host hthread hresult).2.1.symm

/-- A call of library functions on a thread of its own leaves that thread blank, whatever the outcome. -/
theorem isBlank_of_callFunction (h : m.Served) {f : Value} {args : Values}
    (hresult : m.callFunction fuel f args = some (m', s))
    (hlibrary : StaysInLibrary [] fuel (m.addThread.1.beginCall m.addThread.2 f args []).1
      (m.addThread.1.beginCall m.addThread.2 f args []).2) :
    (m'.thread m.addThread.2).IsBlank ∧ (m'.thread m.addThread.2).sleep = 0 := by
  have hadded := h.atRest.addThread rfl
  have hrange : m.addThread.2.index < m.addThread.1.threads.size := by simp [addThread]
  have hnew : m.addThread.1.thread m.addThread.2 = { number := m.nextThreadNumber } := by simp [addThread, thread]
  have hresult : m.addThread.1.operate fuel (.call m.addThread.2 f args) = some (m', s) := hresult
  rw [operate_call hadded.stack] at hresult
  rw [← hadded.stack] at hlibrary
  obtain ⟨⟨-, instructions, hthread⟩, -⟩ := (hadded.callable .lenient hrange).call_restores hresult hlibrary
  rw [hthread, hnew]
  exact ⟨⟨rfl, rfl⟩, rfl⟩

/-- A program that asks for the thread it runs on gets a blank one. -/
example : ∃ m', ((Machine.new {}).addNative ⟨"running", .coroutine .running⟩).1.callFunction 2 (.native ⟨0⟩) [] =
    some (m', .values [.thread ⟨0⟩]) ∧ (m'.thread ⟨0⟩).IsBlank := ⟨_, rfl, rfl, rfl⟩

/-- A host's resume of a blank thread that is awake finds the bookkeeping of calls broken, and kills the thread. -/
theorem resume_of_isBlank (h : m.Served) (hblank : (m.thread t).IsBlank) (hawake : (m.thread t).sleep = 0)
    (budget : Option Nat) (args : Values) (fuel : Nat) :
    ∃ m', m.operate (fuel + 1) (.resume t budget args) = some (m', .error (.corrupted .noActiveFrame)) ∧
      (m'.thread t).status = .dead ∧ (m'.thread t).frames = [] := by
  have hidle := h.atRest.idle t
  rw [outline_thread] at hidle
  have hbegun := beginResume_of_isBlank hidle hblank hawake budget args
  set begun := (m.modifyThread t fun th => { th with status := .running, instructions := 0 }).push
    (.endResume t (m.thread t).depth []) with hpushed
  have hstack : begun.stack = [.endResume t (m.thread t).depth []] := congrArg (_ :: ·) h.atRest.stack
  have hcounts : begun.Counts t := by
    have hbecomes := (Becomes.refl m).beginResume t budget args
    rw [hbegun] at hbecomes
    exact counts_of_evolves (counts_of_sound (h.atRest.sound .lenient (s := .values []) trivial)) hbecomes t
  obtain ⟨hsignal, hdone, -⟩ := step_fatal hstack rfl (.corruptedStack .noActiveFrame)
  refine ⟨(begun.step (.error (.corrupted .noActiveFrame))).1, ?_, dead_of_endResume hstack hcounts _⟩
  have hends : (begun.step (.error (.corrupted .noActiveFrame))) =
      ((begun.step (.error (.corrupted .noActiveFrame))).1, .error (.corrupted .noActiveFrame)) :=
    Prod.ext rfl hsignal
  rw [Machine.operate, hbegun]
  dsimp only
  rw [← runAbove_nil, runAbove, if_pos (isWorkingAbove_of_cons hstack _), hends]
  exact runAbove_of_done hdone (by rintro _ _ _ ⟨⟩) fuel

end Served

end Machine

end LuaMachine
