import LuaMachine.Machine.Step

namespace LuaMachine

/-- What the bookkeeping of calls depends on in a frame. -/
structure FrameOutline where
  target : ReturnTarget
  pending : Option PendingCall

/-- What the bookkeeping of calls depends on in a thread. -/
structure ThreadOutline where
  status : Status
  frames : List FrameOutline
  depth : Nat
  /-- Whether a start function waits for the next resume. -/
  starts : Bool
  hostReturnPending : Bool
  nativeDepth : Nat

/-- What the bookkeeping of calls depends on in a machine. -/
structure Outline where
  limits : Limits
  natives : Array Native
  threads : Array ThreadOutline
  stack : List Activation

def Frame.outline (f : Frame) : FrameOutline := ⟨f.target, f.pending⟩

def Thread.outline (t : Thread) : ThreadOutline :=
  ⟨t.status, t.frames.map Frame.outline, t.depth, t.start.isSome, t.hostReturnPending, t.nativeDepth⟩

def Machine.outline (m : Machine) : Outline := ⟨m.limits, m.natives, m.threads.map Thread.outline, m.stack⟩

namespace Outline

/-- The thread with an identifier, a dead one if it names none. -/
def thread (o : Outline) (id : ThreadId) : ThreadOutline :=
  o.threads[id.index]?.getD ⟨.dead, [], 0, false, false, 0⟩

def modifyThread (o : Outline) (id : ThreadId) (f : ThreadOutline → ThreadOutline) : Outline :=
  { o with threads := o.threads.modify id.index f }

def withStack (o : Outline) (stack : List Activation) : Outline := { o with stack }

section Thread

variable (o : Outline) (id : ThreadId) (f : ThreadOutline → ThreadOutline)

@[simp] theorem limits_modifyThread : (o.modifyThread id f).limits = o.limits := rfl

@[simp] theorem natives_modifyThread : (o.modifyThread id f).natives = o.natives := rfl

@[simp] theorem stack_modifyThread : (o.modifyThread id f).stack = o.stack := rfl

@[simp] theorem size_modifyThread : (o.modifyThread id f).threads.size = o.threads.size := by
  simp [modifyThread]

@[simp] theorem limits_withStack (stack : List Activation) : (o.withStack stack).limits = o.limits := rfl

@[simp] theorem natives_withStack (stack : List Activation) : (o.withStack stack).natives = o.natives := rfl

@[simp] theorem threads_withStack (stack : List Activation) : (o.withStack stack).threads = o.threads := rfl

@[simp] theorem stack_withStack (stack : List Activation) : (o.withStack stack).stack = stack := rfl

@[simp] theorem thread_withStack (stack : List Activation) : (o.withStack stack).thread id = o.thread id := rfl

@[simp] theorem withStack_stack : o.withStack o.stack = o := rfl

@[simp] theorem withStack_withStack (stack later : List Activation) :
    (o.withStack stack).withStack later = o.withStack later := rfl

@[simp] theorem withStack_modifyThread (stack : List Activation) :
    (o.modifyThread id f).withStack stack = (o.withStack stack).modifyThread id f := rfl

theorem thread_modifyThread_of_ne {other : ThreadId} (h : other ≠ id) :
    (o.modifyThread id f).thread other = o.thread other := by
  have hindex : id.index ≠ other.index := by
    intro heq
    apply h
    cases id
    cases other
    simp_all
  simp [thread, modifyThread, Array.getElem?_modify, hindex]

theorem thread_modifyThread_self (h : id.index < o.threads.size) :
    (o.modifyThread id f).thread id = f (o.thread id) := by
  rw [thread, modifyThread, Array.getElem?_modify, if_pos rfl, Array.getElem?_eq_getElem h, thread,
    Array.getElem?_eq_getElem h]
  rfl

/-- What is no thread does not change. -/
theorem modifyThread_of_le (h : o.threads.size ≤ id.index) : o.modifyThread id f = o := by
  simp only [modifyThread]
  congr
  apply Array.ext_getElem?
  intro i
  rw [Array.getElem?_modify]
  split
  · rename_i hi
    rw [← hi, Array.getElem?_eq_none h]
    rfl
  · rfl

theorem thread_modifyThread_cases (other : ThreadId) :
    (o.modifyThread id f).thread other = o.thread other ∨
      other = id ∧ (o.modifyThread id f).thread other = f (o.thread id) := by
  by_cases heq : other = id
  · subst heq
    by_cases hlt : other.index < o.threads.size
    · exact Or.inr ⟨rfl, thread_modifyThread_self _ _ _ hlt⟩
    · rw [modifyThread_of_le _ _ _ (Nat.not_lt.mp hlt)]
      exact Or.inl rfl
  · exact Or.inl (thread_modifyThread_of_ne _ _ _ heq)

theorem modifyThread_modifyThread (g : ThreadOutline → ThreadOutline) :
    (o.modifyThread id f).modifyThread id g = o.modifyThread id (g ∘ f) := by
  simp only [modifyThread, Outline.mk.injEq, true_and, and_true]
  apply Array.ext_getElem?
  intro i
  simp only [Array.getElem?_modify]
  split
  · rw [Option.map_map]
  · rfl

/-- Changes that agree on a thread have one effect on it. -/
theorem modifyThread_congr {g : ThreadOutline → ThreadOutline} (h : f (o.thread id) = g (o.thread id)) :
    o.modifyThread id f = o.modifyThread id g := by
  simp only [modifyThread, Outline.mk.injEq, true_and, and_true]
  apply Array.ext_getElem?
  intro i
  simp only [Array.getElem?_modify]
  split
  · rename_i hi
    subst hi
    cases hget : o.threads[id.index]? with
    | none => rfl
    | some th =>
      rw [thread, hget] at h
      exact congrArg some h
  · rfl

theorem modifyThread_of_eq (h : f (o.thread id) = o.thread id) : o.modifyThread id f = o := by
  rw [modifyThread_congr o id f (g := fun th => th) h]
  simp only [modifyThread]
  congr
  apply Array.ext_getElem?
  intro i
  simp only [Array.getElem?_modify]
  split <;> simp

end Thread

end Outline

namespace Machine

variable (m : Machine)

@[simp] theorem outline_limits : m.outline.limits = m.limits := rfl

@[simp] theorem outline_natives : m.outline.natives = m.natives := rfl

@[simp] theorem outline_stack : m.outline.stack = m.stack := rfl

@[simp] theorem outline_size : m.outline.threads.size = m.threads.size := by simp [outline]

@[simp] theorem outline_thread (id : ThreadId) : m.outline.thread id = (m.thread id).outline := by
  simp only [outline, Outline.thread, thread, Array.getElem?_map]
  cases m.threads[id.index]? <;> rfl

variable {m} in
/-- What is no thread counts as a dead one. -/
theorem thread_of_le {t : ThreadId} (h : m.threads.size ≤ t.index) :
    m.thread t = { number := 0, status := .dead } := by
  rw [thread, Array.getElem?_eq_none h]
  rfl

variable {m} in
theorem lt_size_of_topFrame {t : ThreadId} {top : Frame} (h : m.topFrame? t = some top) :
    t.index < m.threads.size := by
  refine Nat.lt_of_not_le fun hle => ?_
  rw [topFrame?, thread_of_le hle] at h
  cases h

theorem outline_modifyThread {f : Thread → Thread} {g : ThreadOutline → ThreadOutline}
    (h : ∀ th, (f th).outline = g th.outline) (id : ThreadId) :
    (m.modifyThread id f).outline = m.outline.modifyThread id g := by
  simp only [outline, modifyThread, modifyAt, Outline.modifyThread, Outline.mk.injEq, true_and, and_true]
  apply Array.ext_getElem?
  intro i
  simp only [Array.getElem?_map, Array.getElem?_modify]
  split
  · cases m.threads[i]? <;> simp [h]
  · rfl

/-- A change of what the bookkeeping of calls does not depend on. -/
theorem outline_modifyThread_of_eq {f : Thread → Thread} (h : ∀ th, (f th).outline = th.outline) (id : ThreadId) :
    (m.modifyThread id f).outline = m.outline := by
  rw [m.outline_modifyThread (g := fun th => th) h, Outline.modifyThread_of_eq]
  rfl

theorem outline_modifyTop {f : Frame → Frame} (h : ∀ fr, (f fr).outline = fr.outline) (id : ThreadId) :
    (m.modifyTop id f).outline = m.outline := by
  apply outline_modifyThread_of_eq
  intro th
  split <;> simp [Thread.outline, h]

@[simp] theorem outline_push (a : Activation) : (m.push a).outline = m.outline.withStack (a :: m.stack) := rfl

@[simp] theorem outline_pop : m.pop.outline = m.outline.withStack m.stack.tail := rfl

@[simp] theorem outline_replaceTop (a : Activation) :
    (m.replaceTop a).outline = m.outline.withStack (a :: m.stack.tail) := rfl

end Machine

end LuaMachine
