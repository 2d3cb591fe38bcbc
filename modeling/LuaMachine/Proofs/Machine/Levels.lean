import LuaMachine.Proofs.Machine.Leaving
import LuaMachine.Proofs.Machine.Upkeep

namespace LuaMachine

/-- Work that waits on the stack, of which the innermost keeps a thread busy, with the thread and the native functions
as they were then, and the frame limit for the interpreter that stands on it. -/
structure Site where
  thread : ThreadId
  before : Thread
  bottom : List Activation
  natives : Array Native
  limit : Option Nat
  busy : (bottom.any fun a => a.thread? == some thread) = true

theorem Site.length_pos (c : Site) : 0 < c.bottom.length := by
  refine List.length_pos_iff.mpr fun hnil => ?_
  have hbusy := c.busy
  rw [hnil] at hbusy
  cases hbusy

/-- Work that the frames of the thread `t` do not matter to. On other threads no frame limit is set. -/
def Activation.Apart (t : ThreadId) : Activation → Prop
  | .interpret i => i.thread ≠ t ∧ i.limit = none
  | .endCall u .. => u ≠ t
  | .startedNative u _ => u ≠ t
  | .endResume u .. => u ≠ t
  | .tick .. => False
  | .groupSize .. => False
  | .updateGroups _ => False
  | _ => True

theorem Activation.Passes.apart {a : Activation} {u : ThreadId} (h : a.Passes u) (t : ThreadId) : a.Apart t := by
  cases a with
  | read | protect | concat | print => trivial
  | interpret | endCall | startedNative | endResume | resumed | forget | tick | groupSize | updateGroups => cases h

/-- The innermost work cuts the frames of the thread `t` back when the work above it fails. -/
inductive CutsBack (t : ThreadId) : List Activation → Prop
  | call {floor : Nat} {previous : Option Status} {held : Values} {acts : List Activation} :
      CutsBack t (.endCall t (some floor) previous held :: acts)
  | resume {floor : Nat} {held : Values} {acts : List Activation} : CutsBack t (.endResume t floor held :: acts)

/-- The work above a place of the stack, which waits with the frames `fs` of the thread and with `n` calls from native
code in progress. Each piece of it finds the frames that the thread had when it began to wait: calls from native code
cut the frames back to those, and interpreters only touch the frames above their own, in the code of the innermost of
which they wait. -/
inductive Site.Levels (c : Site) : List Frame → Nat → List Activation → Prop
  | bottom {fs : List Frame} {n : Nat} {acts : List Activation} (hframes : fs = c.before.frames)
      (hnative : n = c.before.nativeDepth) (hacts : acts = c.bottom) : Levels c fs n acts
  | apart {a : Activation} {fs : List Frame} {n : Nat} {acts : List Activation} (ha : a.Apart c.thread)
      (h : Levels c fs n acts) : Levels c fs n (a :: acts)
  | call {floor : Option Nat} {previous : Option Status} {held : Values} {fs : List Frame} {n : Nat}
      {acts : List Activation} (hfloor : ∀ k ∈ floor, k = fs.length) (h : Levels c fs n acts) :
      Levels c fs (n + 1) (.endCall c.thread floor previous held :: acts)
  | wait {i : Interpreter} {w : Window} {sequel : Sequel} {f : Frame} {rest fs : List Frame} {n : Nat}
      {acts : List Activation} (hthread : i.thread = c.thread) (hlimit : i.limit = none ∨ i.limit = c.limit)
      (hstage : i.stage = .waiting w sequel) (hcode : f.code = (w.closure, w.file)) (hrest : fs <:+ rest)
      (hfloor : i.floor = fs.length)
      (hcuts : CutsBack c.thread acts) (h : Levels c fs n acts) : Levels c (f :: rest) n (.interpret i :: acts)

namespace Site.Levels

variable {c : Site} {fs : List Frame} {n : Nat} {acts : List Activation}

theorem native_le (h : c.Levels fs n acts) : c.before.nativeDepth ≤ n := by
  induction h with
  | bottom _ hnative => exact Nat.le_of_eq hnative.symm
  | apart _ _ ih => exact ih
  | call _ _ ih => exact Nat.le_succ_of_le ih
  | wait _ _ _ _ _ _ _ _ ih => exact ih

/-- The work that a place of the stack waits with is below everything that runs above it. -/
theorem suffix (h : c.Levels fs n acts) : c.bottom <:+ acts := by
  induction h with
  | bottom _ _ hacts => exact hacts ▸ List.suffix_refl _
  | apart _ _ ih | call _ _ ih | wait _ _ _ _ _ _ _ _ ih => exact ih.trans (List.suffix_cons _ _)

/-- The thread is busy as long as the work is there. -/
theorem busy (h : c.Levels fs n acts) : (acts.any fun a => a.thread? == some c.thread) = true := by
  induction h with
  | bottom _ _ hacts =>
    rw [hacts]
    exact c.busy
  | apart _ _ ih | call _ _ ih | wait _ _ _ _ _ _ _ _ ih =>
    rw [List.any_cons, ih, Bool.or_true]

end Site.Levels

/-- A thread is scheduled as before: under its number, what its next resume does, how many it skips, and what it
yielded. -/
structure Thread.SameSchedule (th th' : Thread) : Prop where
  number : th'.number = th.number
  start : th'.start = th.start
  hostReturnPending : th'.hostReturnPending = th.hostReturnPending
  sleep : th'.sleep = th.sleep
  yielded : th'.yielded = th.yielded

theorem Thread.SameSchedule.trans {th th' th'' : Thread} (h : th.SameSchedule th') (h' : th'.SameSchedule th'') :
    th.SameSchedule th'' :=
  ⟨h'.number.trans h.number, h'.start.trans h.start, h'.hostReturnPending.trans h.hostReturnPending,
    h'.sleep.trans h.sleep, h'.yielded.trans h.yielded⟩

theorem Thread.Keeps.sameSchedule {fs : List Frame} {th th' : Thread} (h : Thread.Keeps fs th th') :
    th.SameSchedule th' := by
  rw [h.rest]
  exact ⟨rfl, rfl, rfl, rfl, rfl⟩

/-- The functions of the standard library. -/
def Builtin.IsLibrary : Builtin → Prop
  | .base _ => True
  | .coroutine _ => True
  | .wrapped _ => True
  | .spawn _ => True
  | .host _ => False
  | .group .. => False

instance : DecidablePred Builtin.IsLibrary
  | .base _ => isTrue trivial
  | .coroutine _ => isTrue trivial
  | .wrapped _ => isTrue trivial
  | .spawn _ => isTrue trivial
  | .host _ => isFalse not_false
  | .group .. => isFalse not_false

theorem Builtin.IsLibrary.isRegular {body : Builtin} (h : body.IsLibrary) : body.IsRegular := by
  cases body with
  | base | coroutine | wrapped | spawn => trivial
  | host | group => cases h

namespace Machine

variable {m m' : Machine} {t u : ThreadId}

/-- In a machine with the library alone, whatever is invoked is a function of the library. What is no function does
nothing. -/
theorem isLibrary_native {m : Machine} (h : ∀ n ∈ m.natives, n.body.IsLibrary) (id : NativeId) :
    (m.native id).body.IsLibrary ∨ (m.native id).body = .host .nothing := by
  unfold Machine.native
  cases hget : m.natives[id.index]? with
  | none => exact Or.inr rfl
  | some n => exact Or.inl (h n (Array.mem_of_getElem? hget))

/-- A thread is left alone, and at most functions of the library are added. -/
structure Spares (m m' : Machine) (t : ThreadId) : Prop where
  size : m.threads.size ≤ m'.threads.size
  thread : t.index < m.threads.size → m'.thread t = m.thread t
  natives : ∀ n ∈ m'.natives, n ∈ m.natives ∨ n.body.IsLibrary

namespace Spares

theorem of_eq (hthreads : m'.threads = m.threads) (hnatives : m'.natives = m.natives) : m.Spares m' t :=
  ⟨Nat.le_of_eq (congrArg Array.size hthreads.symm), fun _ => by rw [Machine.thread, hthreads, Machine.thread],
    fun _ hn => Or.inl (hnatives ▸ hn)⟩

theorem refl (m : Machine) (t : ThreadId) : m.Spares m t := of_eq rfl rfl

theorem trans {m'' : Machine} (h : m.Spares m' t) (h' : m'.Spares m'' t) : m.Spares m'' t := by
  refine ⟨Nat.le_trans h.size h'.size, fun hrange => ?_, fun n hn => ?_⟩
  · rw [h'.thread (Nat.lt_of_lt_of_le hrange h.size), h.thread hrange]
  · obtain hold | hnew := h'.natives n hn
    · exact h.natives n hold
    · exact Or.inr hnew

theorem of_confined (h : m.Confined m' u) (hne : t ≠ u) : m.Spares m' t :=
  ⟨Nat.le_of_eq h.size.symm, fun _ => h.others t hne, fun _ hn => Or.inl (h.natives ▸ hn)⟩

theorem modifyThread (m : Machine) (hne : t ≠ u) (f : Thread → Thread) : m.Spares (m.modifyThread u f) t :=
  of_confined (m.confined_modifyThread u f) hne

end Spares

theorem thread_addThread_of_lt (hrange : t.index < m.threads.size) : m.addThread.1.thread t = m.thread t := by
  rw [thread, addThread, Array.getElem?_push_lt hrange, thread, Array.getElem?_eq_getElem hrange]

theorem spares_newThread (m : Machine) (t : ThreadId) (f : Value) (args : Values) :
    m.Spares (m.newThread f args).1 t := by
  by_cases hrange : t.index < m.threads.size
  · have hadded : m.Spares m.addThread.1 t := by
      refine ⟨?_, fun _ => thread_addThread_of_lt hrange, fun n hn => Or.inl hn⟩
      rw [addThread, Array.size_push]
      exact Nat.le_succ _
    refine hadded.trans (.modifyThread _ ?_ _)
    rintro rfl
    exact Nat.lt_irrefl _ hrange
  · refine ⟨?_, fun hlt => absurd hlt hrange, fun n hn => Or.inl hn⟩
    rw [newThread, addThread]
    simp [Machine.modifyThread, modifyAt]

theorem spares_addNative (m : Machine) (t : ThreadId) {native : Native} (hnative : native.body.IsLibrary) :
    m.Spares (m.addNative native).1 t := by
  refine ⟨Nat.le_refl _, fun _ => rfl, fun n hn => ?_⟩
  rcases Array.mem_push.mp hn with hold | rfl
  · exact Or.inl hold
  · exact Or.inr hnative

/-- A thread is left alone by work that has put more work on the stack, to which its frames do not matter. -/
structure Adds (m m' : Machine) (t : ThreadId) : Prop extends m.Spares m' t where
  stack : ∃ new, m'.stack = new ++ m.stack ∧ ∀ a ∈ new, a.Apart t

namespace Adds

theorem of_spares (h : m.Spares m' t) (hstack : m'.stack = m.stack) : m.Adds m' t :=
  ⟨h, [], hstack, fun _ ha => absurd ha List.not_mem_nil⟩

theorem of_confined (h : m.Confined m' u) (hne : t ≠ u) : m.Adds m' t := of_spares (.of_confined h hne) h.stack

theorem refl (m : Machine) (t : ThreadId) : m.Adds m t := of_spares (.refl m t) rfl

theorem trans {m'' : Machine} (h : m.Adds m' t) (h' : m'.Adds m'' t) : m.Adds m'' t := by
  obtain ⟨new, hstack, hnew⟩ := h.stack
  obtain ⟨later, hstack', hlater⟩ := h'.stack
  refine ⟨h.toSpares.trans h'.toSpares, later ++ new, by rw [hstack', hstack, List.append_assoc], fun a ha => ?_⟩
  rcases List.mem_append.mp ha with hl | hn
  · exact hlater a hl
  · exact hnew a hn

theorem push (h : m.Adds m' t) {a : Activation} (ha : a.Apart t) : m.Adds (m'.push a) t := by
  refine h.trans ⟨.of_eq rfl rfl, [a], rfl, fun b hb => ?_⟩
  rw [List.mem_singleton.mp hb]
  exact ha

theorem modifyThread (h : m.Adds m' t) (hne : t ≠ u) (f : Thread → Thread) : m.Adds (m'.modifyThread u f) t :=
  h.trans (of_spares (.modifyThread m' hne f) rfl)

/-- Entering a closure on another thread. -/
theorem pushFrame (h : m.Adds m' t) (hne : t ≠ u) (id : ClosureId) (args : Values) (target : ReturnTarget) :
    m.Adds (m'.pushFrame u id args target).1 t := by
  refine h.trans (of_confined (u := u) ?_ hne)
  cases hpushed : m'.pushFrame u id args target with | mk m'' s =>
  obtain ⟨-, hconfined, -⟩ | ⟨-, hkept, -⟩ := (Retains.refl m' u).pushFrame hpushed
  · exact hconfined
  · exact hkept.toConfined

/-- Another thread begins to run, without a frame limit. -/
theorem entering (n : Machine) (hne : t ≠ u) :
    Entering u none (fun m => n.Adds m t) fun m _ => n.Adds m t where
  hands h _ _ := h
  enters id args h := h.pushFrame hne id args .host
  completes args h := h.trans (of_confined (confined_completePending _ u args 0) hne)
  starts h := h.modifyThread hne _
  returns h := h.modifyThread hne _
  waits _ h := h.push (Ne.symm hne)
  invokes _ _ h := h
  runs _ h := h.push ⟨Ne.symm hne, rfl⟩

/-- Another thread is resumed. -/
theorem beginResume (h : m.Adds m' t) (hne : t ≠ u) (args : Values) :
    m.Adds (m'.beginResume u none args).1 t := by
  unfold Machine.beginResume
  dsimp only
  split
  · exact h.modifyThread hne _
  · split
    · exact h
    · split
      · exact h
      · exact (entering m hne).beginResumed _ (fun _ => (h.modifyThread hne _).push (Ne.symm hne)) args

theorem addToGroup (h : m.Adds m' t) (hne : t ≠ u) (g : GroupId) : m.Adds (m'.addToGroup g u) t := by
  unfold Machine.addToGroup
  split
  · split
    · exact h
    · exact h.trans (of_confined (confined_destroyThread m' u) hne)
  · exact h.trans (of_spares (.of_eq rfl rfl) rfl)

end Adds

end Machine

end LuaMachine
