import LuaMachine.Proofs.Machine.Reached

namespace LuaMachine

namespace Activation

/-- A call from native code is in progress. -/
def isCall : Activation → Bool
  | .endCall .. => true
  | _ => false

/-- A call from native code on the thread `t` is in progress. -/
def isCallOn (t : ThreadId) : Activation → Bool
  | .endCall u .. => u == t
  | _ => false

/-- A thread waits for another one that it resumed. -/
def isResumed : Activation → Bool
  | .resumed .. => true
  | _ => false

theorem isCall_of_passes {a : Activation} {t : ThreadId} (h : a.Passes t) : a.isCall = false := by
  cases a <;> first | rfl | cases h

theorem isCallOn_of_passes {a : Activation} {t : ThreadId} (h : a.Passes t) (u : ThreadId) : a.isCallOn u = false := by
  cases a <;> first | rfl | cases h

theorem isResumed_of_passes {a : Activation} {t : ThreadId} (h : a.Passes t) : a.isResumed = false := by
  cases a <;> first | rfl | cases h

end Activation

open Activation (isCall isCallOn isResumed)

/-- The work on a thread includes `n` calls from native code, all on that thread and no more than allowed, and no
resume of another one. -/
structure HasCalls (limits : Limits) (t : ThreadId) (n : Nat) (acts : List Activation) : Prop where
  calls : acts.countP isCall = n
  callsOn : ∀ u, acts.countP (isCallOn u) = if u = t then n else 0
  resumes : acts.countP isResumed = 0
  bounded : n ≤ limits.nativeDepth

namespace HasCalls

variable {limits : Limits} {t : ThreadId} {n : Nat} {acts : List Activation} {a : Activation}

theorem nil (limits : Limits) (t : ThreadId) : HasCalls limits t 0 [] :=
  ⟨rfl, fun u => by rw [ite_self]; rfl, rfl, Nat.zero_le _⟩

/-- Work that is neither a call nor a resume counts for nothing. -/
theorem cons (h : HasCalls limits t n acts) (hcall : a.isCall = false) (hcallOn : ∀ u, a.isCallOn u = false)
    (hresumed : a.isResumed = false) : HasCalls limits t n (a :: acts) := by
  refine ⟨?_, fun u => ?_, ?_, h.bounded⟩
  · rw [List.countP_cons_of_neg (by simp [hcall]), h.calls]
  · rw [List.countP_cons_of_neg (by simp [hcallOn u]), h.callsOn u]
  · rw [List.countP_cons_of_neg (by simp [hresumed]), h.resumes]

theorem call (h : HasCalls limits t n acts) (hroom : n < limits.nativeDepth) (floor : Option Nat)
    (previous : Option Status) (held : Values) :
    HasCalls limits t (n + 1) (.endCall t floor previous held :: acts) := by
  refine ⟨?_, fun u => ?_, ?_, hroom⟩
  · rw [List.countP_cons_of_pos rfl, h.calls]
  · by_cases hu : u = t
    · rw [List.countP_cons_of_pos (by simp [isCallOn, hu]), h.callsOn u, if_pos hu, if_pos hu]
    · rw [List.countP_cons_of_neg (by simp [isCallOn, Ne.symm hu]), h.callsOn u, if_neg hu, if_neg hu]
  · rw [List.countP_cons_of_neg (by simp [isResumed]), h.resumes]

end HasCalls

variable {scope : Scope} {limits : Limits} {t : ThreadId}

theorem Segment.hasCalls {starts hostReturn : Bool} {fs : List FrameOutline} {n : Nat} {acts : List Activation}
    (h : Segment scope limits t starts hostReturn fs n acts) : HasCalls limits t n acts := by
  induction h with
  | resume => exact (HasCalls.nil limits t).cons rfl (fun _ => rfl) rfl
  | visit _ _ hroom => exact (HasCalls.nil limits t).call hroom _ _ _
  | call _ hroom _ ih => exact ih.call hroom _ _ _
  | pass ha _ ih =>
    exact ih.cons (Activation.isCall_of_passes ha) (Activation.isCallOn_of_passes ha)
      (Activation.isResumed_of_passes ha)
  | started => exact ((HasCalls.nil limits t).cons rfl (fun _ => rfl) rfl).cons rfl (fun _ => rfl) rfl
  | wait _ _ _ _ _ _ ih => exact ih.cons rfl (fun _ => rfl) rfl

theorem Ready.hasCalls {th : ThreadOutline} {acts : List Activation} {s : Signal} (h : Ready scope limits t th acts s) :
    HasCalls limits t th.nativeDepth acts := by
  cases h with
  | go _ _ _ _ _ hbelow => exact hbelow.hasCalls.cons rfl (fun _ => rfl) rfl
  | invoke hacts | values hacts | yield hacts => exact hacts.hasCalls
  | error _ _ _ hacts => exact hacts.hasCalls
  | pause _ hidle =>
    rw [show th.nativeDepth = 0 from hidle.native]
    exact (HasCalls.nil limits t).cons rfl (fun _ => rfl) rfl

/-- The calls in progress are those that the threads have counted. No thread has more than allowed, and there is at most
one thread that has any for each resume in progress and for the host. -/
structure Outline.Accounted (o : Outline) : Prop where
  counted : ∀ t, o.stack.countP (isCallOn t) = (o.thread t).nativeDepth
  bounded : ∀ t, (o.thread t).nativeDepth ≤ o.limits.nativeDepth
  total : o.stack.countP isCall ≤ (o.stack.countP isResumed + 1) * o.limits.nativeDepth

/-- The work that waits for the thread at work: the calls on the threads that wait. -/
structure Outline.AccountedBelow (o : Outline) (below : List Activation) (ts : List ThreadId) : Prop where
  waiting : ∀ t ∈ ts, below.countP (isCallOn t) = (o.thread t).nativeDepth ∧
    (o.thread t).nativeDepth ≤ o.limits.nativeDepth
  others : ∀ t, t ∉ ts → below.countP (isCallOn t) = 0
  total : below.countP isCall ≤ below.countP isResumed * o.limits.nativeDepth

theorem Below.accounted {o : Outline} {below : List Activation} {ts : List ThreadId} (h : Below scope o below ts)
    (hbase : scope.base = []) (hnodup : ts.Nodup) : o.AccountedBelow below ts := by
  induction h with
  | bottom =>
    rw [hbase]
    exact ⟨fun _ ht => absurd ht List.not_mem_nil, fun _ _ => rfl, Nat.zero_le _⟩
  | @resumed t target wrapped acts below ts _ _ _ hacts _ ih =>
    obtain ⟨hnotin, hnodup⟩ := List.nodup_cons.mp hnodup
    have hrest := ih hnodup
    have hown := Segment.hasCalls hacts
    have hcountOn (u : ThreadId) :
        (Activation.resumed t .running wrapped target :: (acts ++ below)).countP (isCallOn u) =
          (if u = t then (o.thread t).nativeDepth else 0) + below.countP (isCallOn u) := by
      rw [List.countP_cons_of_neg (by simp [isCallOn]), List.countP_append, hown.callsOn u]
    refine ⟨fun u hu => ?_, fun u hu => ?_, ?_⟩
    · rw [hcountOn]
      rcases List.mem_cons.mp hu with rfl | hwaiting
      · rw [if_pos rfl, hrest.others u hnotin]
        exact ⟨Nat.add_zero _, hown.bounded⟩
      · have hut : u ≠ t := fun heq => hnotin (heq ▸ hwaiting)
        rw [if_neg hut, Nat.zero_add]
        exact hrest.waiting u hwaiting
    · rw [List.mem_cons, not_or] at hu
      rw [hcountOn, if_neg hu.1, Nat.zero_add]
      exact hrest.others u hu.2
    · rw [List.countP_cons_of_neg (by simp [isCall]), List.countP_cons_of_pos rfl, List.countP_append,
        List.countP_append, hown.calls, hown.resumes, Nat.zero_add, Nat.succ_mul, Nat.add_comm]
      exact Nat.add_le_add hrest.total hown.bounded

/-- The work on a thread comes on top of the work that waits for it. -/
theorem Outline.Setting.accounted {o : Outline} {acts below : List Activation} {ts : List ThreadId}
    (h : o.Setting scope t below ts) (hscope : scope.Whole) (hstack : o.stack = acts ++ below)
    (hcalls : HasCalls o.limits t (o.thread t).nativeDepth acts) : o.Accounted := by
  obtain ⟨hnotin, hnodup⟩ := List.nodup_cons.mp h.nodup
  have hbelow := h.below.accounted hscope.base hnodup
  have hcountOn (u : ThreadId) : o.stack.countP (isCallOn u) =
      (if u = t then (o.thread t).nativeDepth else 0) + below.countP (isCallOn u) := by
    rw [hstack, List.countP_append, hcalls.callsOn u]
  have hidle (u : ThreadId) (hu : u ∉ t :: ts) : (o.thread u).nativeDepth = 0 :=
    ((h.others u hu).idle (hscope.not_occupies u)).native
  refine ⟨fun u => ?_, fun u => ?_, ?_⟩
  · rw [hcountOn]
    by_cases hut : u = t
    · rw [if_pos hut, hut, hbelow.others t hnotin, Nat.add_zero]
    · rw [if_neg hut, Nat.zero_add]
      by_cases hmem : u ∈ ts
      · exact (hbelow.waiting u hmem).1
      · rw [hbelow.others u hmem, hidle u (by simp [hut, hmem])]
  · by_cases hut : u = t
    · rw [hut]
      exact hcalls.bounded
    · by_cases hmem : u ∈ ts
      · exact (hbelow.waiting u hmem).2
      · rw [hidle u (by simp [hut, hmem])]
        exact Nat.zero_le _
  · rw [hstack, List.countP_append, List.countP_append, hcalls.calls, hcalls.resumes, Nat.zero_add, Nat.succ_mul,
      Nat.add_comm]
    exact Nat.add_le_add hbelow.total hcalls.bounded

theorem Outline.Sound.accounted {o : Outline} {s : Signal} (h : o.Sound scope s) (hscope : scope.Whole) :
    o.Accounted := by
  cases h with
  | atRest _ hstack hrests _ =>
    have hnone (t : ThreadId) : (o.thread t).nativeDepth = 0 :=
      ((hrests t).idle (hscope.not_occupies t)).native
    rw [hscope.base] at hstack
    refine ⟨fun t => ?_, fun t => ?_, ?_⟩
    · rw [hstack, hnone]
      rfl
    · rw [hnone]
      exact Nat.zero_le _
    · rw [hstack]
      exact Nat.zero_le _
  | working hstack hsetting _ hready => exact hsetting.accounted hscope hstack hready.hasCalls
  | @back t target wrapped acts below ts hstack hsetting hacts _ =>
    -- The thread that takes the outcome has its work below the mark of the resume.
    have hbefore := (hsetting.withStack (acts ++ below)).accounted hscope rfl (Segment.hasCalls hacts)
    have hcountOn (u : ThreadId) : o.stack.countP (isCallOn u) = (acts ++ below).countP (isCallOn u) := by
      rw [hstack, List.countP_cons_of_neg (by simp [isCallOn])]
    refine ⟨fun u => (hcountOn u).trans (hbefore.counted u), hbefore.bounded, ?_⟩
    rw [hstack, List.countP_cons_of_neg (by simp [isCall]), List.countP_cons_of_pos rfl]
    exact Nat.le_trans hbefore.total (Nat.mul_le_mul_right _ (Nat.le_succ _))

namespace Machine

variable {m : Machine} {s : Signal}

/-- At every moment of a run each thread has as many calls from native code in progress as it has counted, at most as
many as allowed. All threads together have at most so many for each resume in progress, and for the host. -/
theorem Reached.accounted (h : m.Reached s) :
    (∀ t, m.stack.countP (isCallOn t) = (m.thread t).nativeDepth ∧
      m.stack.countP (isCallOn t) ≤ m.limits.nativeDepth) ∧
    m.stack.countP isCall ≤ (m.stack.countP isResumed + 1) * m.limits.nativeDepth := by
  have haccounted := h.sound.accounted .host
  have hcounted (t : ThreadId) : m.stack.countP (isCallOn t) = (m.thread t).nativeDepth := by
    have hcalls := haccounted.counted t
    rwa [outline_thread] at hcalls
  refine ⟨fun t => ⟨hcounted t, ?_⟩, haccounted.total⟩
  have hbound := haccounted.bounded t
  rw [outline_thread] at hbound
  rw [hcounted]
  exact hbound

/-- A thread that has as many calls in progress as allowed gets an ordinary error instead of one more. -/
theorem Reached.beginCall_refused (h : m.Reached s) {t : ThreadId}
    (hfull : m.limits.nativeDepth ≤ m.stack.countP (isCallOn t)) (f : Value) (args held : Values) :
    m.beginCall t f args held = (m, .error ((m.thread t).errorHere "C stack overflow")) := by
  rw [(h.accounted.1 t).1] at hfull
  rw [beginCall, if_pos hfull]

end Machine

end LuaMachine
