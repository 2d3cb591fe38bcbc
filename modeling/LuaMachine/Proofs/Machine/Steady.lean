import LuaMachine.Proofs.Machine.Levels

namespace LuaMachine.Machine

variable {m m' n : Machine} {t u : ThreadId}

/-- A thread that is not dead is there. -/
theorem index_lt_of_status (h : (m.thread t).status ≠ .dead) : t.index < m.threads.size := by
  refine Nat.lt_of_not_le fun hle => h ?_
  rw [thread_of_le hle]

theorem status_setStatus (hrange : t.index < m.threads.size) (status : Status) :
    ((m.setStatus t status).thread t).status = status :=
  congrArg Thread.status (thread_modifyThread hrange _)

/-- The active threads keep their statuses and go on counting, no other one becomes active, and the work in progress and
the limits are the same. -/
structure Steady (m m' : Machine) : Prop where
  active : ∀ u, (m.thread u).status.isActive = true → (m'.thread u).status = (m.thread u).status
  idle : ∀ u, (m.thread u).status.isActive = false → (m'.thread u).status.isActive = false
  stack : m'.stack = m.stack
  limits : m'.limits = m.limits
  count : ∀ u, (m.thread u).status.isActive = true → (m.thread u).instructions ≤ (m'.thread u).instructions

namespace Steady

theorem of_status (hstatus : ∀ u, (m'.thread u).status = (m.thread u).status) (hstack : m'.stack = m.stack)
    (hlimits : m'.limits = m.limits) (hcount : ∀ u, (m.thread u).instructions ≤ (m'.thread u).instructions) :
    m.Steady m' :=
  ⟨fun u _ => hstatus u, fun u hu => by rw [hstatus]; exact hu, hstack, hlimits, fun u _ => hcount u⟩

theorem of_eq (hthreads : m'.threads = m.threads) (hstack : m'.stack = m.stack) (hlimits : m'.limits = m.limits) :
    m.Steady m' :=
  have hsame (u : ThreadId) : m'.thread u = m.thread u := by rw [thread, hthreads, thread]
  of_status (fun u => by rw [hsame]) hstack hlimits fun u => Nat.le_of_eq (by rw [hsame])

theorem refl (m : Machine) : m.Steady m := of_eq rfl rfl rfl

theorem trans (h : n.Steady m) (h' : m.Steady m') : n.Steady m' :=
  ⟨fun u hu => (h'.active u (by rw [h.active u hu]; exact hu)).trans (h.active u hu),
    fun u hu => h'.idle u (h.idle u hu), h'.stack.trans h.stack, h'.limits.trans h.limits, fun u hu =>
    Nat.le_trans (h.count u hu) (h'.count u (by rw [h.active u hu]; exact hu))⟩

theorem modifyThread (m : Machine) (t : ThreadId) {f : Thread → Thread}
    (hf : ∀ th : Thread, (f th).status = th.status ∧ (f th).instructions = th.instructions) :
    m.Steady (m.modifyThread t f) := by
  refine of_status (fun u => ?_) rfl rfl fun u => Nat.le_of_eq ?_ <;>
    obtain hsame | hchanged := m.thread_modifyThread_cases t f u
  · rw [hsame]
  · rw [hchanged, (hf _).1]
  · rw [hsame]
  · rw [hchanged, (hf _).2]

/-- A thread changes that is not active, and does not become active. -/
theorem confined (hconfined : m.Confined m' t) (hbefore : (m.thread t).status.isActive = false)
    (hafter : (m'.thread t).status.isActive = false) : m.Steady m' := by
  have hsame (u : ThreadId) (hu : (m.thread u).status.isActive = true) : m'.thread u = m.thread u := by
    refine hconfined.others u ?_
    rintro rfl
    rw [hbefore] at hu
    cases hu
  refine ⟨fun u hu => by rw [hsame u hu], fun u hu => ?_, hconfined.stack, hconfined.limits,
    fun u hu => Nat.le_of_eq (by rw [hsame u hu])⟩
  by_cases hut : u = t
  · rw [hut]
    exact hafter
  · rw [hconfined.others u hut]
    exact hu

end Steady

theorem Retains.steady (h : m.Retains m' t) : m.Steady m' := by
  refine .of_status (fun u => ?_) h.stack h.limits fun u => ?_ <;> by_cases hut : u = t
  · rw [hut, h.own.rest]
  · rw [h.others u hut]
  · rw [hut]
    exact h.own.count
  · exact Nat.le_of_eq (by rw [h.others u hut])

section Frames

variable (m) (t)

theorem steady_modifyTop (f : Frame → Frame) : m.Steady (m.modifyTop t f) := by
  refine .modifyThread m t ?_
  rintro ⟨number, status, _ | ⟨top, rest⟩⟩ <;> exact ⟨rfl, rfl⟩

theorem steady_pushFrame (id : ClosureId) (args : Values) (target : ReturnTarget) :
    m.Steady (m.pushFrame t id args target).1 := by
  obtain ⟨tables, files, hframe⟩ := m.exists_newFrame_eq id args target
  unfold pushFrame
  dsimp only
  rw [hframe]
  split
  · exact .of_eq rfl rfl rfl
  · exact Steady.trans (m := { m with tables, files }) (.of_eq rfl rfl rfl) (.modifyThread _ t fun _ => ⟨rfl, rfl⟩)

theorem steady_popFrame (top : Frame) : m.Steady (m.popFrame t top) :=
  (Retains.closeCells (.refl m t) 0 top.openCells).steady.trans (.modifyThread _ t fun _ => ⟨rfl, rfl⟩)

theorem steady_finishReturn (vs : Values) (floor : Nat) : m.Steady (m.finishReturn t vs floor).1 := by
  unfold finishReturn
  split
  · exact .refl m
  · rename_i frame _
    have hleft : m.Steady ((m.popFrame t frame).discardFile frame.file) :=
      (m.steady_popFrame t frame).trans (Retains.discardFile (.refl _ t) frame.file).steady
    dsimp only
    split
    · exact hleft
    · exact hleft.trans (Retains.deliver (.refl _ t) frame.target vs).steady

theorem steady_rebindTop (id : ClosureId) (args : Values) : m.Steady (m.rebindTop t id args) := by
  cases htop : m.topFrame? t with
  | none =>
    rw [rebindTop, htop]
    exact .refl m
  | some top =>
    obtain ⟨bound, change, hrebound, hbound⟩ := exists_rebindTop_eq htop id args
    rw [hrebound]
    exact hbound.steady.trans (steady_modifyTop _ t _)

theorem steady_unwind (depth : Nat) : m.Steady (m.unwind t depth) := by
  have hframes (fuel : Nat) (m : Machine) : m.Steady (m.unwindFrames t depth fuel) := by
    induction fuel generalizing m with
    | zero => exact .refl m
    | succ fuel ih =>
      unfold unwindFrames
      split
      · exact .refl m
      · split
        · exact .modifyThread m t fun _ => ⟨rfl, rfl⟩
        · exact (m.steady_popFrame t _).trans (ih _)
  exact hframes _ m

theorem steady_completePending (vs : Values) (floor : Nat) : m.Steady (m.completePending t vs floor).1 := by
  have hcleared := m.steady_modifyTop t fun f => { f with pending := none }
  unfold completePending
  split
  · exact .refl m
  · split
    · exact .refl m
    · dsimp only
      split
      · exact hcleared.trans (steady_finishReturn _ t vs floor)
      · exact hcleared.trans (Retains.deliver (.refl _ t) _ vs).steady

theorem steady_yieldNow (vs : Values) : m.Steady (m.yieldNow t vs).1 := by
  unfold yieldNow
  dsimp only
  split
  · exact .refl m
  · split
    · exact .refl m
    · exact .modifyThread m t fun _ => ⟨rfl, rfl⟩

end Frames

theorem Ends.steady {i : Interpreter} {e : Ending} (h : m.Ends i m' e) : m.Steady m' := by
  cases h with
  | stays h => exact h.steady
  | @enters m₁ _ id args target h hpushed =>
    have hentered := m₁.steady_pushFrame i.thread id args target
    rw [hpushed] at hentered
    exact h.steady.trans hentered
  | rebinds h => exact h.steady.trans (steady_rebindTop _ _ _ _)
  | leaves h => exact h.steady.trans (steady_finishReturn _ _ _ _)
  | suspends h => exact h.steady.trans (.modifyThread _ _ fun _ => ⟨rfl, rfl⟩)

/-- A thread that is ended is not active. -/
theorem status_destroyThread (m : Machine) (t : ThreadId) : ((m.destroyThread t).thread t).status = .dead := by
  by_cases hrange : t.index < m.threads.size
  · rw [destroyThread, thread_modifyThread (by rw [(m.confined_unwind t 0).size]; exact hrange)]
  · rw [thread_of_le (by rw [(m.confined_destroyThread t).size]; exact Nat.not_lt.mp hrange)]

theorem steady_destroyThread (ht : (m.thread t).status.isActive = false) : m.Steady (m.destroyThread t) :=
  .confined (m.confined_destroyThread t) ht (by rw [status_destroyThread]; rfl)

theorem steady_newThread (m : Machine) (f : Value) (args : Values) : m.Steady (m.newThread f args).1 := by
  have hadded : m.Steady m.addThread.1 := by
    have hsame (u : ThreadId) (hu : (m.thread u).status.isActive = true) : m.addThread.1.thread u = m.thread u := by
      rw [thread_addThread_of_lt (index_lt_of_status fun hdead => ?_)]
      rw [hdead] at hu
      cases hu
    refine ⟨fun u hu => by rw [hsame u hu], fun u hu => ?_, rfl, rfl, fun u hu => Nat.le_of_eq (by rw [hsame u hu])⟩
    by_cases hnew : u.index = m.threads.size
    · rw [thread, addThread, hnew, Array.getElem?_push_size]
      rfl
    · rw [thread, addThread, Array.getElem?_push, if_neg hnew]
      exact hu
  exact hadded.trans (.modifyThread _ _ fun _ => ⟨rfl, rfl⟩)

end LuaMachine.Machine
