import LuaMachine.Proofs.Machine.Quiet
import Mathlib.Tactic.Set

namespace LuaMachine

/-- The counter of frames is exact. -/
def ThreadOutline.Counted (th : ThreadOutline) : Prop := th.depth = th.frames.length

namespace Outline

/-- Replaces the frames of a thread, counting them. -/
def setFrames (o : Outline) (t : ThreadId) (fs : List FrameOutline) : Outline :=
  o.modifyThread t fun th => { th with frames := fs, depth := fs.length }

section SetFrames

variable (o : Outline) (t : ThreadId) (fs : List FrameOutline)

@[simp] theorem setFrames_setFrames (gs : List FrameOutline) : (o.setFrames t fs).setFrames t gs = o.setFrames t gs :=
  modifyThread_modifyThread ..

theorem setFrames_of_eq (hcount : (o.thread t).Counted) : o.setFrames t (o.thread t).frames = o := by
  apply modifyThread_of_eq
  rw [← hcount]

theorem thread_setFrames (h : t.index < o.threads.size) :
    (o.setFrames t fs).thread t = { o.thread t with frames := fs, depth := fs.length } :=
  thread_modifyThread_self o t _ h

@[simp] theorem limits_setFrames : (o.setFrames t fs).limits = o.limits := rfl

@[simp] theorem stack_setFrames : (o.setFrames t fs).stack = o.stack := rfl

@[simp] theorem size_setFrames : (o.setFrames t fs).threads.size = o.threads.size := size_modifyThread ..

@[simp] theorem withStack_setFrames (stack : List Activation) :
    (o.setFrames t fs).withStack stack = (o.withStack stack).setFrames t fs := rfl

end SetFrames

end Outline

namespace Machine

variable {m : Machine} {t : ThreadId}

theorem map_outline_frames (m : Machine) (t : ThreadId) :
    (m.thread t).frames.map Frame.outline = (m.outline.thread t).frames := by
  rw [outline_thread]
  rfl

theorem exists_topFrame {f : FrameOutline} {fs : List FrameOutline} (h : (m.outline.thread t).frames = f :: fs) :
    ∃ top, m.topFrame? t = some top ∧ top.outline = f := by
  rw [← map_outline_frames] at h
  obtain ⟨top, rest, htop, rfl, -⟩ := List.map_eq_cons_iff.mp h
  exact ⟨top, by rw [topFrame?, htop]; rfl, rfl⟩

theorem topFrame?_eq_none_iff : m.topFrame? t = none ↔ (m.outline.thread t).frames = [] := by
  rw [← map_outline_frames, topFrame?, List.head?_eq_none_iff, List.map_eq_nil_iff]

theorem depth_eq (h : (m.outline.thread t).Counted) : (m.thread t).depth = (m.outline.thread t).frames.length := by
  rw [← h, outline_thread]
  rfl

/-- A change of the innermost frame. -/
theorem outline_modifyTop_eq {f : Frame → Frame} {g : FrameOutline → FrameOutline} {a : FrameOutline}
    {fs : List FrameOutline} (h : ∀ fr, (f fr).outline = g fr.outline) (hcount : (m.outline.thread t).Counted)
    (hframes : (m.outline.thread t).frames = a :: fs) :
    (m.modifyTop t f).outline = m.outline.setFrames t (g a :: fs) := by
  have hchange : (m.modifyTop t f).outline =
      m.outline.modifyThread t fun th => { th with frames := th.frames.modifyHead g } := by
    refine outline_modifyThread m ?_ t
    rintro ⟨_, _, _ | ⟨top, rest⟩, _, _, _, _, _, _, _⟩
    · rfl
    · simp [Thread.outline, h]
  rw [hchange]
  apply Outline.modifyThread_congr
  rw [hcount, hframes]
  rfl

/-- A new frame goes on top, unless there are as many as there may be. -/
theorem pushFrame_spec (hcount : (m.outline.thread t).Counted) (id : ClosureId) (args : Values)
    (target : ReturnTarget) :
    ((m.outline.thread t).frames.length < m.limits.callDepth ∧ ∃ m', m.pushFrame t id args target = (m', .go) ∧
      m'.outline = m.outline.setFrames t (⟨target, none⟩ :: (m.outline.thread t).frames)) ∨
    (∃ message m', m.pushFrame t id args target = (m', .error (.ofText message)) ∧ m'.outline = m.outline) := by
  have hframe : (m.newFrame id args target).1.outline = m.outline := outline_newFrame m id args target
  have hdepth : ((m.newFrame id args target).1.thread t).depth = (m.outline.thread t).frames.length := by
    rw [depth_eq (by rwa [hframe]), hframe]
  have hlimits : (m.newFrame id args target).1.limits.callDepth = m.limits.callDepth := by
    rw [← outline_limits, hframe, outline_limits]
  rw [pushFrame]
  dsimp only
  rw [hdepth, hlimits]
  split
  · exact Or.inr ⟨_, _, rfl, hframe⟩
  · refine Or.inl ⟨by omega, _, rfl, ?_⟩
    rw [outline_modifyThread (m.newFrame id args target).1
      (g := fun th => { th with frames := ⟨target, none⟩ :: th.frames, depth := th.depth + 1 }) (by intro; rfl), hframe,
      Outline.setFrames]
    apply Outline.modifyThread_congr
    rw [hcount, List.length_cons]

theorem outline_popFrame (hcount : (m.outline.thread t).Counted) (top : Frame) :
    (m.popFrame t top).outline = m.outline.setFrames t (m.outline.thread t).frames.tail := by
  have hclosed : (m.closeCells 0 top.openCells).1.outline = m.outline := outline_closeCells m 0 top.openCells
  rw [popFrame]
  dsimp only
  rw [outline_modifyThread (m.closeCells 0 top.openCells).1
    (g := fun th => { th with frames := th.frames.tail, depth := th.depth - 1 })
    (by intro; simp [Thread.outline, List.map_tail]), hclosed, Outline.setFrames]
  apply Outline.modifyThread_congr
  rw [hcount, List.length_tail]

/-- Unwinding keeps the outermost frames. -/
theorem outline_unwind (hcount : (m.outline.thread t).Counted) (hrange : t.index < m.threads.size) (depth : Nat) :
    (m.unwind t depth).outline =
      m.outline.setFrames t ((m.outline.thread t).frames.drop ((m.outline.thread t).frames.length - depth)) := by
  have hframes (fuel : Nat) (m : Machine) (hcount : (m.outline.thread t).Counted) (hrange : t.index < m.threads.size)
      (hfuel : (m.outline.thread t).frames.length < fuel) : (m.unwindFrames t depth fuel).outline =
        m.outline.setFrames t ((m.outline.thread t).frames.drop ((m.outline.thread t).frames.length - depth)) := by
    induction fuel generalizing m with
    | zero => omega
    | succ fuel ih =>
      rw [unwindFrames, depth_eq hcount]
      split
      · rename_i hdone
        rw [Nat.sub_eq_zero_of_le hdone, List.drop_zero, Outline.setFrames_of_eq _ _ hcount]
      · rename_i hmore
        cases hcase : (m.outline.thread t).frames with
        | nil =>
          rw [hcase] at hmore
          exact absurd (Nat.zero_le _) hmore
        | cons f fs =>
          obtain ⟨top, htop, -⟩ := exists_topFrame hcase
          have hpop := outline_popFrame (m := m) hcount top
          have hthread : ((m.popFrame t top).outline.thread t) =
              { m.outline.thread t with frames := fs, depth := fs.length } := by
            rw [hpop, Outline.thread_setFrames _ _ _ (by simpa using hrange), hcase, List.tail_cons]
          rw [htop]
          dsimp only
          rw [ih (m.popFrame t top) (by rw [hthread]; rfl) (by rw [← outline_size, hpop]; simpa using hrange)
            (by rw [hthread]; rw [hcase, List.length_cons] at hfuel; dsimp only; omega), hthread, hpop,
            Outline.setFrames_setFrames]
          dsimp only
          have hlength : (f :: fs).length - depth = fs.length - depth + 1 := by
            rw [hcase, List.length_cons] at hmore
            rw [List.length_cons]
            omega
          rw [hlength, List.drop_succ_cons]
  apply hframes _ m hcount hrange
  rw [← map_outline_frames, List.length_map]
  exact Nat.lt_succ_self _

theorem outline_storeResults (m : Machine) (t : ThreadId) (target : ReturnTarget) (vs : Values) :
    (m.storeResults t target vs).1.outline = m.outline := by
  unfold storeResults
  split
  · rfl
  · split
    · exact outline_modifyTop (m.modifyFile _ _) (by intro; rfl) t
    · rfl

theorem outline_iteratorStep (m : Machine) (t : ThreadId) (a : Nat) :
    (m.iteratorStep t a).1.outline = m.outline := by
  unfold iteratorStep
  split
  · rfl
  · dsimp only
    split
    · exact outline_modifyTop m (by intro; rfl) t
    · rfl

theorem storeResults_of_topFrame {top : Frame} (htop : m.topFrame? t = some top) (target : ReturnTarget)
    (vs : Values) : (m.storeResults t target vs).2 = .go := by
  unfold storeResults
  rw [htop]
  dsimp only
  split <;> rfl

theorem iteratorStep_of_topFrame {top : Frame} (htop : m.topFrame? t = some top) (a : Nat) :
    (m.iteratorStep t a).2 = .go := by
  unfold iteratorStep
  rw [htop]
  dsimp only
  split <;> rfl

/-- Results reach the innermost frame if there is one and they are not for native code. -/
theorem deliver_spec {target : ReturnTarget} (hframes : (m.outline.thread t).frames ≠ [])
    (htarget : target.continuation ≠ .host) (vs : Values) :
    (m.deliver t target vs).2 = .go ∧ (m.deliver t target vs).1.outline = m.outline := by
  have exists_top {m : Machine} (h : (m.outline.thread t).frames ≠ []) : ∃ top, m.topFrame? t = some top := by
    obtain ⟨f, fs, hcons⟩ := List.exists_cons_of_ne_nil h
    obtain ⟨top, htop, -⟩ := exists_topFrame hcons
    exact ⟨top, htop⟩
  obtain ⟨top, htop⟩ := exists_top hframes
  have hstored := outline_storeResults m t target vs
  have hgo := storeResults_of_topFrame htop target vs
  unfold deliver
  cases hcont : target.continuation with
  | host => exact absurd hcont htarget
  | store => exact ⟨hgo, hstored⟩
  | forIterator =>
    obtain ⟨later, hlater⟩ := exists_top (m := (m.storeResults t target vs).1) (by rwa [hstored])
    have hpair : m.storeResults t target vs = ((m.storeResults t target vs).1, .go) := by rw [← hgo]
    dsimp only
    rw [hpair]
    exact ⟨iteratorStep_of_topFrame hlater _, (outline_iteratorStep _ t _).trans hstored⟩

/-- Returning leaves the innermost frame. The values are the outcome if the frame is the last one above `floor` or
belongs to native code, and otherwise go to the frame below. -/
theorem finishReturn_spec {f : FrameOutline} {fs : List FrameOutline} (hcount : (m.outline.thread t).Counted)
    (hrange : t.index < m.threads.size) (hframes : (m.outline.thread t).frames = f :: fs) (vs : Values) (floor : Nat) :
    (m.finishReturn t vs floor).1.outline = m.outline.setFrames t fs ∧
      (m.finishReturn t vs floor).2 =
        if fs.length ≤ floor ∨ f.target.continuation = .host then .values vs else .go := by
  obtain ⟨top, htop, rfl⟩ := exists_topFrame hframes
  set left := (m.popFrame t top).discardFile top.file with hleft
  have houtline : left.outline = m.outline.setFrames t fs := by
    rw [hleft, outline_discardFile, outline_popFrame hcount, hframes, List.tail_cons]
  have hthread : left.outline.thread t = { m.outline.thread t with frames := fs, depth := fs.length } := by
    rw [houtline, Outline.thread_setFrames _ _ _ (by simpa using hrange)]
  have hdepth : (left.thread t).depth = fs.length := by
    rw [depth_eq (by rw [hthread]; rfl), hthread]
  have htarget : top.outline.target = top.target := rfl
  unfold finishReturn
  rw [htop]
  dsimp only
  rw [← hleft, hdepth, htarget]
  split
  · exact ⟨houtline, rfl⟩
  · rename_i hinner
    simp only [not_or, Nat.not_le] at hinner
    have hrest : (left.outline.thread t).frames ≠ [] := by
      rw [hthread]
      exact List.ne_nil_of_length_pos (by dsimp only; omega)
    obtain ⟨hgo, hsame⟩ := deliver_spec hrest hinner.2 vs
    exact ⟨hsame.trans houtline, hgo⟩

/-- A tail call keeps the frame and what becomes of its results. -/
theorem outline_rebindTop {f : FrameOutline} {fs : List FrameOutline} (hcount : (m.outline.thread t).Counted)
    (hframes : (m.outline.thread t).frames = f :: fs)
    (hpending : f.pending = none) (id : ClosureId) (args : Values) : (m.rebindTop t id args).outline = m.outline := by
  obtain ⟨top, htop, rfl⟩ := exists_topFrame hframes
  unfold rebindTop
  rw [htop]
  dsimp only
  set bound := ((m.closeCells 0 top.openCells).1.bindArgs
    ((m.closeCells 0 top.openCells).1.closure id).proto args).1 with hbound
  have houtline : bound.outline = m.outline := by
    rw [hbound, outline_bindArgs, outline_closeCells]
  rw [outline_modifyTop_eq (g := fun f => { f with pending := none }) (by intro; rfl)
    (by rwa [outline_modifyFile, houtline]) (by rw [outline_modifyFile, houtline]; exact hframes), outline_modifyFile,
    houtline]
  have hsame : { top.outline with pending := none } = top.outline := by rw [← hpending]
  rw [hsame, ← hframes, Outline.setFrames_of_eq _ _ hcount]

/-- A pending call is completed: it gets its results, or its frame returns them. -/
theorem completePending_spec {f : FrameOutline} {fs : List FrameOutline} {p : PendingCall}
    (hcount : (m.outline.thread t).Counted) (hrange : t.index < m.threads.size)
    (hframes : (m.outline.thread t).frames = f :: fs) (hpending : f.pending = some p)
    (htarget : p.tail = false → p.target.continuation ≠ .host) (vs : Values) (floor : Nat) :
    (p.tail = false ∧ (m.completePending t vs floor).2 = .go ∧
      (m.completePending t vs floor).1.outline = m.outline.setFrames t ({ f with pending := none } :: fs)) ∨
    (p.tail = true ∧ (m.completePending t vs floor).1.outline = m.outline.setFrames t fs ∧
      (m.completePending t vs floor).2 =
        if fs.length ≤ floor ∨ f.target.continuation = .host then .values vs else .go) := by
  obtain ⟨top, htop, rfl⟩ := exists_topFrame hframes
  have hown : top.pending = some p := hpending
  set cleared := m.modifyTop t fun f => { f with pending := none } with hcleared
  have houtline : cleared.outline = m.outline.setFrames t ({ top.outline with pending := none } :: fs) :=
    outline_modifyTop_eq (g := fun f => { f with pending := none }) (by intro; rfl) hcount hframes
  have hthread : cleared.outline.thread t = { m.outline.thread t with
      frames := { top.outline with pending := none } :: fs, depth := fs.length + 1 } := by
    rw [houtline, Outline.thread_setFrames _ _ _ (by simpa using hrange), List.length_cons]
  have hsize : t.index < cleared.threads.size := by
    rw [← outline_size, houtline]
    simpa using hrange
  unfold completePending
  rw [htop]
  dsimp only
  rw [hown]
  dsimp only
  rw [← hcleared]
  cases htail : p.tail with
  | false =>
    obtain ⟨hgo, hsame⟩ := deliver_spec (m := cleared) (by rw [hthread]; exact List.cons_ne_nil _ _)
      (htarget htail) vs
    exact Or.inl ⟨rfl, hgo, hsame.trans houtline⟩
  | true =>
    obtain ⟨hleft, hvalues⟩ := finishReturn_spec (m := cleared) (by rw [hthread]; rfl) hsize
      (by rw [hthread]) vs floor
    refine Or.inr ⟨rfl, ?_, hvalues⟩
    rw [if_pos rfl, hleft, houtline, Outline.setFrames_setFrames]

end Machine

end LuaMachine
