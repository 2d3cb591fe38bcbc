import LuaMachine.Proofs.Machine.Retaining

namespace LuaMachine

/-- The frames under a list that is long enough are under its first one. -/
theorem suffix_tail {fs frames : List Frame} (h : fs <:+ frames) (hlength : fs.length < frames.length) :
    fs <:+ frames.tail := by
  obtain ⟨above, rfl⟩ := h
  cases above with
  | nil => simp at hlength
  | cons f above => exact ⟨above, rfl⟩

/-- Of a thread at most the frames above `fs` have changed, and how many instructions it ran. -/
structure Thread.Keeps (fs : List Frame) (th th' : Thread) : Prop where
  suffix : fs <:+ th'.frames
  rest : th' = { th with frames := th'.frames, depth := th'.depth, instructions := th'.instructions }

theorem Thread.Continues.keeps {fs : List Frame} {th th' : Thread} (h : th.Continues th')
    (hfs : fs <:+ th.frames.tail) : Thread.Keeps fs th th' := by
  refine ⟨?_, ?_⟩
  · rw [← h.tail] at hfs
    exact hfs.trans (List.tail_suffix _)
  · have hrest := h.rest
    have hdepth : th'.depth = th.depth := by rw [hrest]
    rw [hdepth]
    exact hrest

theorem Thread.Keeps.trans {fs gs : List Frame} {th th' th'' : Thread} (h : Thread.Keeps gs th th')
    (h' : Thread.Keeps fs th' th'') : Thread.Keeps fs th th'' := by
  refine ⟨h'.suffix, ?_⟩
  have hrest := h'.rest
  rw [h.rest] at hrest
  exact hrest

namespace Machine

variable {n m m' : Machine} {t : ThreadId} {fs : List Frame}

section Frames

/-- A new frame comes with registers, and perhaps with a table. -/
theorem exists_newFrame_eq (m : Machine) (id : ClosureId) (args : Values) (target : ReturnTarget) :
    ∃ tables files, (m.newFrame id args target).1 = { m with tables, files } := by
  obtain ⟨tables, htables⟩ := m.exists_bindArgs_eq (m.closure id).proto args
  unfold newFrame
  dsimp only
  rw [htables]
  exact ⟨tables, _, rfl⟩

/-- A closure is entered with a frame on top, unless the thread has as many frames as it may. -/
theorem Retains.pushFrame {s : Signal} (h : n.Retains m t) {id : ClosureId} {args : Values} {target : ReturnTarget}
    (hpushed : m.pushFrame t id args target = (m', s)) :
    s = .go ∧ n.Confined m' t ∧ (t.index < m.threads.size → ∃ frame, m'.thread t =
      { m.thread t with frames := frame :: (m.thread t).frames, depth := (m.thread t).depth + 1 }) ∨
    (∃ e, s = .error e) ∧ n.Retains m' t ∧ m'.threads = m.threads := by
  obtain ⟨tables, files, hframe⟩ := m.exists_newFrame_eq id args target
  have hretains : n.Retains { m with tables, files } t := h.of_eq rfl rfl rfl rfl rfl
  unfold Machine.pushFrame at hpushed
  dsimp only at hpushed
  rw [hframe] at hpushed
  split at hpushed
  · cases hpushed
    exact Or.inr ⟨⟨_, rfl⟩, hretains, rfl⟩
  · cases hpushed
    refine Or.inl ⟨rfl, hretains.toConfined.trans (confined_modifyThread _ t _), fun hrange => ?_⟩
    exact ⟨_, thread_modifyThread (m := { m with tables, files }) hrange _⟩

theorem Retains.popFrame (h : n.Retains m t) (top : Frame) : n.Confined (m.popFrame t top) t := by
  unfold Machine.popFrame
  exact (h.closeCells 0 top.openCells).toConfined.trans (confined_modifyThread _ t _)

theorem thread_popFrame (hrange : t.index < m.threads.size) (top : Frame) : (m.popFrame t top).thread t =
    { m.thread t with frames := (m.thread t).frames.tail, depth := (m.thread t).depth - 1 } := by
  obtain ⟨cells, hcells⟩ := m.exists_closeCells_eq 0 top.openCells
  unfold Machine.popFrame
  dsimp only
  rw [hcells]
  exact thread_modifyThread (m := { m with cells }) hrange _

theorem Confined.discardFile (h : n.Confined m t) (file : FileId) : n.Confined (m.discardFile file) t :=
  h.trans (Retains.discardFile (.refl m t) file).toConfined

theorem thread_discardFile (m : Machine) (file : FileId) (t : ThreadId) :
    (m.discardFile file).thread t = m.thread t := by
  unfold Machine.discardFile
  split <;> rfl

theorem Retains.finishReturn (h : n.Retains m t) (vs : Values) (floor : Nat) :
    n.Confined (m.finishReturn t vs floor).1 t := by
  unfold Machine.finishReturn
  split
  · exact h.toConfined
  · rename_i frame _
    have hleft := (h.popFrame frame).discardFile frame.file
    dsimp only
    split
    · exact hleft
    · exact hleft.trans (Retains.deliver (.refl _ t) frame.target vs).toConfined

/-- Returning keeps the frames under those of the interpreter. -/
theorem finishReturn_keeps (hrange : t.index < m.threads.size)
    (hcount : (m.thread t).depth = (m.thread t).frames.length) (hfs : fs <:+ (m.thread t).frames.tail)
    (vs : Values) {floor : Nat} (hfloor : fs.length ≤ floor) :
    Thread.Keeps fs (m.thread t) ((m.finishReturn t vs floor).1.thread t) := by
  unfold Machine.finishReturn
  split
  · exact ⟨hfs.trans (List.tail_suffix _), rfl⟩
  · rename_i frame _
    dsimp only
    generalize hleft : (m.popFrame t frame).discardFile frame.file = left
    have hthread : left.thread t =
        { m.thread t with frames := (m.thread t).frames.tail, depth := (m.thread t).depth - 1 } := by
      rw [← hleft, thread_discardFile, thread_popFrame hrange]
    have hpopped : Thread.Keeps fs (m.thread t) (left.thread t) := by
      rw [hthread]
      exact ⟨hfs, rfl⟩
    split
    · exact hpopped
    · rename_i hinner
      have hdelivered : left.Retains (left.deliver t frame.target vs).1 t := Retains.deliver (.refl left t) _ vs
      refine hpopped.trans (hdelivered.own.keeps (suffix_tail hpopped.suffix ?_))
      have hdepth : (left.thread t).depth = (left.thread t).frames.length := by
        rw [hthread]
        dsimp only
        rw [hcount, List.length_tail]
      rw [← hdepth]
      omega

/-- A tail call changes the innermost frame once its new registers are there. -/
theorem exists_rebindTop_eq {top : Frame} (htop : m.topFrame? t = some top) (id : ClosureId) (args : Values) :
    ∃ bound change, m.rebindTop t id args = bound.modifyTop t change ∧ m.Retains bound t := by
  obtain ⟨cells, hcells⟩ := m.exists_closeCells_eq 0 top.openCells
  obtain ⟨tables, htables⟩ :=
    ({ m with cells } : Machine).exists_bindArgs_eq (({ m with cells } : Machine).closure id).proto args
  unfold Machine.rebindTop
  rw [htop]
  dsimp only
  rw [hcells, htables]
  exact ⟨_, _, rfl, .of_eq (.refl m t) rfl rfl rfl rfl rfl⟩

theorem Retains.rebindTop (h : n.Retains m t) (id : ClosureId) (args : Values) :
    n.Confined (m.rebindTop t id args) t := by
  cases htop : m.topFrame? t with
  | none =>
    rw [Machine.rebindTop, htop]
    exact h.toConfined
  | some top =>
    obtain ⟨bound, change, hrebound, hbound⟩ := exists_rebindTop_eq htop id args
    rw [hrebound]
    exact h.toConfined.trans (hbound.toConfined.trans (confined_modifyThread _ t _))

/-- A tail call keeps the frames under the innermost one. -/
theorem rebindTop_keeps (hrange : t.index < m.threads.size) (hfs : fs <:+ (m.thread t).frames.tail) (id : ClosureId)
    (args : Values) : Thread.Keeps fs (m.thread t) ((m.rebindTop t id args).thread t) := by
  cases htop : m.topFrame? t with
  | none =>
    rw [Machine.rebindTop, htop]
    exact ⟨hfs.trans (List.tail_suffix _), rfl⟩
  | some top =>
    obtain ⟨bound, change, hrebound, hbound⟩ := exists_rebindTop_eq htop id args
    have hkept := hbound.own.keeps hfs
    obtain ⟨last, rest, hframes⟩ : ∃ last rest, (bound.thread t).frames = last :: rest := by
      refine List.exists_cons_of_length_pos ?_
      rw [hbound.own.length_eq]
      exact List.length_pos_of_mem (List.mem_of_mem_head? htop)
    have htail : (bound.thread t).frames.tail = (m.thread t).frames.tail := hbound.own.tail
    rw [hrebound, thread_modifyTop (by rw [hbound.size]; exact hrange) hframes]
    refine hkept.trans ⟨?_, rfl⟩
    rw [← htail, hframes, List.tail_cons] at hfs
    exact hfs.trans (List.suffix_cons _ _)

theorem confined_unwind (m : Machine) (t : ThreadId) (depth : Nat) : m.Confined (m.unwind t depth) t := by
  have hframes (fuel : Nat) (m : Machine) : m.Confined (m.unwindFrames t depth fuel) t := by
    induction fuel generalizing m with
    | zero => exact .refl m t
    | succ fuel ih =>
      unfold unwindFrames
      split
      · exact .refl m t
      · split
        · exact m.confined_modifyThread t _
        · exact ((Retains.refl m t).popFrame _).trans (ih _)
  exact hframes _ m

/-- Unwinding leaves the frames that are kept. -/
theorem thread_unwind (hrange : t.index < m.threads.size) (hcount : (m.thread t).depth = (m.thread t).frames.length)
    (hfs : fs <:+ (m.thread t).frames) :
    (m.unwind t fs.length).thread t = { m.thread t with frames := fs, depth := fs.length } := by
  have hframes (fuel : Nat) (m : Machine) (hrange : t.index < m.threads.size)
      (hcount : (m.thread t).depth = (m.thread t).frames.length) (hfs : fs <:+ (m.thread t).frames)
      (hfuel : (m.thread t).frames.length < fuel) :
      (m.unwindFrames t fs.length fuel).thread t = { m.thread t with frames := fs, depth := fs.length } := by
    induction fuel generalizing m with
    | zero => exact absurd hfuel (Nat.not_lt_zero _)
    | succ fuel ih =>
      unfold unwindFrames
      split
      · rename_i hdone
        rw [hcount] at hdone
        have hall := hfs.eq_of_length_le hdone
        rw [hall, ← hcount]
      · rename_i hmore
        rw [hcount] at hmore
        have hthread (top : Frame) := thread_popFrame (m := m) hrange top
        split
        · rename_i hnone
          rw [topFrame?, List.head?_eq_none_iff] at hnone
          rw [hnone] at hmore
          exact absurd (Nat.zero_le _) hmore
        · rename_i top _
          have hpopped := (Retains.refl m t).popFrame top
          rw [ih (m.popFrame t top) (by rw [hpopped.size]; exact hrange), hthread]
          · rw [hthread]
            dsimp only
            rw [hcount, List.length_tail]
          · rw [hthread]
            exact suffix_tail hfs (Nat.not_le.mp hmore)
          · rw [hthread, List.length_tail]
            omega
  exact hframes _ m hrange hcount hfs (Nat.lt_succ_self _)

theorem confined_completePending (m : Machine) (t : ThreadId) (vs : Values) (floor : Nat) :
    m.Confined (m.completePending t vs floor).1 t := by
  have hcleared : m.Retains (m.modifyTop t fun f => { f with pending := none }) t :=
    Retains.modifyTop (.refl m t) fun _ => rfl
  unfold completePending
  split
  · exact .refl m t
  · split
    · exact .refl m t
    · dsimp only
      split
      · exact hcleared.finishReturn vs floor
      · exact (hcleared.deliver _ vs).toConfined

theorem confined_destroyThread (m : Machine) (t : ThreadId) : m.Confined (m.destroyThread t) t :=
  (m.confined_unwind t 0).trans (confined_modifyThread _ t _)

end Frames

/-- The ways in which the interpreter `i` comes from the machine `n` to another one by the end of an instruction. -/
inductive Ends (n : Machine) (i : Interpreter) : Machine → Ending → Prop
  /-- The innermost frame has moved on. -/
  | stays {m : Machine} {e : Ending} (h : n.Retains m i.thread) : Ends n i m e
  /-- A closure has been entered. -/
  | enters {m m' : Machine} {id : ClosureId} {args : Values} {target : ReturnTarget} (h : n.Retains m i.thread)
      (hpushed : m.pushFrame i.thread id args target = (m', .go)) : Ends n i m' .enter
  /-- The innermost frame has been left for a tail call. -/
  | rebinds {m : Machine} {id : ClosureId} {args : Values} (h : n.Retains m i.thread) :
      Ends n i (m.rebindTop i.thread id args) .enter
  /-- The innermost frame has been left. -/
  | leaves {m : Machine} {vs : Values} (h : n.Retains m i.thread) :
      Ends n i (m.finishReturn i.thread vs i.floor).1 (.ofSignal (m.finishReturn i.thread vs i.floor).2)
  /-- The innermost frame waits for a native call. -/
  | suspends {m : Machine} {vs : Values} (h : n.Retains m i.thread) :
      Ends n i (m.takeYielded i.thread).1 (.stop (.yielded vs))

namespace Ends

variable {i : Interpreter} {e : Ending}

theorem confined (h : n.Ends i m e) : n.Confined m i.thread := by
  cases h with
  | stays h => exact h.toConfined
  | enters h hpushed =>
    obtain ⟨-, hconfined, -⟩ | ⟨⟨e, hs⟩, -⟩ := h.pushFrame hpushed
    · exact hconfined
    · cases hs
  | rebinds h => exact h.rebindTop _ _
  | leaves h => exact h.finishReturn _ _
  | suspends h => exact h.toConfined.trans (confined_modifyThread _ i.thread _)

/-- The frames under those of the interpreter stay as they are, and unless it yields so does the rest of its thread. -/
theorem keeps (h : n.Ends i m e) (hrange : i.thread.index < n.threads.size)
    (hcount : (n.thread i.thread).depth = (n.thread i.thread).frames.length)
    (hfs : fs <:+ (n.thread i.thread).frames.tail) (hfloor : fs.length ≤ i.floor) :
    Thread.Keeps fs (n.thread i.thread) (m.thread i.thread) ∨ (∃ vs, e = .stop (.yielded vs)) ∧
      fs <:+ (m.thread i.thread).frames ∧
        (m.thread i.thread).nativeDepth = (n.thread i.thread).nativeDepth := by
  have hrest {m : Machine} (h : n.Retains m i.thread) : i.thread.index < m.threads.size ∧
      (m.thread i.thread).depth = (m.thread i.thread).frames.length ∧ fs <:+ (m.thread i.thread).frames.tail := by
    refine ⟨by rw [h.size]; exact hrange, ?_, by rw [h.own.tail]; exact hfs⟩
    rw [h.own.length_eq, ← hcount, h.own.rest]
  cases h with
  | stays h => exact Or.inl (h.own.keeps hfs)
  | enters h hpushed =>
    obtain ⟨-, -, hframe⟩ | ⟨⟨e, hs⟩, -⟩ := h.pushFrame hpushed
    · obtain ⟨frame, hthread⟩ := hframe (hrest h).1
      have hretained := h.own.keeps hfs
      rw [hthread]
      exact Or.inl (hretained.trans ⟨hretained.suffix.trans (List.suffix_cons _ _), rfl⟩)
    · cases hs
  | rebinds h => exact Or.inl ((h.own.keeps hfs).trans (rebindTop_keeps (hrest h).1 (hrest h).2.2 _ _))
  | leaves h =>
    exact Or.inl ((h.own.keeps hfs).trans (finishReturn_keeps (hrest h).1 (hrest h).2.1 (hrest h).2.2 _ hfloor))
  | suspends h =>
    have hkept := h.own.keeps hfs
    refine Or.inr ⟨⟨_, rfl⟩, ?_⟩
    rw [takeYielded, thread_modifyThread (hrest h).1]
    exact ⟨hkept.suffix, by rw [hkept.rest]⟩

theorem suffix (h : n.Ends i m e) (hrange : i.thread.index < n.threads.size)
    (hcount : (n.thread i.thread).depth = (n.thread i.thread).frames.length)
    (hfs : fs <:+ (n.thread i.thread).frames.tail) (hfloor : fs.length ≤ i.floor) :
    fs <:+ (m.thread i.thread).frames := by
  obtain hkept | ⟨-, hsuffix, -⟩ := h.keeps hrange hcount hfs hfloor
  · exact hkept.suffix
  · exact hsuffix

/-- An interpreter that goes on behind the instruction is still in the code of its innermost frame. -/
theorem retains (h : n.Ends i m e) (henter : e ≠ .enter) (hstop : ∀ s, e ≠ .stop s) : n.Retains m i.thread := by
  cases h with
  | stays h => exact h
  | enters | rebinds => exact absurd rfl henter
  | leaves h =>
    generalize (Machine.finishReturn _ _ _ _).2 = s at henter hstop
    cases s with
    | go => exact absurd rfl henter
    | invoke | values | yielded | frameLimit | sleeping | error => exact absurd rfl (hstop _)
  | suspends => exact absurd rfl (hstop _)

end Ends

section Instructions

variable {i : Interpreter}

theorem Retains.ends_callFrom (h : n.Retains m i.thread) (w : Window) (f : Value) (args : Values)
    (target : ReturnTarget) : n.Ends i (m.callFrom i w f args target).1 (m.callFrom i w f args target).2 := by
  unfold Machine.callFrom
  split
  · exact .stays h
  · rename_i id args' _
    split
    · exact .stays (h.modifyTop fun _ => rfl)
    · cases hpushed : m.pushFrame i.thread id args' target with | mk m' s =>
      obtain ⟨rfl, -⟩ | ⟨-, hkept, -⟩ := h.pushFrame hpushed
      · exact .enters h hpushed
      · exact .stays hkept
  · exact .stays h

theorem Retains.ends_tailCallFrom (h : n.Retains m i.thread) (f : Value) (args : Values) :
    n.Ends i (m.tailCallFrom i f args).1 (m.tailCallFrom i f args).2 := by
  unfold Machine.tailCallFrom
  split
  · exact .stays h
  · exact .rebinds h
  · exact .stays h

/-- One instruction of any code. -/
theorem Retains.ends_perform (h : n.Retains m i.thread) (w : Window) (word : Instruction) (op : Opcode) :
    n.Ends i (m.perform i w word op).1 (m.perform i w word op).2 := by
  by_cases hcalls : op.Calls
  · obtain ⟨callee, args, hperform⟩ := m.exists_perform_eq i word hcalls w
    rw [hperform]
    split
    · exact h.ends_callFrom w callee args _
    · exact h.ends_tailCallFrom callee args
  · by_cases hret : op = .ret
    · subst hret
      exact .leaves h
    · exact .stays (h.perform w word hcalls hret)

/-- Running the next instruction, or refusing to. -/
theorem ends_execute (m : Machine) (i : Interpreter) (w : Window) : m.Ends i (m.execute i w).1 (m.execute i w).2 := by
  have hcounted : m.Retains (m.modifyThread i.thread (·.counted)) i.thread :=
    Retains.modifyThread (.refl m _) fun th => .counted th
  have hmoved (pc : Nat) : m.Retains (m.modifyThread i.thread (·.movedTo pc)) i.thread :=
    Retains.modifyThread (.refl m _) fun th => .movedTo th pc
  have hfetch : m.Ends i (m.fetch i w).1 (m.fetch i w).2 := by
    unfold fetch
    split
    · exact .stays hcounted
    · split
      · exact .stays hcounted
      · dsimp only
        split
        · exact .stays (hmoved _)
        · exact (hmoved _).ends_perform _ _ _
  unfold execute
  dsimp only
  split
  · split
    · exact .stays hcounted
    · exact hfetch
  · exact hfetch

/-- The values that an instruction waited for reach it. -/
theorem ends_settle (m : Machine) (i : Interpreter) (w : Window) (vs : Values) (sequel : Sequel) :
    m.Ends i (m.settle i w vs sequel).1 (m.settle i w vs sequel).2 := by
  have hown := Retains.refl m i.thread
  cases sequel with
  | discard | branch => exact .stays hown
  | store a => exact .stays (hown.setRegister _ _ _)
  | deliver target held =>
    have hdelivered := hown.deliver target vs
    unfold settle
    dsimp only
    split
    · rename_i heq
      rw [heq] at hdelivered
      split <;> exact .stays hdelivered
    · rename_i heq
      rw [heq] at hdelivered
      exact .stays hdelivered
  | leave held => exact .leaves hown

/-- What an instruction waited for failed, or yielded. -/
theorem ends_interrupted (m : Machine) (i : Interpreter) (s : Signal) (sequel : Sequel) :
    m.Ends i (m.interrupted i s sequel).1 (m.interrupted i s sequel).2 := by
  have hown := Retains.refl m i.thread
  have hsuspended (pending : Frame → PendingCall) :
      m.Ends i (m.suspend i.thread pending).1 (m.suspend i.thread pending).2 := by
    unfold suspend
    split
    · exact .stays hown
    · rename_i top _
      exact .suspends (hown.modifyTop (f := fun f => { f with pending := some (pending top) }) fun _ => rfl)
  unfold interrupted
  split
  · split
    · exact hsuspended _
    · exact .stays hown
  · split
    · exact hsuspended _
    · exact .stays hown
  · exact .stays hown

end Instructions

end Machine

end LuaMachine
