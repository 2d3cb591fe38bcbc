import LuaMachine.Proofs.Machine.BareSteps
import LuaMachine.Proofs.Machine.NestingSteps

namespace LuaMachine.Machine

/-- What decides, apart from a budget, how far a resume of a thread gets: the limits of the machine, and how many
resumes the thread sleeps through. -/
def pace (m : Machine) (t : ThreadId) : Limits × Nat := (m.limits, (m.thread t).sleep)

variable {m m' : Machine} {t u : ThreadId}

section Frames

theorem pace_modifyThread (m : Machine) (t u : ThreadId) {f : Thread → Thread} (hf : ∀ th, (f th).sleep = th.sleep) :
    (m.modifyThread u f).pace t = m.pace t := by
  obtain hsame | hchanged := m.thread_modifyThread_cases u f t
  · rw [pace, hsame]
    rfl
  · rw [pace, hchanged, hf]
    rfl

@[simp]
theorem pace_push (a : Activation) : (m.push a).pace t = m.pace t := rfl

@[simp]
theorem pace_pop : m.pop.pace t = m.pace t := rfl

@[simp]
theorem pace_replaceTop (a : Activation) : (m.replaceTop a).pace t = m.pace t := rfl

@[simp]
theorem pace_setStatus (status : Status) : (m.setStatus u status).pace t = m.pace t :=
  pace_modifyThread m t u fun _ => rfl

@[simp]
theorem pace_takeYielded : (m.takeYielded u).1.pace t = m.pace t := pace_modifyThread m t u fun _ => rfl

@[simp]
theorem pace_modifyTop (f : Frame → Frame) : (m.modifyTop u f).pace t = m.pace t := by
  refine pace_modifyThread m t u ?_
  rintro ⟨number, status, _ | ⟨top, rest⟩⟩ <;> rfl

@[simp]
theorem pace_closeCells (start : Nat) (ids : List CellId) : (m.closeCells start ids).1.pace t = m.pace t := by
  obtain ⟨cells, hcells⟩ := m.exists_closeCells_eq start ids
  rw [hcells]
  rfl

@[simp]
theorem pace_pushFrame (id : ClosureId) (args : Values) (target : ReturnTarget) :
    (m.pushFrame u id args target).1.pace t = m.pace t := by
  obtain ⟨tables, files, hframe⟩ := m.exists_newFrame_eq id args target
  unfold pushFrame
  dsimp only
  rw [hframe]
  split
  · rfl
  · exact pace_modifyThread _ t u fun _ => rfl

@[simp]
theorem pace_popFrame (top : Frame) : (m.popFrame u top).pace t = m.pace t :=
  (pace_modifyThread (m.closeCells 0 top.openCells).1 t u (by intro; rfl)).trans (pace_closeCells 0 top.openCells)

@[simp]
theorem pace_unwind (depth : Nat) : (m.unwind u depth).pace t = m.pace t := by
  have hframes (fuel : Nat) (m : Machine) : (m.unwindFrames u depth fuel).pace t = m.pace t := by
    induction fuel generalizing m with
    | zero => rfl
    | succ fuel ih =>
      unfold unwindFrames
      split
      · rfl
      · split
        · exact pace_modifyThread m t u fun _ => rfl
        · rw [ih, pace_popFrame]
  exact hframes _ m

@[simp]
theorem pace_storeResults (target : ReturnTarget) (vs : Values) :
    (m.storeResults u target vs).1.pace t = m.pace t := by
  unfold storeResults
  split
  · rfl
  · split
    · exact pace_modifyTop (m := m.modifyFile _ _) _
    · rfl

@[simp]
theorem pace_deliver (target : ReturnTarget) (vs : Values) : (m.deliver u target vs).1.pace t = m.pace t := by
  have hstored := pace_storeResults (m := m) (t := t) (u := u) target vs
  have hiterator (m : Machine) (a : Nat) : (m.iteratorStep u a).1.pace t = m.pace t := by
    unfold iteratorStep
    split
    · rfl
    · dsimp only
      split
      · exact pace_modifyTop _
      · rfl
  unfold deliver
  split
  · exact hstored
  · split
    · rename_i heq
      rw [heq] at hstored
      exact (hiterator _ _).trans hstored
    · exact hstored
  · rfl

@[simp]
theorem pace_finishReturn (vs : Values) (floor : Nat) : (m.finishReturn u vs floor).1.pace t = m.pace t := by
  have hdiscarded (m : Machine) (file : FileId) : (m.discardFile file).pace t = m.pace t := by
    unfold discardFile
    split <;> rfl
  unfold finishReturn
  split
  · rfl
  · dsimp only
    split
    · rw [hdiscarded, pace_popFrame]
    · rw [pace_deliver, hdiscarded, pace_popFrame]

@[simp]
theorem pace_completePending (vs : Values) (floor : Nat) : (m.completePending u vs floor).1.pace t = m.pace t := by
  unfold completePending
  split
  · rfl
  · split
    · rfl
    · dsimp only
      split
      · rw [pace_finishReturn, pace_modifyTop]
      · rw [pace_deliver, pace_modifyTop]

@[simp]
theorem pace_rebindTop (id : ClosureId) (args : Values) : (m.rebindTop u id args).pace t = m.pace t := by
  unfold rebindTop
  split
  · rfl
  · rename_i top _
    have hclosed := pace_closeCells (m := m) (t := t) 0 top.openCells
    obtain ⟨tables, htables⟩ := (m.closeCells 0 top.openCells).1.exists_bindArgs_eq
      ((m.closeCells 0 top.openCells).1.closure id).proto args
    dsimp only
    rw [pace_modifyTop, htables]
    exact hclosed

end Frames

section Calls

theorem entering_pace (u t : ThreadId) (limit : Option Nat) (p : Limits × Nat) :
    Entering u limit (fun m => m.pace t = p) fun m _ => m.pace t = p where
  hands h _ _ := h
  enters id args h := (pace_pushFrame id args .host).trans h
  completes args h := (pace_completePending args 0).trans h
  starts h := (pace_modifyThread _ t u (by intro; rfl)).trans h
  returns h := (pace_modifyThread _ t u (by intro; rfl)).trans h
  waits _ h := h
  invokes _ _ h := h
  runs _ h := h

@[simp]
theorem pace_beginCall (f : Value) (args held : Values) : (m.beginCall u f args held).1.pace t = m.pace t :=
  (entering_pace u t none _).beginCall (fun _ => rfl) (fun _ _ => pace_modifyThread m t u fun _ => rfl) f args held

/-- No thread changes its pace when it works for itself. -/
theorem upkeep_pace (u t : ThreadId) (p : Limits × Nat) :
    Upkeep u (fun m => m.pace t = p) fun m _ => m.pace t = p where
  answers h _ := h
  edits _ _ _ h := h
  names _ h := h
  begins h _ := h
  calls f args held h := (pace_beginCall f args held).trans h

@[simp]
theorem pace_yieldNow (vs : Values) : (m.yieldNow u vs).1.pace t = m.pace t := by
  unfold yieldNow
  dsimp only
  split
  · rfl
  · split
    · rfl
    · exact pace_modifyThread m t u fun _ => rfl

end Calls

section Others

theorem pace_modifyThread_of_ne (m : Machine) (hne : t ≠ u) (f : Thread → Thread) :
    (m.modifyThread u f).pace t = m.pace t := by
  rw [pace, m.thread_modifyThread_of_ne hne]
  rfl

theorem pace_newThread (hrange : t.index < m.threads.size) (f : Value) (args : Values) :
    (m.newThread f args).1.pace t = m.pace t := by
  rw [pace, (m.spares_newThread t f args).thread hrange]
  rfl

theorem pace_addToGroup (hne : t ≠ u) (g : GroupId) : (m.addToGroup g u).pace t = m.pace t := by
  unfold addToGroup
  split
  · split
    · rfl
    · exact (pace_modifyThread_of_ne _ hne _).trans (pace_unwind 0)
  · rfl

@[simp]
theorem pace_beginResumed (floor : Nat) (limit : Option Nat) (args : Values) :
    (m.beginResumed u floor limit args).1.pace t = m.pace t :=
  (entering_pace u t limit _).beginResumed floor (fun _ => rfl) args

/-- A resume of a thread wakes no other one. -/
theorem pace_beginResume (hne : t ≠ u) (budget : Option Nat) (args : Values) :
    (m.beginResume u budget args).1.pace t = m.pace t := by
  unfold beginResume
  dsimp only
  split
  · exact pace_modifyThread_of_ne m hne _
  · split
    · rfl
    · split
      · rfl
      · rw [pace_beginResumed]
        exact pace_modifyThread _ t u fun _ => rfl

/-- A thread at work is not resumed. -/
theorem pace_beginResumeFrom (hbusy : m.isBusy t = true) (target : ThreadId) (wrapped : Bool) (args : Values) :
    (m.beginResumeFrom u target wrapped args).1.pace t = m.pace t := by
  unfold beginResumeFrom
  extract_lets previous pushed
  split
  · rfl
  · rename_i hfree
    have hne : t ≠ target := by
      rintro rfl
      have hpushed : pushed.isBusy t = m.isBusy t := rfl
      exact hfree (Or.inr (hpushed.trans hbusy))
    rw [pace_beginResume hne, pace_setStatus]
    rfl

end Others

section Natives

/-- A native function makes the thread `t` wait: the thread yields, and nothing else happens that the bookkeeping of
calls depends on. -/
structure Waits (m m' : Machine) (t u : ThreadId) (s : Signal) : Prop where
  thread : u = t
  native : (m.thread t).nativeDepth = 0
  outline : m'.outline = m.outline
  signal : s = .error .yield

/-- The effect of a function leaves the pace of a thread as it is, unless it makes the thread wait. -/
def KeepsPace (t u : ThreadId) (m : Machine) (effect : Effect) : Prop :=
  (effect m).1.pace t = m.pace t ∨ m.Waits (effect m).1 t u (effect m).2

/-- A thread that yields has no native code waiting for it. -/
theorem yieldNow_eq_yield {vs : Values} (h : m.yieldNow u vs = (m', .error .yield)) :
    (m.thread u).nativeDepth = 0 ∧ m'.outline = m.outline := by
  unfold yieldNow at h
  dsimp only at h
  split at h
  · cases h
  · split at h
    · cases h
    · rename_i hfree
      cases h
      exact ⟨Nat.le_zero.mp (Nat.not_lt.mp hfree), outline_modifyThread_of_eq m (by intro; rfl) u⟩

/-- A thread waits by yielding with a number of resumes to sleep through. -/
theorem keepsPace_wait (ticks : Nat) : KeepsPace t u m fun m =>
    match m.yieldNow u [] with
    | (m, .error .yield) => (m.modifyThread u fun th => { th with sleep := ticks }, .error .yield)
    | refused => refused := by
  have hyielded := pace_yieldNow (m := m) (t := t) (u := u) []
  unfold KeepsPace
  dsimp only
  split
  · rename_i m' heq
    rw [heq] at hyielded
    obtain ⟨hnative, hsame⟩ := yieldNow_eq_yield heq
    by_cases hne : t = u
    · subst hne
      exact Or.inr ⟨rfl, hnative, (outline_modifyThread_of_eq m' (by intro; rfl) t).trans hsame, rfl⟩
    · exact Or.inl ((pace_modifyThread_of_ne m' hne _).trans hyielded)
  · exact Or.inl hyielded

theorem CoroutineEffect.keepsPace {args : Values} {effect : Effect} (h : CoroutineEffect u args effect)
    (hrange : t.index < m.threads.size) (hbusy : m.isBusy t = true) : KeepsPace t u m effect := by
  cases h with
  | answer => exact Or.inl rfl
  | create f => exact Or.inl (pace_newThread hrange f [])
  | wrap f => exact Or.inl (pace_newThread hrange f [])
  | resume target => exact Or.inl (pace_beginResumeFrom hbusy target false _)
  | yield => exact Or.inl (pace_yieldNow args)
  | wait ticks => exact keepsPace_wait ticks

theorem checked_keepsPace (hrange : t.index < m.threads.size) (hbusy : m.isBusy t = true) {body : Builtin}
    (hlibrary : body.IsLibrary ∨ body = .host .nothing) (args : Values) :
    Checked (KeepsPace t u m) (m.effect u body args) := by
  cases body with
  | base f => exact (m.checked_base u f args).imp fun _ heffect => Or.inl ((upkeep_pace u t _).baseEffect rfl heffect)
  | coroutine f => exact (m.checked_coroutine u f args).imp fun _ heffect => heffect.keepsPace hrange hbusy
  | wrapped target => exact Or.inl (pace_beginResumeFrom hbusy target true args)
  | spawn name =>
    refine (m.checked_requireArg u args 1 _).bind fun f _ => Or.inl ?_
    refine (pace_addToGroup (m := (m.newThread f _).1) ?_ _).trans (pace_newThread hrange f _)
    intro heq
    rw [heq] at hrange
    exact Nat.lt_irrefl _ hrange
  | host op =>
    obtain hnot | hop := hlibrary
    · cases hnot
    · cases hop
      exact Or.inl rfl
  | group =>
    obtain hnot | hop := hlibrary
    · cases hnot
    · cases hop

/-- A function of the library runs. -/
theorem pace_invoke (hrange : t.index < m.threads.size) (hbusy : m.isBusy t = true) {id : NativeId}
    (hlibrary : (m.native id).body.IsLibrary ∨ (m.native id).body = .host .nothing) (args : Values) :
    (m.invoke u id args).1.pace t = m.pace t ∨ m.Waits (m.invoke u id args).1 t u (m.invoke u id args).2 := by
  have hchecked := checked_keepsPace (m := { m with inUse := args }) (u := u) hrange hbusy hlibrary args
  refine invoke_of_checked (Q := fun m' s => m'.pace t = m.pace t ∨ m.Waits m' t u s) ?_ fun _ _ => Or.inl rfl
  exact hchecked.imp fun _ h => h.imp_right fun h => ⟨h.thread, h.native, h.outline, h.signal⟩

end Natives

section Interpreters

variable {i : Interpreter} {e : Ending}

theorem Ends.sleep_eq (h : m.Ends i m' e) (t : ThreadId) : (m'.thread t).sleep = (m.thread t).sleep := by
  have hretained {m' : Machine} (h : m.Retains m' i.thread) : (m'.thread t).sleep = (m.thread t).sleep := by
    by_cases ht : t = i.thread
    · rw [ht, h.own.rest]
    · rw [h.others t ht]
  have hpace {m₁ m₂ : Machine} (h : m₂.pace t = m₁.pace t) : (m₂.thread t).sleep = (m₁.thread t).sleep :=
    congrArg Prod.snd h
  cases h with
  | stays h => exact hretained h
  | enters h hpushed =>
    rename_i m₁ id args target
    have hentered := pace_pushFrame (m := m₁) (t := t) (u := i.thread) id args target
    rw [hpushed] at hentered
    exact (hpace hentered).trans (hretained h)
  | rebinds h => exact (hpace (pace_rebindTop _ _)).trans (hretained h)
  | leaves h => exact (hpace (pace_finishReturn _ _)).trans (hretained h)
  | suspends h => exact (hpace pace_takeYielded).trans (hretained h)

/-- The end of an instruction keeps the pace. -/
theorem Ends.pace_eq (h : m.Ends i m' e) {fs : List FrameOutline}
    (hconcludes : Concludes .host i.thread i fs m.outline m'.outline e) (t : ThreadId) : m'.pace t = m.pace t := by
  have hlimits : m'.outline.limits = m.outline.limits := by
    cases hconcludes with
    | goOn ho | handle ho | join ho | invoke ho | fail ho | frameLimit ho => rw [ho]
    | enter _ _ ho | values ho | yielded _ _ _ ho => rw [ho, Outline.limits_setFrames]
  exact Prod.ext hlimits (h.sleep_eq t)

@[simp]
theorem pace_conclude (w : Window) (e : Ending) : (m.conclude i w e).1.pace t = m.pace t := by
  cases e with
  | goOn | enter | invoke => rfl
  | handle h sequel => exact (upkeep_pace i.thread t _).callHandler rfl h []
  | join reversed sequel => exact (upkeep_pace i.thread t _).continueJoin rfl reversed []
  | stop s => cases s <;> rfl

/-- An interpreter takes a signal. -/
theorem pace_interpret {s : Signal} {acts : List Activation} (hsound : m.outline.Sound .host s)
    (hstack : m.stack = .interpret i :: acts) (hinvoke : ∀ u id args, s ≠ .invoke u id args) :
    (m.interpret i s).1.pace t = m.pace t := by
  obtain ⟨band, fs, own, below, ts, h, hcase⟩ := hsound.interprets (Scope.Whole.host.ne_base hstack) hstack hinvoke
  unfold interpret
  have hexecute {m : Machine} {i : Interpreter} {band fs : List FrameOutline} (h : m.Runs i.thread i band fs)
      (w : Window) : (m.advance i w).1.pace t = m.pace t := by
    have hconcludes : Concludes .host i.thread i fs m.outline (m.execute i w).1.outline (m.execute i w).2 := h.execute w
    exact (pace_conclude _ _).trans ((ends_execute _ _ _).pace_eq hconcludes t)
  obtain ⟨rfl, hstage⟩ | ⟨w, sequel, hstage, hsequel, hs⟩ := hcase
  · cases hown : i.stage with
    | entering =>
      obtain ⟨top, htop⟩ := h.exists_topFrame
      dsimp only
      rw [enter_eq htop]
      have hentered := h.replaceTop (.running ⟨top.closure, top.file, top.pc⟩)
      exact hexecute hentered.toRuns _
    | running w => exact hexecute h.toRuns w
    | waiting w sequel => exact absurd hown (hstage w sequel)
  · rw [hstage]
    cases hs with
    | @values vs hs =>
      subst hs
      have hconcludes : Concludes .host i.thread i fs m.outline (m.settle i w vs sequel).1.outline _ :=
        h.toRuns.settle w vs hsequel
      exact (pace_conclude _ _).trans ((ends_settle _ _ _ _ _).pace_eq hconcludes t)
    | error hs he =>
      subst hs
      have hconcludes : Concludes .host i.thread i fs m.outline (m.interrupted i (.error _) sequel).1.outline _ :=
        Runs.concludes_interrupted he sequel
      exact (pace_conclude _ _).trans ((ends_interrupted _ _ _ _).pace_eq hconcludes t)
    | yield hs hnative htakes =>
      subst hs
      have hconcludes : Concludes .host i.thread i fs m.outline (m.interrupted i (.error .yield) sequel).1.outline _ :=
        h.toRuns.interrupted_yield hnative hsequel htakes
      exact (pace_conclude _ _).trans ((ends_interrupted _ _ _ _).pace_eq hconcludes t)

end Interpreters

section Steps

variable (s : Signal)

@[simp]
theorem pace_stepEndCall (floor : Option Nat) (previous : Option Status) :
    (m.stepEndCall u floor previous s).1.pace t = m.pace t := by
  unfold stepEndCall
  extract_lets outcome unwound
  have hunwound : unwound.pace t = m.pace t := by
    dsimp only [unwound]
    generalize outcome = outcome
    cases outcome <;> cases floor <;> first | exact pace_unwind _ | rfl
  exact (pace_modifyThread unwound t u (by intro; rfl)).trans hunwound

@[simp]
theorem pace_stepStartedNative : (m.stepStartedNative u s).1.pace t = m.pace t := by
  unfold stepStartedNative
  split
  · exact (pace_modifyThread (m.takeYielded u).1 t u (by intro; rfl)).trans pace_takeYielded
  · rfl
  · rfl

@[simp]
theorem pace_stepEndResume (floor : Nat) : (m.stepEndResume u floor s).1.pace t = m.pace t := by
  unfold stepEndResume
  split <;> simp

@[simp]
theorem pace_stepResumed (previous : Status) (wrapped : Bool) :
    (m.stepResumed u previous wrapped s).1.pace t = m.pace t := by
  have hset : (m.setStatus u previous).pace t = m.pace t := pace_setStatus previous
  unfold stepResumed
  dsimp only
  split
  · exact hset
  · exact hset
  · exact hset
  · split
    · split <;> exact hset
    · exact hset
  · exact hset

/-- Work on a thread takes a signal, apart from interpreters. -/
theorem pace_resumeWork {a : Activation} (ha : a.IsSingle) (hinterpret : ∀ i, a ≠ .interpret i)
    (acts : List Activation) : (m.resumeWork a acts s).1.pace t = m.pace t := by
  cases a with
  | interpret i => exact absurd rfl (hinterpret i)
  | tick | groupSize | updateGroups => cases ha
  | endCall u floor previous held => exact pace_stepEndCall (m := { m with stack := acts }) s floor previous
  | startedNative u held => exact pace_stepStartedNative (m := { m with stack := acts }) s
  | endResume u floor held => exact pace_stepEndResume (m := { m with stack := acts }) s floor
  | protect => rfl
  | resumed u previous wrapped target => exact pace_stepResumed (m := { m with stack := acts }) s previous wrapped
  | forget | read => cases s <;> rfl
  | concat u left held =>
    cases s with
    | values vs => exact (upkeep_pace u t _).continueJoin rfl _ held
    | go | invoke | yielded | frameLimit | sleeping | error => rfl
  | print u shown args =>
    cases s with
    | values vs =>
      show pace (Prod.fst (stepPrint _ _ _ _ _)) t = _
      unfold stepPrint
      split
      · exact (upkeep_pace u t _).continuePrint rfl args _ _
      · rfl
    | go | invoke | yielded | frameLimit | sleeping | error => rfl

end Steps

/-- The innermost work is on a thread. -/
theorem isSingle_of_sound {s : Signal} {a : Activation} {acts : List Activation} (hsound : m.outline.Sound .host s)
    (hinvoke : ∀ u id args, s ≠ .invoke u id args) (hstack : m.stack = a :: acts) : a.IsSingle := by
  cases hsound with
  | atRest _ hback => exact absurd hback (Scope.Whole.host.ne_base hstack)
  | back hback =>
    rw [outline_stack, hstack] at hback
    cases hback
    trivial
  | @working u own below ts hown _ _ hready =>
    rw [outline_stack, hstack] at hown
    obtain ⟨b, own, rfl⟩ := List.exists_cons_of_ne_nil hready.ne_nil
    obtain ⟨rfl, -⟩ := List.cons.inj hown
    cases a with
    | tick | groupSize | updateGroups =>
      obtain ⟨hnot, -⟩ := hready.of_light trivial hinvoke
      cases hnot
    | _ => trivial

/-- A step keeps the pace of a thread at work, unless a native function makes it wait. -/
theorem pace_step {s : Signal} (hsound : m.outline.Sound .host s) (hrange : t.index < m.threads.size)
    (hbusy : m.isBusy t = true) (hlibrary : ∀ u id args, s = .invoke u id args →
      (m.native id).body.IsLibrary ∨ (m.native id).body = .host .nothing) :
    (m.step s).1.pace t = m.pace t ∨ ∃ u id args, s = .invoke u id args ∧ m.Waits (m.step s).1 t u (m.step s).2 := by
  by_cases hinvoke : ∃ u id args, s = .invoke u id args
  · obtain ⟨u, id, args, rfl⟩ := hinvoke
    exact (pace_invoke hrange hbusy (hlibrary u id args rfl) args).imp_right fun h => ⟨u, id, args, rfl, h⟩
  · have hnot (u : ThreadId) (id : NativeId) (args : Values) : s ≠ .invoke u id args :=
      fun heq => hinvoke ⟨u, id, args, heq⟩
    refine Or.inl ?_
    cases hstack : m.stack with
    | nil => rw [step_nil hstack hnot]
    | cons a acts =>
      rw [step_cons hstack hnot]
      have hsingle := isSingle_of_sound hsound hnot hstack
      by_cases hinterpret : ∃ i, a = .interpret i
      · obtain ⟨i, rfl⟩ := hinterpret
        exact pace_interpret (m := { m with inUse := [] }) hsound hstack hnot
      · exact pace_resumeWork s hsingle (fun i hi => hinterpret ⟨i, hi⟩) acts

end LuaMachine.Machine
