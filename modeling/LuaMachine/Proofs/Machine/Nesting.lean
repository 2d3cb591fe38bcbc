import LuaMachine.Proofs.Machine.Levels

namespace LuaMachine

theorem Site.Levels.append {c : Site} {fs : List Frame} {n : Nat} {new acts : List Activation}
    (h : c.Levels fs n acts) (hnew : ∀ a ∈ new, a.Apart c.thread) : c.Levels fs n (new ++ acts) := by
  induction new with
  | nil => exact h
  | cons a new ih => exact .apart (hnew a (by simp)) (ih fun b hb => hnew b (by simp [hb]))

/-- A signal that ends an interpreter before it has left its frames. -/
def Signal.CutsOff : Signal → Prop
  | .error _ => True
  | .frameLimit => True
  | .yielded _ => True
  | _ => False

namespace Machine

variable {m m' : Machine} {c : Site} {u v : ThreadId} {fs : List Frame} {acts : List Activation}

/-- The work `acts` above a place of the stack finds the frames `fs` of the thread as it expects them. -/
structure LeveledAt (m : Machine) (c : Site) (fs : List Frame) (acts : List Activation) : Prop where
  levels : c.Levels fs (m.thread c.thread).nativeDepth acts
  range : c.thread.index < m.threads.size
  /-- Nobody schedules the thread while native code waits for it. -/
  schedule : 0 < c.before.nativeDepth → c.before.SameSchedule (m.thread c.thread)
  natives : ∀ n ∈ m.natives, n ∈ c.natives ∨ n.body.IsLibrary

namespace LeveledAt

theorem congr (h : m.LeveledAt c fs acts) (hsize : m.threads.size ≤ m'.threads.size)
    (hnative : (m'.thread c.thread).nativeDepth = (m.thread c.thread).nativeDepth)
    (hschedule : (m.thread c.thread).SameSchedule (m'.thread c.thread)) (hnatives : m'.natives = m.natives) :
    m'.LeveledAt c fs acts :=
  ⟨by rw [hnative]; exact h.levels, Nat.lt_of_lt_of_le h.range hsize, fun hpos => (h.schedule hpos).trans hschedule,
    by rw [hnatives]; exact h.natives⟩

theorem keeps (h : m.LeveledAt c fs acts) {gs : List Frame} (hconfined : m.Confined m' c.thread)
    (hkept : Thread.Keeps gs (m.thread c.thread) (m'.thread c.thread)) : m'.LeveledAt c fs acts := by
  refine h.congr (Nat.le_of_eq hconfined.size.symm) ?_ hkept.sameSchedule hconfined.natives
  rw [hkept.rest]

theorem retains (h : m.LeveledAt c fs acts) (hretains : m.Retains m' c.thread) : m'.LeveledAt c fs acts := by
  refine h.congr (Nat.le_of_eq hretains.size.symm) ?_ ?_ hretains.natives
  · rw [hretains.own.rest]
  · rw [hretains.own.rest]
    exact ⟨rfl, rfl, rfl, rfl, rfl⟩

theorem spares (h : m.LeveledAt c fs acts) (hspares : m.Spares m' c.thread) : m'.LeveledAt c fs acts := by
  have hthread := hspares.thread h.range
  refine ⟨?_, Nat.lt_of_lt_of_le h.range hspares.size, ?_, fun n hn => ?_⟩
  · rw [hthread]
    exact h.levels
  · rw [hthread]
    exact h.schedule
  · obtain hold | hnew := hspares.natives n hn
    · exact h.natives n hold
    · exact Or.inr hnew

/-- A change of status is nothing to the frames. -/
theorem setStatus (h : m.LeveledAt c fs acts) (u : ThreadId) (status : Status) :
    (m.setStatus u status).LeveledAt c fs acts := by
  have hsize : (m.setStatus u status).threads.size = m.threads.size := (m.confined_modifyThread u _).size
  obtain hsame | hchanged := m.thread_modifyThread_cases u (fun th => { th with status }) c.thread
  · refine h.congr (Nat.le_of_eq hsize.symm) (by rw [Machine.setStatus, hsame]) ?_ rfl
    rw [Machine.setStatus, hsame]
    exact ⟨rfl, rfl, rfl, rfl, rfl⟩
  · refine h.congr (Nat.le_of_eq hsize.symm) (by rw [Machine.setStatus, hchanged]) ?_ rfl
    rw [Machine.setStatus, hchanged]
    exact ⟨rfl, rfl, rfl, rfl, rfl⟩

end LeveledAt

/-- The thread has the frames that the innermost work expects. -/
def AtLevel (m : Machine) (c : Site) : Prop := m.LeveledAt c (m.thread c.thread).frames m.stack

theorem frames_setStatus (m : Machine) (u v : ThreadId) (status : Status) :
    ((m.setStatus u status).thread v).frames = (m.thread v).frames := by
  obtain hsame | hchanged := m.thread_modifyThread_cases u (fun th => { th with status }) v
  · rw [setStatus, hsame]
  · rw [setStatus, hchanged]

/-- An interpreter of the thread runs the frame `f` and those of `rest` that are above `fs`. -/
structure RunsAbove (m : Machine) (c : Site) (i : Interpreter) (f : Frame) (rest fs : List Frame)
    (acts : List Activation) : Prop where
  stack : m.stack = .interpret i :: acts
  thread : i.thread = c.thread
  frames : (m.thread c.thread).frames = f :: rest
  suffix : fs <:+ rest
  limit : i.limit = none ∨ i.limit = c.limit
  floor : i.floor = fs.length
  cuts : CutsBack c.thread acts
  below : m.LeveledAt c fs acts

/-- How the frames of the thread are while work above a place of the stack goes on with a signal. -/
inductive Nests (c : Site) (m : Machine) : Signal → Prop
  /-- They are as the innermost work expects them. -/
  | level {s : Signal} (h : m.AtLevel c) : Nests c m s
  /-- An interpreter of the thread is about to run an instruction. -/
  | runs {i : Interpreter} {f : Frame} {rest fs : List Frame} {acts : List Activation}
      (h : m.RunsAbove c i f rest fs acts) (hstage : ∀ w sequel, i.stage ≠ .waiting w sequel)
      (hcode : ∀ w ∈ i.stage.window?, f.code = (w.closure, w.file)) : Nests c m .go
  /-- An interpreter of the thread has left some frames on top. -/
  | leaves {s : Signal} {fs : List Frame} (hframes : fs <:+ (m.thread c.thread).frames)
      (hcuts : CutsBack c.thread m.stack) (hs : s.CutsOff) (h : m.LeveledAt c fs m.stack) : Nests c m s

theorem Nests.suffix {s : Signal} (h : m.Nests c s) : c.bottom <:+ m.stack := by
  cases h with
  | level h => exact h.levels.suffix
  | runs h =>
    rw [h.stack]
    exact h.below.levels.suffix.trans (List.suffix_cons _ _)
  | leaves _ _ _ h => exact h.levels.suffix

/-- The counter of the thread's frames is exact. -/
def Counts (m : Machine) (t : ThreadId) : Prop := (m.thread t).depth = (m.thread t).frames.length

namespace AtLevel

theorem adds (h : m.AtLevel c) (hadds : m.Adds m' c.thread) : m'.AtLevel c := by
  obtain ⟨new, hstack, hnew⟩ := hadds.stack
  have hlater := h.spares hadds.toSpares
  unfold AtLevel
  rw [hadds.thread h.range, hstack]
  exact ⟨hlater.levels.append hnew, hlater.range, hlater.schedule, hlater.natives⟩

theorem retains (h : m.AtLevel c) (hretains : m.Retains m' c.thread)
    (hframes : (m'.thread c.thread).frames = (m.thread c.thread).frames) : m'.AtLevel c := by
  unfold AtLevel
  rw [hframes, hretains.stack]
  exact LeveledAt.retains h hretains

theorem push (h : m.AtLevel c) {a : Activation} (ha : a.Apart c.thread) : (m.push a).AtLevel c :=
  h.adds ((Adds.refl m _).push ha)

theorem setStatus (h : m.AtLevel c) (u : ThreadId) (status : Status) : (m.setStatus u status).AtLevel c := by
  unfold AtLevel
  rw [frames_setStatus]
  exact LeveledAt.setStatus h u status

theorem busy (h : m.AtLevel c) : m.isBusy c.thread = true := h.levels.busy

section Calls

/-- A call from native code on the thread puts its end on the stack, which finds the frames as they are. -/
theorem called (h : m.AtLevel c) {f : Thread → Thread} (hf : (f (m.thread c.thread)).nativeDepth =
      (m.thread c.thread).nativeDepth + 1) (hschedule : (m.thread c.thread).SameSchedule (f (m.thread c.thread)))
    {floor : Option Nat} (hfloor : ∀ k ∈ floor, k = (m.thread c.thread).frames.length) (previous : Option Status)
    (held : Values) : ((m.modifyThread c.thread f).push (.endCall c.thread floor previous held)).LeveledAt c
      (m.thread c.thread).frames (.endCall c.thread floor previous held :: m.stack) := by
  have hthread : ((m.modifyThread c.thread f).push (.endCall c.thread floor previous held)).thread c.thread =
      f (m.thread c.thread) := thread_modifyThread h.range f
  refine ⟨?_, ?_, ?_, h.natives⟩
  · rw [hthread, hf]
    exact .call hfloor h.levels
  · exact Nat.lt_of_lt_of_eq h.range (m.confined_modifyThread c.thread f).size.symm
  · rw [hthread]
    exact fun hpos => (h.schedule hpos).trans hschedule

/-- A call from native code on the thread, whose end is on the stack, enters a closure. -/
theorem enterClosure (h : m.AtLevel c) (hcuts : CutsBack c.thread m.stack) {floor : Nat}
    (hfloor : floor = (m.thread c.thread).frames.length) {id : ClosureId} {args : Values} {s : Signal}
    (hentered : m.pushFrame c.thread id args .host = (m', s)) :
    s = .go ∧ (m'.push (.interpret ⟨c.thread, floor, none, .entering⟩)).Nests c .go ∨
      (∃ e, s = .error e) ∧ m'.AtLevel c := by
  obtain ⟨rfl, hconfined, hframe⟩ | ⟨he, hkept, hthreads⟩ := (Retains.refl m c.thread).pushFrame hentered
  · obtain ⟨frame, hafter⟩ := hframe h.range
    refine Or.inl ⟨rfl, .runs ⟨rfl, rfl, congrArg Thread.frames hafter, List.suffix_refl _, Or.inl rfl, hfloor, ?_, ?_⟩
      (by rintro _ _ ⟨⟩) (by rintro _ ⟨⟩)⟩
    · rw [hconfined.stack]
      exact hcuts
    · have hsame : m'.LeveledAt c (m.thread c.thread).frames m'.stack := by
        rw [hconfined.stack]
        have hkept : Thread.Keeps [] (m.thread c.thread) (m'.thread c.thread) := by
          rw [hafter]
          exact ⟨List.nil_suffix, rfl⟩
        exact LeveledAt.keeps h hconfined hkept
      exact hsame.spares (.of_eq rfl rfl)
  · exact Or.inr ⟨he, h.retains hkept (by rw [thread, hthreads, thread])⟩

/-- A call from native code begins, on the thread or on another one. -/
theorem beginCall (h : m.AtLevel c) (hcount : m.Counts c.thread) (u : ThreadId) (f : Value) (args held : Values) :
    (m.beginCall u f args held).1.Nests c (m.beginCall u f args held).2 := by
  by_cases hu : u = c.thread
  · subst hu
    unfold Machine.beginCall
    extract_lets th idle previous begun floor pushed
    split
    · exact .level h
    split
    · exact .level h
    rename_i callee args' _
    have hthread : begun.thread c.thread = _ := thread_modifyThread h.range _
    have hframes : (begun.thread c.thread).frames = (m.thread c.thread).frames := by rw [hthread]
    have hcalled {floor : Option Nat} (hfloor : ∀ k ∈ floor, k = (m.thread c.thread).frames.length)
        (held : Values) : (begun.push (.endCall c.thread floor previous held)).AtLevel c := by
      have hlevel := h.called (f := fun th => { th with
        status := if idle then .running else th.status
        instructions := if idle then 0 else th.instructions
        nativeDepth := th.nativeDepth + 1 }) rfl ⟨rfl, rfl, rfl, rfl, rfl⟩ hfloor previous held
      rw [← hframes] at hlevel
      exact hlevel
    cases callee with
    | native id => exact .level (hcalled (by rintro _ ⟨⟩) _)
    | closure id =>
      have hfloor : floor = (m.thread c.thread).frames.length := by
        show (begun.thread c.thread).depth = _
        rw [hthread]
        exact hcount
      have hat : pushed.AtLevel c := hcalled (by rintro _ ⟨⟩; exact hfloor) _
      dsimp only
      cases hentered : pushed.pushFrame c.thread id args' .host with | mk m' s =>
      obtain ⟨rfl, hnests⟩ | ⟨⟨e, rfl⟩, hlevel⟩ :=
        hat.enterClosure .call (hfloor.trans (by rw [← hframes]; rfl)) hentered
      · exact hnests
      · exact .level hlevel
  · have hcalled : m.Adds (m.called u) c.thread := (Adds.refl m _).modifyThread (Ne.symm hu) _
    exact .level (h.adds ((Adds.entering m (Ne.symm hu)).beginCall (fun _ => .refl m _) (fun _ _ => hcalled.push hu)
      f args held))

end Calls

section Natives

/-- A thread that native code waits for does not yield. -/
theorem schedules (h : m.AtLevel c) {f : Thread → Thread} (hframes : ∀ th, (f th).frames = th.frames)
    (hnative : ∀ th, (f th).nativeDepth = th.nativeDepth)
    (hpos : u = c.thread → (m.thread c.thread).nativeDepth = 0) : (m.modifyThread u f).AtLevel c := by
  by_cases hu : u = c.thread
  · subst hu
    have hthread : (m.modifyThread c.thread f).thread c.thread = f (m.thread c.thread) := thread_modifyThread h.range f
    have hzero : c.before.nativeDepth = 0 := Nat.le_zero.mp ((hpos rfl) ▸ h.levels.native_le)
    refine ⟨?_, ?_, fun hwaits => absurd hzero (Nat.ne_of_gt hwaits), h.natives⟩
    · rw [hthread, hframes, hnative]
      exact h.levels
    · exact Nat.lt_of_lt_of_eq h.range (m.confined_modifyThread c.thread f).size.symm
  · exact h.adds ((Adds.refl m _).modifyThread (Ne.symm hu) f)

/-- A thread yields only if no native code waits for it. -/
theorem yieldNow (h : m.AtLevel c) (u : ThreadId) (vs : Values) : (m.yieldNow u vs).1.AtLevel c ∧
    ((m.yieldNow u vs).2 = .error .yield → ((m.yieldNow u vs).1.thread u).nativeDepth = 0) := by
  unfold Machine.yieldNow
  dsimp only
  split
  · exact ⟨h, by rintro ⟨⟩⟩
  · split
    · exact ⟨h, by rintro ⟨⟩⟩
    · rename_i hfree
      have hzero : (m.thread u).nativeDepth = 0 := Nat.le_zero.mp (Nat.not_lt.mp hfree)
      refine ⟨h.schedules (fun _ => rfl) (fun _ => rfl) (by rintro rfl; exact hzero), fun _ => ?_⟩
      obtain hsame | hchanged := m.thread_modifyThread_cases u (fun th => { th with yielded := vs }) u
      · rw [hsame]
        exact hzero
      · rw [hchanged]
        exact hzero

/-- A thread resumes another one. -/
theorem beginResumeFrom (h : m.AtLevel c) (u target : ThreadId) (wrapped : Bool) (args : Values) :
    (m.beginResumeFrom u target wrapped args).1.AtLevel c := by
  unfold Machine.beginResumeFrom
  extract_lets previous pushed
  have hpushed : pushed.AtLevel c := h.push trivial
  split
  · exact hpushed
  · rename_i hfree
    have hne : c.thread ≠ target := by
      rintro rfl
      exact hfree (Or.inr hpushed.busy)
    exact (hpushed.setStatus u .normal).adds ((Adds.refl _ _).beginResume hne args)

theorem newThread (h : m.AtLevel c) (f : Value) (args : Values) : (m.newThread f args).1.AtLevel c :=
  h.adds (.of_spares (m.spares_newThread c.thread f args) rfl)

theorem addNative (h : m.AtLevel c) {native : Native} (hnative : native.body.IsLibrary) :
    (m.addNative native).1.AtLevel c :=
  h.adds (.of_spares (m.spares_addNative c.thread hnative) rfl)

/-- What a thread does for itself leaves the frames at their levels, whether it is the thread that waits or not. -/
theorem upkeep (c : Site) (u : ThreadId) :
    Upkeep u (fun m => m.AtLevel c ∧ m.Counts c.thread) fun m s => m.Nests c s where
  answers h _ := .level h.1
  edits _ _ _ h := ⟨h.1.adds (.of_spares (.of_eq rfl rfl) rfl), h.2⟩
  names _ h := ⟨h.1.addNative trivial, h.2⟩
  begins h ha := ⟨h.1.push (ha.apart c.thread), h.2⟩
  calls f args held h := h.1.beginCall h.2 u f args held

theorem coroutineEffect (h : m.AtLevel c) {args : Values} {effect : Effect} (heffect : CoroutineEffect u args effect) :
    (effect m).1.Nests c (effect m).2 := by
  cases heffect with
  | answer => exact .level h
  | create f => exact .level (h.newThread f [])
  | wrap f => exact .level ((h.newThread f []).addNative trivial)
  | resume target => exact .level (h.beginResumeFrom u target false _)
  | yield => exact .level (h.yieldNow u args).1
  | wait ticks =>
    obtain ⟨hyielded, hfree⟩ := h.yieldNow u []
    dsimp only
    split
    · rename_i heq
      rw [heq] at hyielded hfree
      refine .level (hyielded.schedules (fun _ => rfl) (fun _ => rfl) ?_)
      rintro rfl
      exact hfree rfl
    · exact .level hyielded

theorem spawn (h : m.AtLevel c) (f : Value) (args : Values) (g : GroupId) :
    ((m.newThread f args).1.addToGroup g (m.newThread f args).2).AtLevel c := by
  have hnew := m.spares_newThread c.thread f args
  refine h.adds ((Adds.of_spares hnew rfl).addToGroup ?_ g)
  intro heq
  have hrange := h.range
  rw [heq] at hrange
  exact Nat.lt_irrefl _ hrange

/-- A native function of the library is invoked, or one that does nothing. -/
theorem invoke (h : m.AtLevel c) (hcount : m.Counts c.thread) (u : ThreadId) {id : NativeId}
    (hlibrary : (m.native id).body.IsLibrary ∨ (m.native id).body = .host .nothing) (args : Values) :
    (m.invoke u id args).1.Nests c (m.invoke u id args).2 := by
  have hcalled : ({ m with inUse := args } : Machine).AtLevel c := h.adds (.of_spares (.of_eq rfl rfl) rfl)
  refine invoke_of_checked (Q := fun m s => m.Nests c s) ?_ fun _ _ => .level hcalled
  cases hbody : (m.native id).body with
  | base f => exact (checked_base _ u f args).imp fun _ => (upkeep c u).baseEffect ⟨hcalled, hcount⟩
  | coroutine f => exact (checked_coroutine _ u f args).imp fun _ => hcalled.coroutineEffect
  | wrapped target => exact .level (hcalled.beginResumeFrom u target true args)
  | spawn name =>
    refine (checked_requireArg _ u args 1 _).bind fun f _ => ?_
    exact .level (hcalled.spawn f _ _)
  | host op =>
    obtain hnot | hop := hbody ▸ hlibrary
    · cases hnot
    · cases hop
      exact .level hcalled
  | group =>
    obtain hnot | hop := hbody ▸ hlibrary
    · cases hnot
    · cases hop

end Natives

end AtLevel

end Machine

end LuaMachine
