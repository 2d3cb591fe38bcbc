import LuaMachine.Proofs.Machine.Resumption

namespace LuaMachine

/-- Above the place of a resume there is no interpreter at first. -/
theorem Site.IsResume.ne_bottom {m : Machine} {c : Site} {t : ThreadId} {limit : Option Nat} {i : Interpreter}
    {acts : List Activation} (hc : c.IsResume t limit) (hstack : m.stack = .interpret i :: acts) :
    m.stack ≠ c.bottom := by
  obtain ⟨floor, held, -, hends | ⟨f, hstarted⟩⟩ := hc.bottom
  · rw [hstack, hends]
    rintro ⟨⟩
  · rw [hstack, hstarted]
    rintro ⟨⟩

namespace Machine

variable {m n : Machine} {t u : ThreadId} {limit : Option Nat} {s : Signal} {i j : Interpreter} {w : Window}

section Threads

theorem modifyThread_modifyThread (m : Machine) (u : ThreadId) (f g : Thread → Thread) :
    (m.modifyThread u f).modifyThread u g = m.modifyThread u (g ∘ f) := by
  have hmodified : modifyAt (modifyAt m.threads u.index f) u.index g = modifyAt m.threads u.index (g ∘ f) := by
    apply Array.ext_getElem?
    intro k
    simp only [modifyAt, Array.getElem?_modify]
    split
    · rw [Option.map_map]
    · rfl
  rw [modifyThread, modifyThread, modifyThread]
  exact congrArg (fun threads => { m with threads }) hmodified

/-- Changes that agree on a thread, but for its count, are alike. -/
theorem bare_modifyThread_of_eq {f g : Thread → Thread} (h : (f (m.thread u)).bare = (g (m.thread u)).bare) :
    (m.modifyThread u f).bare t = (m.modifyThread u g).bare t := by
  have hmodified : (modifyAt m.threads u.index f).map Thread.bare = (modifyAt m.threads u.index g).map Thread.bare := by
    apply Array.ext_getElem?
    intro k
    simp only [modifyAt, Array.getElem?_map, Array.getElem?_modify]
    split
    · rename_i hk
      subst hk
      cases hget : m.threads[u.index]? with
      | none => rfl
      | some th =>
        rw [thread, hget] at h
        exact congrArg some h
    · rfl
  rw [bare, bare]
  exact congrArg (fun threads => { m with threads, stack := m.stack.map (Activation.bare t) }) hmodified

end Threads

/-- An interpreter runs all frames of the thread in a resume by the host, and is about to run the instruction at `w`. -/
structure Foremost (m : Machine) (t : ThreadId) (i : Interpreter) (w : Window) : Prop where
  reads : ∃ floor held, Values.objects held = [] ∧ m.Reads i w [.endResume t floor held]
  thread : i.thread = t
  floor : i.floor = 0
  range : t.index < m.threads.size
  frames : ∃ f rest, (m.thread t).frames = f :: rest ∧ f.pending = none ∧ f.code = (w.closure, w.file)
  status : (m.thread t).status = .running
  start : (m.thread t).start = none
  hostReturn : (m.thread t).hostReturnPending = false
  awake : (m.thread t).sleep = 0

/-- In a resume an interpreter of its own alone has a limit. -/
theorem Nests.thread_of_limit {c : Site} {acts : List Activation} (h : m.Nests c .go) (hc : c.IsResume t limit)
    (hstack : m.stack = .interpret i :: acts) (hlimited : i.limit ≠ none) : i.thread = t := by
  have hne := hc.ne_bottom hstack
  by_cases hthread : i.thread = c.thread
  · rw [hthread, hc.thread]
  · have hlevel : m.AtLevel c := by
      cases h with
      | level h => exact h
      | runs h =>
        rw [h.stack] at hstack
        cases hstack
        exact absurd h.thread hthread
      | leaves _ _ hs => cases hs
    obtain ⟨hapart, -⟩ := hlevel.below_of_apart hstack hne (by rintro _ _ _ ⟨⟩) (by rintro _ ⟨⟩; exact hthread)
    exact absurd hapart.2 hlimited

/-- A resume meets its limit with an instruction of its own interpreter, and with no other work left to do. -/
theorem InResume.of_frameLimit (h : m.InResume t limit s)
    (hworks : ∀ floor held acts, m.stack ≠ .endResume t floor held :: acts) (hmeets : (m.step s).2 = .frameLimit) :
    ∃ i w, s = .go ∧ m.Foremost t i w ∧ ((m.reading i w).fetch i w).2.Pauses ∧ limit ≠ none := by
  obtain ⟨i, w, acts, rfl, hreads, hstops⟩ :=
    (step_pauses h.sound h.fuse h.isLibrary h.unstopped (by rw [hmeets]; trivial)).resolve_right (by
      rintro ⟨vs, hyields, -⟩
      rw [hmeets] at hyields
      cases hyields)
  have hinvoke (u : ThreadId) (id : NativeId) (args : Values) : Signal.go ≠ .invoke u id args := by rintro ⟨⟩
  have hstage (w' : Window) (sequel : Sequel) : i.stage ≠ .waiting w' sequel := by
    rcases hreads.stage with hstage | ⟨hstage, -⟩ <;> rw [hstage] <;> rintro ⟨⟩
  obtain ⟨hlimited, -⟩ := fetch_pauses (t := t) hstops
  obtain ⟨c, hc, hnests⟩ := h.exists_nests hworks
  obtain rfl := hnests.thread_of_limit hc hreads.stack hlimited
  obtain ⟨band, fs, own, below, ts, hinterprets, -⟩ :=
    h.sound.interprets (Scope.Whole.host.ne_base hreads.stack) hreads.stack hinvoke
  -- What is below an interpreter with a limit is the end of the resume, and nothing else.
  obtain ⟨floor, held, own', hown⟩ : ∃ floor held own', own = .endResume i.thread floor held :: own' := by
    cases hinterprets.stands with
    | onResume => exact ⟨_, _, _, rfl⟩
    | onCall _ hnone => exact absurd hnone hlimited
  have hacts : acts = .endResume i.thread floor held :: (own' ++ below) := by
    have htail := hinterprets.stack
    rw [hreads.stack, hown] at htail
    exact htail
  obtain ⟨-, -, -, hfloor, hstarts, hhost, -⟩ := hinterprets.of_endResume (by rw [hreads.stack]; exact hacts)
  obtain ⟨f, rest, gs, hruns, hcode⟩ :=
    hnests.runsAbove_of_go hreads.stack (hc.ne_bottom hreads.stack) hc.thread.symm hstage
  have hbelow := hruns.below.levels
  rw [hacts] at hbelow
  obtain ⟨hnil, hplain⟩ := hbelow.of_endResume hc
  rw [hnil] at hacts
  obtain rfl := hacts
  have hframes : (m.thread i.thread).frames = f :: rest := by
    rw [← hruns.frames, hc.thread]
  refine ⟨i, w, rfl, ⟨⟨floor, held, hplain, hreads⟩, rfl, hfloor, h.range, ⟨f, rest, hframes, ?_, ?_⟩, ?_, ?_, ?_, ?_⟩,
    hstops, ?_⟩
  · obtain ⟨g, rest', -, hpending, hown⟩ := hinterprets.exists_cons
    rw [← map_outline_frames, hframes] at hown
    obtain ⟨rfl, -⟩ := List.cons.inj hown
    exact hpending
  · rcases hreads.stage with hrunning | ⟨-, top, htop, rfl⟩
    · exact hcode w (by rw [hrunning]; rfl)
    · rw [topFrame?, hframes] at htop
      cases htop
      rfl
  · have hstatus := hinterprets.status
    rw [outline_thread] at hstatus
    exact hstatus
  · rw [outline_thread] at hstarts
    exact Option.isNone_iff_eq_none.mp (by simpa [Thread.outline] using hstarts)
  · rw [outline_thread] at hhost
    exact hhost
  · obtain hawake | ⟨⟨⟩, -⟩ | hlength := h.awake
    · exact hawake
    · rw [hreads.stack] at hlength
      exact absurd hlength (by simp)
  · rintro rfl
    obtain hnone | hsome := hruns.limit
    · exact hlimited hnone
    · exact hlimited (hsome.trans hc.limit)

section Stopping

/-- A machine whose thread `t` was stopped in front of the instruction at `w` when its resume met the limit. -/
def stopped (m : Machine) (t : ThreadId) (w : Window) : Machine :=
  { m.modifyThread t fun th => { th.movedTo w.pc with status := .suspended } with stack := [], inUse := [] }

/-- The machine when another resume, with other arguments, has just begun to go on from there. -/
def continued (m : Machine) (t : ThreadId) (w : Window) (limit : Option Nat) (args : Values) : Machine :=
  { (m.stopped t w).modifyThread t fun th => { th with status := .running, instructions := 0 } with
    stack := [.interpret ⟨t, 0, limit, .entering⟩, .endResume t (m.thread t).depth args] }

theorem modifyThread_reading (m : Machine) (i : Interpreter) (w : Window) (u : ThreadId) (f : Thread → Thread) :
    (m.reading i w).modifyThread u f = { m.modifyThread u f with
      stack := .interpret { i with stage := .running w } :: m.stack.tail
      inUse := [] } := rfl

theorem reading_continued (m : Machine) (t : ThreadId) (w : Window) (limit : Option Nat) (args : Values)
    (f : Thread → Thread) : ((m.continued t w limit args).reading ⟨t, 0, limit, .entering⟩ w).modifyThread t f =
      { ((m.modifyThread t fun th => { th.movedTo w.pc with status := .suspended }).modifyThread t
          fun th => { th with status := .running, instructions := 0 }).modifyThread t f with
        stack := [.interpret ⟨t, 0, limit, .running w⟩, .endResume t (m.thread t).depth args]
        inUse := [] } := modifyThread_reading (m.continued t w limit args) ⟨t, 0, limit, .entering⟩ w t f

theorem bare_withStack (m : Machine) (stack : List Activation) : ({ m with stack, inUse := [] } : Machine).bare t =
    { m.bare t with stack := stack.map (Activation.bare t), inUse := [] } := rfl

variable (h : m.Foremost t i w)
include h

/-- The instruction stops, and the resume ends. -/
theorem Foremost.stops (hfuse : m.limits.fuse = none) (hstops : ((m.reading i w).fetch i w).2.Pauses) :
    (m.step .go).2 = .frameLimit ∧ (∃ floor held, (m.step .go).1.stack = [.endResume t floor held]) ∧
      (m.step .go).1.step .frameLimit = (m.stopped t w, .frameLimit) := by
  obtain ⟨floor, held, hplain, hreads⟩ := h.reads
  have hstep := hreads.step_eq_of_pauses hfuse hstops
  have hstack : (m.step .go).1.stack = [.endResume t floor held] := by
    rw [hstep]
    show m.stack.tail = _
    rw [hreads.stack]
    rfl
  refine ⟨by rw [hstep], ⟨floor, held, hstack⟩, ?_⟩
  obtain rfl := h.thread
  have hmoved : ((m.modifyThread i.thread (·.movedTo (w.pc + 1))).setPc i.thread w.pc).setStatus i.thread .suspended =
      m.modifyThread i.thread fun th => { th.movedTo w.pc with status := .suspended } := by
    simp only [setPc, modifyTop, setStatus, modifyThread_modifyThread]
    congr
    funext th
    rcases th with ⟨_, _, _ | ⟨top, rest⟩, _, _, _, _, _, _, _⟩ <;> rfl
  rw [step_cons hstack (by rintro _ _ _ ⟨⟩), hstep]
  exact congrArg (fun m : Machine => ({ m with stack := [], inUse := [] }, Signal.frameLimit)) hmoved

theorem Foremost.thread_stopped : ∃ f rest, (m.thread t).frames = f :: rest ∧ f.pending = none ∧
    f.code = (w.closure, w.file) ∧ (m.stopped t w).thread t = { m.thread t with
      status := .suspended
      frames := { f with pc := w.pc } :: rest
      instructions := (m.thread t).instructions + 1 } := by
  obtain ⟨f, rest, hframes, hpending, hcode⟩ := h.frames
  refine ⟨f, rest, hframes, hpending, hcode, (thread_modifyThread (m := m) h.range _).trans ?_⟩
  rcases hown : m.thread t with ⟨_, _, frames, _, _, _, _, _, _, _⟩
  rw [hown] at hframes
  dsimp only at hframes
  subst hframes
  rfl

/-- The thread goes on, whatever it is given. -/
theorem Foremost.beginResume_stopped (budget : Option Nat) (args : Values) : (m.stopped t w).beginResume t budget args =
    (m.continued t w (frameLimit (m.thread t).depth budget) args, .go) := by
  obtain ⟨f, rest, -, hpending, -, hthread⟩ := h.thread_stopped
  have hstatus : ((m.stopped t w).thread t).status = .suspended := by rw [hthread]
  have hawake : ¬0 < ((m.stopped t w).thread t).sleep := by
    rw [hthread, h.awake]
    exact Nat.lt_irrefl 0
  have hdepth : ((m.stopped t w).thread t).depth = (m.thread t).depth := by rw [hthread]
  have hrange : t.index < (m.stopped t w).threads.size :=
    Nat.lt_of_lt_of_eq h.range (m.confined_modifyThread t _).size.symm
  set running := (m.stopped t w).modifyThread t fun th =>
    { th with status := .running, instructions := 0 } with hrunning
  have hthread' : running.thread t = { (m.stopped t w).thread t with status := .running, instructions := 0 } :=
    thread_modifyThread hrange _
  rw [hthread] at hthread'
  have hstart : (running.thread t).start = none := by
    rw [hthread']
    exact h.start
  have hhost : (running.thread t).hostReturnPending = false := by
    rw [hthread']
    exact h.hostReturn
  have hhead : (running.thread t).frames.head? = some { f with pc := w.pc } := by rw [hthread']; rfl
  have hnone : ({ f with pc := w.pc } : Frame).pending.isNone = true := by
    rw [hpending]
    rfl
  unfold beginResume
  dsimp only
  rw [if_neg hawake, hstatus, hdepth]
  show running.beginResumed t (m.thread t).depth (frameLimit (m.thread t).depth budget) args = _
  unfold beginResumed
  dsimp only
  rw [hstart, hhost, hhead]
  dsimp only
  rw [if_pos hnone]
  rfl

theorem Foremost.continued (limit : Option Nat) {args : Values} (hplain : Values.objects args = []) :
    (m.continued t w limit args).Foremost t ⟨t, 0, limit, .entering⟩ w := by
  obtain ⟨f, rest, -, hpending, hcode, hthread⟩ := h.thread_stopped
  have hrange : t.index < (m.stopped t w).threads.size :=
    Nat.lt_of_lt_of_eq h.range (m.confined_modifyThread t _).size.symm
  have hthread' : (m.continued t w limit args).thread t =
      { (m.stopped t w).thread t with status := .running, instructions := 0 } :=
    thread_modifyThread hrange _
  rw [hthread] at hthread'
  have hframes : ((m.continued t w limit args).thread t).frames = { f with pc := w.pc } :: rest := by rw [hthread']
  have htop : (m.continued t w limit args).topFrame? t = some { f with pc := w.pc } := by
    rw [topFrame?, hframes]
    rfl
  have hwindow : w = ⟨f.closure, f.file, w.pc⟩ := by
    obtain ⟨hclosure, hfile⟩ := Prod.mk.inj hcode
    rw [hclosure, hfile]
  exact ⟨⟨_, args, hplain, rfl, Or.inr ⟨rfl, _, htop, hwindow⟩⟩, rfl, rfl,
    Nat.lt_of_lt_of_eq hrange ((m.stopped t w).confined_modifyThread t _).size.symm,
    ⟨_, rest, hframes, hpending, hcode⟩, by rw [hthread'], by rw [hthread']; exact h.start,
    by rw [hthread']; exact h.hostReturn, by rw [hthread']; exact h.awake⟩

/-- Once the frame has moved behind the instruction again, nothing tells the machine that went on from the one that
was stopped, had it not been. -/
theorem Foremost.bare_continued (limit : Option Nat) {args : Values} (hplain : Values.objects args = []) :
    (((m.continued t w limit args).reading ⟨t, 0, limit, .entering⟩ w).modifyThread t (·.movedTo (w.pc + 1))).bare t =
      ((m.reading i w).modifyThread t (·.movedTo (w.pc + 1))).bare t := by
  obtain ⟨floor, held, hheld, hreads⟩ := h.reads
  obtain ⟨f, rest, hframes, -⟩ := h.frames
  obtain rfl := h.thread
  have hmoved : (((m.modifyThread i.thread
          fun th => { th.movedTo w.pc with status := .suspended }).modifyThread i.thread
        fun th => { th with status := .running, instructions := 0 }).modifyThread i.thread
          (·.movedTo (w.pc + 1))).bare i.thread = (m.modifyThread i.thread (·.movedTo (w.pc + 1))).bare i.thread := by
    rw [modifyThread_modifyThread, modifyThread_modifyThread]
    refine bare_modifyThread_of_eq ?_
    have hstatus := h.status
    rcases hown : m.thread i.thread with ⟨_, status, frames, _, _, _, _, _, _, _⟩
    rw [hown] at hframes hstatus
    dsimp only at hframes hstatus
    subst hframes hstatus
    rfl
  have hstacks : [Activation.interpret ⟨i.thread, 0, limit, .running w⟩,
        .endResume i.thread (m.thread i.thread).depth args].map (Activation.bare i.thread) =
      (Activation.interpret { i with stage := .running w } :: m.stack.tail).map (Activation.bare i.thread) := by
    have hzero := h.floor
    rw [hreads.stack]
    obtain ⟨u, floor', limit', stage⟩ := i
    subst hzero
    simp [hplain, hheld, Activation.bare, Interpreter.bare]
  rw [reading_continued, modifyThread_reading, bare_withStack, bare_withStack, hmoved, hstacks]

end Stopping

section Continuing

/-- Interpreters that differ in their limits, which they do not meet, go on alike once the frame has moved on. -/
theorem bareOf_advance_of_moved
    (h : (m.modifyThread i.thread (·.movedTo (w.pc + 1))).bare t =
      (n.modifyThread i.thread (·.movedTo (w.pc + 1))).bare t)
    (hfuse : m.limits.fuse = none) (limit : Option Nat) {word : Instruction}
    (hword : (m.closure w.closure).proto.code[w.pc]? = some word) (hframes : (m.thread i.thread).frames.isEmpty = false)
    (hframes' : (n.thread i.thread).frames.isEmpty = false)
    (hm : (m.fetch i w).2 ≠ .stop .frameLimit) (hn : (n.fetch { i with limit } w).2 ≠ .stop .frameLimit) :
    bareOf t (m.advance i w) = bareOf t (n.advance { i with limit } w) := by
  have hfuse' : n.limits.fuse = none := by
    rw [← hfuse]
    exact congrArg Limits.fuse (limits_congr (m := m.modifyThread i.thread _) (n := n.modifyThread i.thread _) h)
  have hfetched := bareOf_fetch_of_moved h hfuse limit hword hframes hframes' hm hn
  rw [← execute_eq_fetch hfuse, ← execute_eq_fetch hfuse'] at hfetched
  exact bareOf_conclude hfetched limit { w with pc := w.pc + 1 }

/-- Where an interpreter stood does not matter for the instruction that it runs. -/
theorem advance_stage (stage : Stage) : m.advance { i with stage } w = m.advance i w := by
  have hperform (m : Machine) (w : Window) (word : Instruction) (op : Opcode) :
      m.perform { i with stage } w word op = m.perform i w word op := by cases op <;> rfl
  have hexecute : m.execute { i with stage } w = m.execute i w := by
    simp only [execute, fetch, hperform]
  rw [advance, advance, hexecute]
  cases (m.execute i w).2 <;> rfl

/-- An instruction that enters a closure makes a frame, or there is no room for one. -/
theorem advance_enters {moved : Machine} {id : ClosureId} {args : Values} {target : ReturnTarget}
    (hfuse : m.limits.fuse = none)
    (hrange : i.thread.index < moved.threads.size)
    (hfetch : m.fetch i w =
      ((moved.pushFrame i.thread id args target).1, .ofSignal (moved.pushFrame i.thread id args target).2)) :
    ((m.advance i w).2 = .go ∧ ((m.advance i w).1.thread i.thread).depth = (moved.thread i.thread).depth + 1) ∨
      (∃ e, (m.advance i w).2 = .error e) ∧ (m.advance i w).1.stack = moved.stack.tail := by
  unfold advance
  rw [execute_eq_fetch hfuse, hfetch]
  dsimp only
  cases hpushed : moved.pushFrame i.thread id args target with | mk entered s =>
  obtain ⟨rfl, -, hframe⟩ | ⟨⟨e, rfl⟩, hkept, -⟩ := (Retains.refl moved i.thread).pushFrame hpushed
  · obtain ⟨frame, hthread⟩ := hframe hrange
    refine Or.inl ⟨rfl, ?_⟩
    show (entered.thread i.thread).depth = _
    rw [hthread]
  · exact Or.inr ⟨⟨_, rfl⟩, congrArg List.tail hkept.stack⟩

/-- An alike machine stands in front of the same instruction. -/
theorem Foremost.congr (h : m.Foremost t i w) (hbare : m.bare t = n.bare t) :
    ∃ limit, n.Foremost t { i with limit } w := by
  obtain ⟨floor, held, hplain, hreads⟩ := h.reads
  have hstacks : m.stack.map (Activation.bare t) = n.stack.map (Activation.bare t) := congrArg Machine.stack hbare
  rw [hreads.stack] at hstacks
  obtain ⟨a, acts, hstack, ha, hacts⟩ := List.map_eq_cons_iff.mp hstacks.symm
  obtain ⟨b, rest, rfl, hb, hrest⟩ := List.map_eq_cons_iff.mp hacts
  obtain rfl := List.map_eq_nil_iff.mp hrest
  obtain ⟨limit, rfl⟩ : ∃ limit, a = .interpret { i with limit } := by
    obtain ⟨j, limit, hj, hlimit⟩ | ⟨_, _, _, _, _, hends, -⟩ | rfl := bare_eq_cases ha.symm
    · cases hj
      exact ⟨limit, hlimit⟩
    · cases hends
    · exact ⟨i.limit, rfl⟩
  obtain ⟨floor', held', rfl, hheld⟩ : ∃ floor' held', b = .endResume t floor' held' ∧ Values.objects held' = [] := by
    obtain ⟨j, limit, hj, -⟩ | ⟨u, floor₁, floor', held₁, held', hends, rfl, -⟩ | rfl := bare_eq_cases hb.symm
    · cases hj
    · cases hends
      rw [Activation.bare_endResume, Activation.bare_endResume, if_pos rfl, if_pos rfl, hplain] at hb
      exact ⟨floor', held', rfl, (Activation.endResume.inj hb).2.2⟩
    · exact ⟨floor, held, rfl, hplain⟩
  have hthread := thread_congr t hbare
  have hsize : n.threads.size = m.threads.size := by
    have hmapped := congrArg (fun m : Machine => m.threads.size) hbare
    simpa [bare] using hmapped.symm
  obtain ⟨f, rest, hframes, hpending, hcode⟩ := h.frames
  refine ⟨limit, ⟨floor', held', hheld, hstack, ?_⟩, h.thread, h.floor, by rw [hsize]; exact h.range,
    ⟨f, rest, by rw [hthread]; exact hframes, hpending, hcode⟩, by rw [hthread]; exact h.status,
    by rw [hthread]; exact h.start, by rw [hthread]; exact h.hostReturn, by rw [hthread]; exact h.awake⟩
  rcases hreads.stage with hrunning | ⟨hentering, top, htop, hw⟩
  · exact Or.inl hrunning
  · refine Or.inr ⟨hentering, top, ?_, hw⟩
    show top ∈ n.topFrame? i.thread
    rw [← topFrame?_bare (t := t), ← hbare, topFrame?_bare]
    exact htop

theorem depth_movedTo (m : Machine) (u : ThreadId) (pc : Nat) :
    ((m.modifyThread u (·.movedTo pc)).thread u).depth = (m.thread u).depth := by
  have hmoved (th : Thread) : (th.movedTo pc).depth = th.depth := by
    rcases th with ⟨_, _, _ | ⟨top, rest⟩, _, _, _, _, _, _, _⟩ <;> rfl
  obtain hsame | hchanged := m.thread_modifyThread_cases u (·.movedTo pc) u
  · rw [hsame]
  · rw [hchanged, hmoved]

/-- An instruction that met a limit is run alike by interpreters that do not meet theirs, and makes a frame unless there
is no room for one. -/
theorem bareOf_advance_again {r r' : Machine} (hstops : (m.fetch i w).2.Pauses) (hfuse : m.limits.fuse = none)
    (hrange : i.thread.index < r.threads.size)
    (hmoved : (m.modifyThread i.thread (·.movedTo (w.pc + 1))).bare t =
      (r.modifyThread i.thread (·.movedTo (w.pc + 1))).bare t)
    (hmoved' : (m.modifyThread i.thread (·.movedTo (w.pc + 1))).bare t =
      (r'.modifyThread i.thread (·.movedTo (w.pc + 1))).bare t)
    (hframes : (r.thread i.thread).frames.isEmpty = false) (hframes' : (r'.thread i.thread).frames.isEmpty = false)
    (hlimit : limit.any (· ≤ (m.thread i.thread).depth) = false) :
    bareOf t (r.advance { i with limit } w) = bareOf t (r'.advance { i with limit := none } w) ∧
      ((r.advance { i with limit } w).2 = .go ∧
          ((r.advance { i with limit } w).1.thread i.thread).depth = (m.thread i.thread).depth + 1 ∨
        (∃ e, (r.advance { i with limit } w).2 = .error e) ∧
          (r.advance { i with limit } w).1.stack = r.stack.tail) := by
  obtain ⟨-, -, ⟨word, hword⟩, hagain⟩ := fetch_pauses (t := t) hstops
  have hfuse' : r.limits.fuse = none := by
    rw [← hfuse]
    exact congrArg Limits.fuse (limits_congr (m := m.modifyThread i.thread _) (n := r.modifyThread i.thread _) hmoved)
  have hdepth : ((r.modifyThread i.thread (·.movedTo (w.pc + 1))).thread i.thread).depth =
    (m.thread i.thread).depth := by
    rw [thread_congr i.thread hmoved]
    exact m.depth_movedTo i.thread (w.pc + 1)
  have hword' : (r.closure w.closure).proto.code[w.pc]? = some word := by
    rw [← hword]
    exact congrArg (fun c : Closure => c.proto.code[w.pc]?)
      (closure_congr (m := m.modifyThread i.thread _) (n := r.modifyThread i.thread _) hmoved w.closure)
  obtain ⟨id, vs, target, hfetch⟩ := hagain r { i with limit } rfl hmoved hframes (by rw [hdepth]; exact hlimit)
  obtain ⟨id', vs', target', hfetch'⟩ := hagain r' { i with limit := none } rfl hmoved' hframes' rfl
  have hgoes (x : Machine) (id : ClosureId) (vs : Values) (target : ReturnTarget) :
      Ending.ofSignal (x.pushFrame i.thread id vs target).2 ≠ .stop .frameLimit := by
    intro hstop
    have hnot := Ending.not_pauses_ofSignal (x.isResult_pushFrame i.thread id vs target).not_pauses
    rw [hstop] at hnot
    exact hnot trivial
  refine ⟨?_, ?_⟩
  · exact bareOf_advance_of_moved (i := { i with limit })
      (hmoved.symm.trans hmoved') hfuse' none hword' hframes hframes'
      (by rw [hfetch]; exact hgoes _ _ _ _) (by rw [hfetch']; exact hgoes _ _ _ _)
  · obtain ⟨hgo, hpushed⟩ | hfails := advance_enters (i := { i with limit }) hfuse'
      (Nat.lt_of_lt_of_eq hrange (r.confined_modifyThread i.thread _).size.symm) hfetch
    · exact Or.inl ⟨hgo, hpushed.trans (congrArg (· + 1) hdepth)⟩
    · exact Or.inr hfails

/-- The instruction is run again as it would have been without a limit, and makes a frame unless there is no room for
one. -/
theorem Foremost.continues (h : m.Foremost t i w) (hfuse : m.limits.fuse = none)
    (hstops : ((m.reading i w).fetch i w).2.Pauses) (hn : n.Foremost t { i with limit := none } w)
    (hbare : m.bare t = n.bare t) (hlimit : limit.any (· ≤ (m.thread t).depth) = false) {args : Values}
    (hplain : Values.objects args = []) :
    bareOf t ((m.continued t w limit args).step .go) = bareOf t (n.step .go) ∧
      (((m.continued t w limit args).step .go).2 = .go ∧
          (((m.continued t w limit args).step .go).1.thread t).depth = (m.thread t).depth + 1 ∨
        (∃ e, ((m.continued t w limit args).step .go).2 = .error e) ∧
          ((m.continued t w limit args).step .go).1.stack = [.endResume t (m.thread t).depth args]) := by
  obtain rfl := h.thread
  have hforemost := h.continued limit hplain
  obtain ⟨floor, held, -, hreads⟩ := hforemost.reads
  obtain ⟨floor', held', -, hreads'⟩ := hn.reads
  have hmoved' : ((m.reading i w).modifyThread i.thread (·.movedTo (w.pc + 1))).bare i.thread =
      ((n.reading { i with limit := none } w).modifyThread i.thread (·.movedTo (w.pc + 1))).bare i.thread := by
    refine bare_modifyThread_congr i.thread (bare_replaceTop_congr ?_ rfl) ?_
    · rw [bare, bare, Machine.mk.injEq] at hbare ⊢
      simp_all
    · rintro ⟨number, status, _ | ⟨top, rest⟩⟩ <;> rfl
  have hadvance (x : Machine) : x.advance ⟨i.thread, 0, limit, .entering⟩ w = x.advance { i with limit } w := by
    rw [← h.floor]
    exact advance_stage (i := { i with limit }) .entering
  have hframes : (((m.continued i.thread w limit args).reading
      ⟨i.thread, 0, limit, .entering⟩ w).thread i.thread).frames.isEmpty
      = false := by
    obtain ⟨f, rest, hframes, -⟩ := hforemost.frames
    exact congrArg List.isEmpty hframes
  have hframes' : ((n.reading { i with limit := none } w).thread i.thread).frames.isEmpty = false := by
    obtain ⟨f, rest, hframes, -⟩ := hn.frames
    exact congrArg List.isEmpty hframes
  rw [hreads.step_eq, hreads'.step_eq, hadvance]
  exact bareOf_advance_again (m := m.reading i w) hstops hfuse hforemost.range
    (h.bare_continued limit hplain).symm hmoved'
    hframes hframes' hlimit

end Continuing

end Machine

end LuaMachine
