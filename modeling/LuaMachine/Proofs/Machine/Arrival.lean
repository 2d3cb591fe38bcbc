import LuaMachine.Proofs.Machine.Calling

namespace LuaMachine.Machine

/-- The frames of a thread and their registers are as before. -/
structure Untouched (m m' : Machine) (t : ThreadId) : Prop where
  range : t.index < m'.threads.size
  frames : (m'.thread t).frames = (m.thread t).frames
  depth : (m'.thread t).depth = (m.thread t).depth
  native : (m'.thread t).nativeDepth = (m.thread t).nativeDepth
  files : ∀ f ∈ (m.thread t).frames, m'.file f.file = m.file f.file
  size : m.files.size ≤ m'.files.size

/-- An interpreter of a thread is about to run the next instruction of the innermost frame. -/
def StandsAt (m : Machine) (t : ThreadId) (floor : Nat) : Prop :=
  ∃ i acts f, m.stack = .interpret i :: acts ∧ i.thread = t ∧ i.floor = floor ∧ m.topFrame? t = some f ∧
    (i.stage = .entering ∨ i.stage = .running ⟨f.closure, f.file, f.pc⟩)

/-- The ways in which the results `vs` of the call that an interpreter is about to make can arrive: the machine and the
signal right afterwards. What happens meanwhile does not matter as long as the frames that wait are untouched. -/
inductive Arrives (m : Machine) (i : Interpreter) (vs : Values) : Machine → Signal → Prop
  /-- A native function is called and returns them. -/
  | returned {id : NativeId} {args : Values} {m₁ m₂ : Machine}
      (hcall : m.step .go = (m₁, .invoke i.thread id args)) (hkept : m₁.Untouched m₂ i.thread)
      (hstack : m₂.stack = m₁.stack) : Arrives m i vs (m₂.step (.values vs)).1 (m₂.step (.values vs)).2
  /-- A closure is entered, and later an instruction returns them from its frame. -/
  | left {m₁ m₂ : Machine} {callee last : Frame} {lower : List Frame} {j : Interpreter} {acts : List Activation}
      {word : Instruction} (hcall : m.step .go = (m₁, .go)) (hentered : (m₁.thread i.thread).frames = callee :: lower)
      (hreturn : m₂.About j acts last lower word .ret) (hthread : j.thread = i.thread) (hfloor : j.floor = i.floor)
      (htarget : last.target = callee.target) (hfiles : ∀ f ∈ lower, m₂.file f.file = m₁.file f.file)
      (hfuse : ∀ fuse ∈ m₂.limits.fuse, (m₂.thread i.thread).instructions < fuse)
      (hvs : m₂.collect last.file last.top word.a.toNat word.b.toNat = vs) :
      Arrives m i vs (m₂.step .go).1 (m₂.step .go).2
  /-- A native function is called and yields, and later the thread is resumed with them. -/
  | resumed {id : NativeId} {args : Values} {m₁ m₂ m₃ : Machine} {budget : Option Nat}
      (hcall : m.step .go = (m₁, .invoke i.thread id args)) (hkept : m₁.Untouched m₂ i.thread)
      (hstack : m₂.stack = m₁.stack) (hnative : (m₂.thread i.thread).nativeDepth = 0)
      (hlater : (m₂.step (.error .yield)).1.Untouched m₃ i.thread) (hstatus : (m₃.thread i.thread).status = .suspended)
      (hstart : (m₃.thread i.thread).start = none) (hhost : (m₃.thread i.thread).hostReturnPending = false)
      (hsleep : (m₃.thread i.thread).sleep = 0) :
      Arrives m i vs (m₃.beginResume i.thread budget vs).1 (m₃.beginResume i.thread budget vs).2

variable {m m' n n' : Machine} {i j : Interpreter} {acts : List Activation} {f caller : Frame} {below : List Frame}
  {word : Instruction} {op : Opcode}

/-- The frames of a thread are `f` and `below`, with the registers that they have in `m`. -/
structure Rests (m m' : Machine) (t : ThreadId) (f : Frame) (below : List Frame) : Prop where
  range : t.index < m'.threads.size
  frames : (m'.thread t).frames = f :: below
  depth : (m'.thread t).depth = below.length + 1
  files : OwnFiles m'.files.size (f :: below)
  registers : ∀ g ∈ f :: below, m'.file g.file = m.file g.file

namespace Rests

variable {t : ThreadId}

theorem of_retouched (hrange : t.index < m.threads.size) (hdepth : (m.thread t).depth = below.length + 1)
    (hfiles : OwnFiles m.files.size (f :: below)) {g : Frame} (hg : g.file = f.file)
    (h : m.Retouched m' t f g below (m.file f.file)) : m.Rests m' t g below := by
  refine ⟨by rw [h.threads]; exact hrange, h.frames, by rw [h.depth, hdepth], ⟨?_, ?_⟩, ?_⟩
  · simpa [hg] using hfiles.distinct
  · simpa [hg, h.files] using hfiles.exist
  · intro k hk
    by_cases hown : k.file = f.file
    · rw [hown]
      exact h.registers
    · exact h.others _ hown

/-- Only the frames of a thread and their registers matter. -/
theorem congr (h : m.Rests m' t f below) (hrange : t.index < n.threads.size)
    (hframes : (n.thread t).frames = (m'.thread t).frames) (hdepth : (n.thread t).depth = (m'.thread t).depth)
    (hfiles : ∀ g ∈ (m'.thread t).frames, n.file g.file = m'.file g.file) (hsize : m'.files.size ≤ n.files.size) :
    m.Rests n t f below := by
  refine ⟨hrange, hframes.trans h.frames, hdepth.trans h.depth, ⟨h.files.distinct, fun g hg => ?_⟩, fun g hg => ?_⟩
  · exact Nat.lt_of_lt_of_le (h.files.exist g hg) hsize
  · exact (hfiles g (by rw [h.frames]; exact hg)).trans (h.registers g hg)

theorem untouched (h : m.Rests m' t f below) (hkept : m'.Untouched n t) : m.Rests n t f below :=
  h.congr hkept.range hkept.frames hkept.depth hkept.files hkept.size

theorem of_eq (h : m.Rests m' t f below) (hthreads : n.threads = m'.threads) (hfiles : n.files = m'.files) :
    m.Rests n t f below := by
  have hthread : n.thread t = m'.thread t := by rw [thread, hthreads]; rfl
  exact h.congr (by rw [hthreads]; exact h.range) (by rw [hthread]) (by rw [hthread])
    (fun g _ => by rw [file, hfiles]; rfl) (Nat.le_of_eq (congrArg Array.size hfiles.symm))

/-- The innermost frame may change, as long as it keeps its registers. -/
theorem modifyTop (h : m.Rests m' t f below) {g : Frame → Frame} (hfile : (g f).file = f.file) :
    m.Rests (m'.modifyTop t g) t (g f) below := by
  have hchanged := of_retouched h.range h.depth h.files hfile (retouched_modifyTop h.range h.frames g)
  refine ⟨hchanged.range, hchanged.frames, hchanged.depth, hchanged.files, fun g hg => ?_⟩
  rcases List.mem_cons.mp hg with rfl | hbelow
  · rw [hfile]
    exact h.registers f (by simp)
  · exact h.registers g (by simp [hbelow])

theorem modifyThread (h : m.Rests m' t f below) {g : Thread → Thread} (hframes : ∀ th, (g th).frames = th.frames)
    (hdepth : ∀ th, (g th).depth = th.depth) : m.Rests (m'.modifyThread t g) t f below :=
  h.congr (by simpa [Machine.modifyThread, modifyAt] using h.range) (by rw [thread_modifyThread h.range, hframes])
    (by rw [thread_modifyThread h.range, hdepth]) (fun _ _ => rfl) (Nat.le_refl _)

/-- The innermost frame gets results. -/
theorem deliver (h : m.Rests m' t f below) {target : ReturnTarget} (htarget : target.continuation ≠ .host) (vs : Values)
    (lower : List Frame) : ∃ n, m'.deliver t target vs = (n, .go) ∧
      m.Received n t (some ⟨target, f, below⟩) lower vs .go ∧ n.stack = m'.stack := by
  obtain ⟨n, hdelivered, hreceived, hstack⟩ := deliver_received h.range h.frames h.depth h.files htarget vs lower
  exact ⟨n, hdelivered, hreceived.of_files h.registers, hstack⟩

/-- The innermost frame is left with results. -/
theorem finishReturn (h : m.Rests m' t f below) (vs : Values) (floor : Nat) : ∃ n s,
    m'.finishReturn t vs floor = (n, s) ∧ m.Received n t (f.destination? below floor) below vs s ∧
      n.stack = m'.stack := by
  obtain ⟨n, s, hfinished, hreceived, hstack⟩ := finishReturn_received h.range h.frames h.depth h.files vs floor
  refine ⟨n, s, hfinished, hreceived.of_files fun g hg => h.registers g ?_, hstack⟩
  rw [framesLeft_destination?] at hg
  exact List.mem_cons_of_mem _ hg

end Rests

/-- The results have come to where they go, and an interpreter that goes on there is about to run the next
instruction. -/
structure Completed (m m' : Machine) (t : ThreadId) (floor : Nat) (dest : Option Destination) (below : List Frame)
    (vs : Values) (s : Signal) : Prop extends m.Received m' t dest below vs s where
  stands : s = .go → m'.StandsAt t floor

namespace Received

variable {t : ThreadId} {dest : Option Destination} {vs : Values} {s : Signal}

/-- A frame that gets results is the innermost one. -/
theorem topFrame?_eq (h : m.Received m' t dest below vs .go) :
    ∃ d, dest = some d ∧ m'.topFrame? t = some (d.target.frameAfter d.frame (m.file d.frame.file) vs) := by
  cases dest with
  | none => exact absurd h.signal nofun
  | some d =>
    refine ⟨d, rfl, ?_⟩
    rw [topFrame?, h.frames]
    rfl

theorem signal_cases (h : m.Received m' t dest below vs s) : s = .go ∨ s = .values vs := by
  rw [h.signal]
  cases dest with
  | none => exact Or.inr rfl
  | some _ => exact Or.inl rfl

theorem of_eq (h : m.Received m' t dest below vs s) (hthreads : n.threads = m'.threads) (hfiles : n.files = m'.files) :
    m.Received n t dest below vs s := by
  have hthread : n.thread t = m'.thread t := by rw [thread, hthreads]; rfl
  refine ⟨h.signal, by rw [hthread]; exact h.frames, by rw [hthread]; exact h.depth, ?_⟩
  rw [hthread]
  intro g hg
  rw [file, hfiles]
  exact h.files g hg

/-- An interpreter that has yet to look up the innermost frame goes on with it. -/
theorem completed {floor : Nat} (h : m.Received m' t dest below vs s) (hthreads : n.threads = m'.threads)
    (hfiles : n.files = m'.files) (hentering : s = .go → ∃ i acts, n.stack = .interpret i :: acts ∧ i.thread = t ∧
      i.floor = floor ∧ i.stage = .entering) : m.Completed n t floor dest below vs s := by
  have hreceived := h.of_eq hthreads hfiles
  refine ⟨hreceived, ?_⟩
  rintro rfl
  obtain ⟨i, acts, hstack, hthread, hfloor, hstage⟩ := hentering rfl
  obtain ⟨_, -, htop⟩ := hreceived.topFrame?_eq
  exact ⟨i, acts, _, hstack, hthread, hfloor, htop, Or.inl hstage⟩

end Received

/-- An interpreter leaves the innermost frame with results. -/
theorem Rests.leave (h : m.Rests n i.thread f below) (w : Window) (vs held : Values) :
    let settled := n.settle i w vs (.leave held)
    let concluded := settled.1.conclude i w settled.2
    m.Completed concluded.1 i.thread i.floor (f.destination? below i.floor) below vs concluded.2 := by
  obtain ⟨left, s, hfinished, hreceived, -⟩ := h.finishReturn vs i.floor
  have hsettled : n.settle i w vs (.leave held) = (left, .ofSignal s) := by
    rw [settle, hfinished]
  dsimp only
  rw [hsettled]
  rcases hreceived.signal_cases with rfl | rfl
  · exact hreceived.completed rfl rfl fun _ => ⟨_, _, rfl, rfl, rfl, rfl⟩
  · exact hreceived.completed rfl rfl nofun

/-- An interpreter takes the results of a native function for the innermost frame. -/
theorem Rests.take (h : m.Rests n i.thread f below) {target : ReturnTarget} (htarget : target.continuation ≠ .host)
    (vs held : Values) (lower : List Frame) :
    let w : Window := ⟨f.closure, f.file, f.pc⟩
    let settled := n.settle i w vs (.deliver target held)
    let concluded := settled.1.conclude i w settled.2
    m.Completed concluded.1 i.thread i.floor (some ⟨target, f, below⟩) lower vs concluded.2 := by
  obtain ⟨taken, hdelivered, hreceived, -⟩ := h.deliver htarget vs lower
  obtain ⟨d, hto, htop⟩ := hreceived.topFrame?_eq
  cases hto
  intro w
  have hsettled : n.settle i w vs (.deliver target held) =
      (taken, .goOn (target.frameAfter f (m.file f.file) vs).pc) := by
    rw [settle, hdelivered]
    dsimp only
    cases hcont : target.continuation with
    | host => exact absurd hcont htarget
    | forIterator => rw [htop]
    | store => rw [ReturnTarget.frameAfter_of_store _ _ _ _ hcont]
  dsimp only
  rw [hsettled]
  exact ⟨hreceived.of_eq rfl rfl, fun _ => ⟨_, taken.stack.tail, _, rfl, rfl, rfl, htop, Or.inr rfl⟩⟩

theorem About.rests_fetched (h : m.About i acts f below word op) :
    m.Rests (m.fetched i f) i.thread { f with pc := f.pc + 1 } below := by
  have hrests := Rests.of_retouched (g := { f with pc := f.pc + 1 }) (m := m.replaceTop _) h.range h.depth_eq h.ownFiles
    rfl (fetched_retouched h.range h.frames)
  exact ⟨hrests.range, hrests.frames, hrests.depth, hrests.files, hrests.registers⟩

theorem nativeDepth_fetched (m : Machine) (i : Interpreter) (f : Frame) :
    ((m.fetched i f).thread i.thread).nativeDepth = (m.thread i.thread).nativeDepth := by
  have hmoved (th : Thread) (pc : Nat) : (th.movedTo pc).nativeDepth = th.nativeDepth := by
    unfold Thread.movedTo
    split <;> rfl
  by_cases hrange : i.thread.index < m.threads.size
  · have hfetched : (m.fetched i f).thread i.thread = (m.thread i.thread).movedTo (f.pc + 1) :=
      thread_modifyThread (m := { m with inUse := [], stack := _ }) hrange _
    rw [hfetched, hmoved]
  · rw [thread, thread, Array.getElem?_eq_none (by simpa [fetched, modifyThread, modifyAt, replaceTop] using hrange),
      Array.getElem?_eq_none (Nat.not_lt.mp hrange)]

/-- What an interpreter that has called a native function looks like until it takes the outcome. -/
theorem About.waits (h : m.About i acts f below word op) (hop : op.Calls) {id : NativeId} {args : Values}
    {m₁ m₂ : Machine} (hcall : m.step .go = (m₁, .invoke i.thread id args)) (hkept : m₁.Untouched m₂ i.thread)
    (hstack : m₂.stack = m₁.stack) :
    m.Rests { m₂ with inUse := [] } i.thread { f with pc := f.pc + 1 } below ∧
      (m₂.thread i.thread).nativeDepth = (m.thread i.thread).nativeDepth ∧ ∃ held, m₂.stack =
        .interpret { i with stage := .waiting ⟨f.closure, f.file, f.pc + 1⟩ (word.sequel op held) } :: acts := by
  obtain ⟨m', s, hstep, hs⟩ | ⟨m', callee, lower, hstep, -⟩ | ⟨id', args', held, hstep⟩ := h.step_calls hop
  · rw [hstep] at hcall
    cases hcall
    obtain hs | ⟨e, hs⟩ := hs <;> cases hs
  · rw [hstep] at hcall
    cases hcall
  · rw [hstep] at hcall
    cases hcall
    have hinvoked (a : Activation) :
        m.Rests ((m.fetched i f).replaceTop a) i.thread { f with pc := f.pc + 1 } below :=
      h.rests_fetched.of_eq rfl rfl
    refine ⟨((hinvoked _).untouched hkept).of_eq rfl rfl, hkept.native.trans (m.nativeDepth_fetched _ _), held, ?_⟩
    rw [hstack]
    show _ :: m.stack.tail = _
    rw [h.stack]
    rfl

/-- The results that a native function returns. -/
theorem About.returned (h : m.About i acts f below word op) (hop : op.Calls) {id : NativeId} {args vs : Values}
    {m₁ m₂ : Machine} (hcall : m.step .go = (m₁, .invoke i.thread id args)) (hkept : m₁.Untouched m₂ i.thread)
    (hstack : m₂.stack = m₁.stack) :
    m.Completed (m₂.step (.values vs)).1 i.thread i.floor (word.destination? op f below i.floor) below vs
      (m₂.step (.values vs)).2 := by
  obtain ⟨hrests, -, held, hwaits⟩ := h.waits hop hcall hkept hstack
  rw [step_cons hwaits (by intros; nofun)]
  show m.Completed (({ m₂ with inUse := [] } : Machine).interpret _ (.values vs)).1 i.thread i.floor _ below vs
    (({ m₂ with inUse := [] } : Machine).interpret _ (.values vs)).2
  unfold interpret Instruction.sequel Instruction.destination?
  cases htarget : word.target? op with
  | some target => exact hrests.take (i := { i with stage := _ }) (Instruction.target?_ne_host htarget) vs held below
  | none => exact hrests.leave (i := { i with stage := _ }) _ vs held

/-- The results that an instruction returns from its frame. -/
theorem About.returns (h : m.About i acts f below word .ret) {vs : Values}
    (hfuse : ∀ fuse ∈ m.limits.fuse, (m.thread i.thread).instructions < fuse)
    (hvs : m.collect f.file f.top word.a.toNat word.b.toNat = vs) :
    m.Completed (m.step .go).1 i.thread i.floor (f.destination? below i.floor) below vs (m.step .go).2 := by
  obtain ⟨m', e, -, fuse, hsome, hspent⟩ | hstep := h.step_cases
  · exact absurd (hfuse fuse hsome) (Nat.not_lt.mpr hspent)
  have hrests := h.rests_fetched
  have hcollect : (m.fetched i f).collect f.file ((m.fetched i f).openEnd i.thread) word.a.toNat word.b.toNat = vs := by
    rw [openEnd, topFrame?, hrests.frames]
    exact hvs
  have hperform : (m.fetched i f).perform i ⟨f.closure, f.file, f.pc + 1⟩ word .ret =
      (m.fetched i f).settle i ⟨f.closure, f.file, f.pc + 1⟩ vs (.leave []) := by
    rw [← hcollect]
    rfl
  have hleft := hrests.leave (i := i) ⟨f.closure, f.file, f.pc + 1⟩ vs []
  dsimp only at hleft hstep
  rw [hstep, hperform]
  rwa [Frame.destination?_congr (f := f) (g := { f with pc := f.pc + 1 }) rfl] at hleft

/-- The results that a closure returns. -/
theorem About.left (h : m.About i acts f below word op) (hop : op.Calls) {vs : Values} {m₁ m₂ : Machine}
    {callee last : Frame} {lower : List Frame} {acts' : List Activation} {ret : Instruction}
    (hcall : m.step .go = (m₁, .go)) (hentered : (m₁.thread i.thread).frames = callee :: lower)
    (hreturn : m₂.About j acts' last lower ret .ret) (hthread : j.thread = i.thread) (hfloor : j.floor = i.floor)
    (htarget : last.target = callee.target) (hfiles : ∀ f ∈ lower, m₂.file f.file = m₁.file f.file)
    (hfuse : ∀ fuse ∈ m₂.limits.fuse, (m₂.thread i.thread).instructions < fuse)
    (hvs : m₂.collect last.file last.top ret.a.toNat ret.b.toNat = vs) :
    m.Completed (m₂.step .go).1 i.thread i.floor (word.destination? op f below i.floor) below vs (m₂.step .go).2 := by
  obtain ⟨m', s, hstep, hs⟩ | ⟨m', callee', lower', hstep, hin⟩ | ⟨id', args', held, hstep⟩ := h.step_calls hop
  · rw [hstep] at hcall
    cases hcall
    obtain hs | ⟨e, hs⟩ := hs <;> cases hs
  · rw [hstep] at hcall
    cases hcall
    rw [hin.frames] at hentered
    cases hentered
    have hdone := hreturn.returns (by rw [hthread]; exact hfuse) hvs
    have hto : last.destination? lower j.floor = word.destination? op f below i.floor := by
      rw [hfloor, ← hin.destination]
      exact Frame.destination?_congr htarget
    rw [hto, hfloor, hthread] at hdone
    refine ⟨(hdone.congr_below hin.left).of_files fun g hg => ?_, hdone.stands⟩
    have hlower : g ∈ lower := by
      rwa [← hin.left, ← hin.destination, framesLeft_destination?] at hg
    exact (hfiles g hlower).trans (hin.files g hlower)
  · rw [hstep] at hcall
    cases hcall

/-- When a native function yields, the innermost frame keeps its call pending. -/
theorem Rests.suspend {t : ThreadId} (h : m.Rests n t f below) (pending : Frame → PendingCall) :
    ∃ n' vs, n.suspend t pending = (n', .stop (.yielded vs)) ∧
      m.Rests n' t { f with pending := some (pending f) } below := by
  have htop : n.topFrame? t = some f := by rw [topFrame?, h.frames]; rfl
  unfold Machine.suspend
  rw [htop]
  exact ⟨_, _, rfl, (h.modifyTop rfl).modifyThread (fun _ => rfl) (fun _ => rfl)⟩

theorem Rests.completePending {t : ThreadId} {p : PendingCall} (h : m.Rests n t { f with pending := some p } below)
    (hidle : f.pending = none) (vs : Values) (floor : Nat) :
    ∃ n', m.Rests n' t f below ∧
      n.completePending t vs floor = if p.tail then n'.finishReturn t vs floor else n'.deliver t p.target vs := by
  have htop : n.topFrame? t = some { f with pending := some p } := by rw [topFrame?, h.frames]; rfl
  have hcleared := h.modifyTop (g := fun f => { f with pending := none }) rfl
  refine ⟨_, ?_, by unfold Machine.completePending; rw [htop]⟩
  have hsame : { f with pending := none } = f := by rw [← hidle]
  exact hsame ▸ hcleared

/-- A yield of a native function that an instruction called leaves the call pending. -/
theorem About.yielded (h : m.About i acts f below word op) (hop : op.Calls) {id : NativeId} {args : Values}
    {m₁ m₂ : Machine} (hcall : m.step .go = (m₁, .invoke i.thread id args)) (hkept : m₁.Untouched m₂ i.thread)
    (hstack : m₂.stack = m₁.stack) : m.Rests (m₂.step (.error .yield)).1 i.thread
      { f with pc := f.pc + 1, pending := some (word.pendingCall op f) } below := by
  obtain ⟨hrests, -, held, hwaits⟩ := h.waits hop hcall hkept hstack
  rw [step_cons hwaits (by intros; nofun)]
  show m.Rests (({ m₂ with inUse := [] } : Machine).interpret _ (.error .yield)).1 i.thread _ below
  unfold interpret Instruction.sequel Instruction.pendingCall
  cases htarget : word.target? op with
  | some target =>
    obtain ⟨n', vs, hsuspended, hpending⟩ := hrests.suspend fun _ => ⟨target, false⟩
    dsimp only [interrupted]
    rw [hsuspended]
    exact hpending.of_eq rfl rfl
  | none =>
    obtain ⟨n', vs, hsuspended, hpending⟩ := hrests.suspend fun top => ⟨top.target, true⟩
    dsimp only [interrupted]
    rw [hsuspended]
    exact hpending.of_eq rfl rfl

/-- The results that a thread is resumed with. -/
theorem Rests.resume {t : ThreadId}
    (h : m.Rests n t { f with pc := f.pc + 1, pending := some (word.pendingCall op f) } below)
    (hidle : f.pending = none) (hstatus : (n.thread t).status = .suspended) (hstart : (n.thread t).start = none)
    (hhost : (n.thread t).hostReturnPending = false) (hsleep : (n.thread t).sleep = 0) (budget : Option Nat)
    (vs : Values) : m.Completed (n.beginResume t budget vs).1 t 0 (word.destination? op f below 0) below vs
      (n.beginResume t budget vs).2 := by
  set awake := n.modifyThread t fun th => { th with status := .running, instructions := 0 } with hawake
  have hthread : awake.thread t = { n.thread t with status := .running, instructions := 0 } :=
    thread_modifyThread h.range _
  have hrests := h.modifyThread (g := fun th => { th with status := .running, instructions := 0 })
    (fun _ => rfl) (fun _ => rfl)
  rw [← hawake] at hrests
  have hbegun := hrests.of_eq (n := awake.push (.endResume t (n.thread t).depth [])) rfl rfl
  obtain ⟨n', hcleared, hcomplete⟩ := Rests.completePending (f := { f with pc := f.pc + 1 }) hbegun hidle vs 0
  have hresumed : n.beginResume t budget vs =
      awake.beginResumed t (n.thread t).depth (frameLimit (n.thread t).depth budget) vs := by
    unfold beginResume
    dsimp only
    rw [hsleep, hstatus]
    rfl
  rw [hresumed]
  unfold beginResumed
  rw [hthread]
  dsimp only
  rw [hstart, hhost, h.frames]
  dsimp only
  rw [hcomplete]
  unfold Instruction.pendingCall Instruction.destination?
  cases htarget : word.target? op with
  | some target =>
    obtain ⟨taken, hdelivered, hreceived, -⟩ := hcleared.deliver (Instruction.target?_ne_host htarget) vs below
    dsimp only
    rw [if_neg (by rintro ⟨⟩), hdelivered]
    exact hreceived.completed rfl rfl fun _ => ⟨_, _, rfl, rfl, rfl, rfl⟩
  | none =>
    obtain ⟨left, s, hfinished, hreceived, -⟩ := hcleared.finishReturn vs 0
    rw [Frame.destination?_congr (f := f) (g := { f with pc := f.pc + 1 }) rfl] at hreceived
    dsimp only
    rw [if_pos rfl, hfinished]
    rcases hreceived.signal_cases with rfl | rfl
    · exact hreceived.completed rfl rfl fun _ => ⟨_, _, rfl, rfl, rfl, rfl⟩
    · exact hreceived.completed rfl rfl (by rintro ⟨⟩)

/-- However the results arrive, they come to where they go, and the interpreter goes on there. -/
theorem Arrives.completed {vs : Values} {s : Signal} (harrives : m.Arrives i vs m' s)
    (h : m.About i acts f below word op) (hop : op.Calls) :
    m.Completed m' i.thread i.floor (word.destination? op f below i.floor) below vs s := by
  cases harrives with
  | returned hcall hkept hstack => exact h.returned hop hcall hkept hstack
  | left hcall hentered hreturn hthread hfloor htarget hfiles hfuse hvs =>
    exact h.left hop hcall hentered hreturn hthread hfloor htarget hfiles hfuse hvs
  | resumed hcall hkept hstack hnative hlater hstatus hstart hhost hsleep =>
    obtain ⟨-, hsame, -⟩ := h.waits hop hcall hkept hstack
    have hfloor : i.floor = 0 := h.native (hsame.symm.trans hnative)
    have hpending := (h.yielded hop hcall hkept hstack).untouched hlater
    rw [hfloor]
    exact hpending.resume h.pending_eq hstatus hstart hhost hsleep _ vs

end LuaMachine.Machine
