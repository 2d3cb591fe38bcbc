import LuaMachine.Proofs.Machine.Cells
import LuaMachine.Proofs.Machine.OpenValues
import LuaMachine.Proofs.Machine.Transparency

namespace LuaMachine.Machine

variable {m m' n n' : Machine} {t : ThreadId} {i j : Interpreter} {acts : List Activation} {f g : Frame}
  {below : List Frame} {word : Instruction} {op : Opcode} {id : ClosureId} {args vs : Values} {s s' : Signal}

section Replacing

/-- Only the hash and the tables matter to how arguments are laid out. -/
theorem bindArgs_congr (hhash : n.hash = m.hash) (htables : n.tables = m.tables) (p : Prototype) (args : Values) :
    (n.bindArgs p args).2 = (m.bindArgs p args).2 ∧ (n.bindArgs p args).1.tables = (m.bindArgs p args).1.tables := by
  unfold bindArgs
  dsimp only
  split
  · exact ⟨rfl, htables⟩
  · split
    · simp [addTable, hhash, htables]
    · exact ⟨rfl, htables⟩

/-- Only the hash, the closures and the tables matter to what a new frame is like. -/
theorem newFrame_congr (hhash : n.hash = m.hash) (hclosures : n.closures = m.closures) (htables : n.tables = m.tables)
    (id : ClosureId) (args : Values) (target : ReturnTarget) :
    (n.newFrame id args target).2.varargs = (m.newFrame id args target).2.varargs ∧
      (n.newFrame id args target).1.file (n.newFrame id args target).2.file =
        (m.newFrame id args target).1.file (m.newFrame id args target).2.file ∧
      (n.newFrame id args target).1.tables = (m.newFrame id args target).1.tables := by
  have hclosure : n.closure id = m.closure id := by rw [closure, hclosures, closure]
  obtain ⟨hbound, hsame⟩ := bindArgs_congr hhash htables (m.closure id).proto args
  rw [← hclosure] at hbound hsame
  refine ⟨?_, ?_, ?_⟩
  · refine (congrArg Prod.snd hbound).trans ?_
    rw [hclosure]
    rfl
  · rw [file_newFrame, file_newFrame, hbound, hclosure]
  · refine hsame.trans ?_
    rw [hclosure]
    rfl

/-- The cells of a frame that is left or replaced have the values that they had, and stand for no register. -/
theorem cell_closeCells_zero (m : Machine) (ids : List CellId) (c : CellId) :
    (m.closeCells 0 ids).1.cell c = if c ∈ ids then .closed (m.cellValue c) else m.cell c := by
  rw [cell_closeCells]
  by_cases hmem : c ∈ ids
  · rw [if_pos hmem]
    cases hcell : m.cell c with
    | onStack file i => rw [if_pos ⟨hmem, by simp [openRegister?, hcell]⟩]
    | closed v => rw [if_neg (by simp [openRegister?, hcell]), cellValue, hcell]
  · rw [if_neg fun h => hmem h.1, if_neg hmem]

/-- The function that the tail call runs which the frame `f` stands at, and its arguments. -/
def tailCallee? (m : Machine) (i : Interpreter) (f : Frame) (word : Instruction) : Option (Callee × Values) :=
  (m.fetched i f).callee? (m.register f.file word.a.toNat) (m.collect f.file f.top (word.a.toNat + 1) word.b.toNat) []

/-- In place of the frame `f` there is what a new frame of the closure would be, with the same registers for it and the
same use for its results. The cells of `f` stand for no register any more, and nothing else has changed. -/
structure Replaces (m m' : Machine) (i : Interpreter) (acts : List Activation) (f : Frame) (below : List Frame)
    (id : ClosureId) (args : Values) : Prop where
  thread : m'.thread i.thread = { m.thread i.thread with
    frames := { (m.newFrame id args f.target).2 with file := f.file, tailCalls := f.tailCalls + 1 } :: below
    instructions := (m.thread i.thread).instructions + 1 }
  registers : m'.file f.file = (m.newFrame id args f.target).1.file (m.newFrame id args f.target).2.file
  cells : ∀ c, m'.cell c = if c ∈ f.openCells then .closed (m.cellValue c) else m.cell c
  threads : ∀ u, u ≠ i.thread → m'.thread u = m.thread u
  files : ∀ file, file ≠ f.file → m'.file file = m.file file
  sizes : m'.threads.size = m.threads.size ∧ m'.files.size = m.files.size ∧ m'.cells.size = m.cells.size
  rest : m' = { m with
    inUse := []
    stack := .interpret { i with stage := .entering } :: acts
    tables := (m.newFrame id args f.target).1.tables
    threads := m'.threads
    files := m'.files
    cells := m'.cells }

/-- Rebinding a frame makes it a new one that keeps its registers' place. -/
theorem rebindTop_eq_newFrame (hframes : (m.thread t).frames = f :: below) (id : ClosureId) (args : Values) :
    let made := m.newFrame id args f.target
    let closed := (m.closeCells 0 f.openCells).1
    m.rebindTop t id args = (({ closed with tables := made.1.tables } : Machine).modifyFile f.file
      fun _ => made.1.file made.2.file).modifyTop t fun g =>
        { made.2 with file := g.file, target := g.target, tailCalls := g.tailCalls + 1 } := by
  have htop : m.topFrame? t = some f := by rw [topFrame?, hframes]; rfl
  intro made closed
  unfold rebindTop
  rw [htop, file_newFrame]
  dsimp only
  obtain ⟨cells, hcells⟩ : ∃ cells, closed = { m with cells } := m.exists_closeCells_eq 0 f.openCells
  have hclosure : closed.closure id = m.closure id := by rw [hcells]; rfl
  obtain ⟨hbound, hsame⟩ :=
    bindArgs_congr (n := closed) (m := m) (by rw [hcells]) (by rw [hcells]) (m.closure id).proto args
  obtain ⟨tables, htables⟩ := closed.exists_bindArgs_eq (m.closure id).proto args
  rw [hclosure]
  generalize closed.bindArgs (m.closure id).proto args = bound at hbound hsame htables ⊢
  have hmade : made.1.tables = tables := by
    rw [htables] at hsame
    exact hsame.symm
  rw [htables, hmade, ← hbound]
  have hvarargs : made.2.varargs = bound.2.2 := by rw [hbound]; rfl
  rw [hvarargs]
  rfl

/-- The innermost frame is rebound. -/
theorem replaces_rebindTop (h : m.About i acts f below word op) (id : ClosureId) (args : Values) :
    m.Replaces (((m.fetched i f).rebindTop i.thread id args).replaceTop (.interpret { i with stage := .entering }))
      i acts f below id args := by
  have hthread := thread_fetched h.range h.frames
  have hframes : ((m.fetched i f).thread i.thread).frames = { f with pc := f.pc + 1 } :: below := by rw [hthread]
  have hfile : f.file.index < m.files.size := h.ownFiles.exist f (by simp)
  have hacts : acts = m.stack.tail := by rw [h.stack]; rfl
  obtain ⟨hvarargs, hregisters, htables⟩ := newFrame_congr (n := m.fetched i f) (m := m) rfl rfl rfl id args f.target
  obtain ⟨cells, hcells⟩ := (m.fetched i f).exists_closeCells_eq 0 f.openCells
  have hclosed (c : CellId) := (m.fetched i f).cell_closeCells_zero f.openCells c
  have hcount := (m.fetched i f).size_closeCells 0 f.openCells
  rw [rebindTop_eq_newFrame hframes]
  dsimp only
  rw [hregisters, htables, hvarargs]
  rw [hcells] at hclosed hcount ⊢
  generalize hbase : ({ m.fetched i f with cells, tables := (m.newFrame id args f.target).1.tables } : Machine) = base
  have hown : base.thread i.thread = (m.fetched i f).thread i.thread := by rw [← hbase]; rfl
  have hothers (u : ThreadId) (hu : u ≠ i.thread) : base.thread u = m.thread u := by
    rw [← hbase]
    exact thread_modifyThread_of_ne ({ m with inUse := [] } : Machine) hu (·.movedTo (f.pc + 1))
  have hfiles : base.files = m.files := by rw [← hbase]; rfl
  have hsize : base.threads.size = m.threads.size := by
    rw [← hbase]
    simp [fetched, modifyThread, modifyAt, replaceTop]
  have hwritten := retouched_modifyFile (m := base) (by rw [hown]; exact hframes) (by rw [hfiles]; exact hfile)
    fun _ => (m.newFrame id args f.target).1.file (m.newFrame id args f.target).2.file
  have hrange : i.thread.index < (base.modifyFile f.file _).threads.size := hwritten.threads.trans hsize ▸ h.range
  have hchanged := thread_modifyTop hrange hwritten.frames fun g =>
    { (m.newFrame id args f.target).2 with file := g.file, target := g.target, tailCalls := g.tailCalls + 1 }
  refine ⟨hchanged.trans ?_, hwritten.registers, ?_, fun u hu => ?_, fun other hne => ?_, ⟨?_, ?_, ?_⟩, ?_⟩
  · rw [show (base.modifyFile f.file _).thread i.thread = base.thread i.thread from rfl, hown, hthread]
    rfl
  · rw [← hbase]
    exact hclosed
  · exact (thread_modifyThread_of_ne _ hu _).trans (hothers u hu)
  · exact (hwritten.others other hne).trans (by rw [file, hfiles]; rfl)
  · exact (retouched_modifyTop hrange hwritten.frames _).threads.trans (hwritten.threads.trans hsize)
  · exact hwritten.files.trans (congrArg Array.size hfiles)
  · rw [← hbase]
    exact hcount
  · rw [← hbase, hacts]
    rfl

/-- No captured variable is a register of what comes in place of a frame. -/
theorem Replaces.cell_ne (h : m.Replaces m' i acts f below id args) (htracked : m.Tracked)
    (hframes : (m.thread i.thread).frames = f :: below) (c : CellId) (x : Nat) : m'.cell c ≠ .onStack f.file x := by
  rw [h.cells]
  split
  · exact nofun
  · next hopen =>
    intro hcell
    exact hopen ((htracked.mem_openCells_iff (by rw [hframes]; simp)).mpr ⟨x, hcell⟩)

/-- A tail call to a closure replaces the innermost frame, unless the fuse is spent. -/
theorem About.step_tailCall (h : m.About i acts f below word .tailCall)
    (hcallee : m.tailCallee? i f word = some (.closure id, args)) :
    (∃ m' e, m.step .go = (m', .error e) ∧ ∃ fuse ∈ m.limits.fuse, fuse ≤ (m.thread i.thread).instructions) ∨
      ∃ m', m.step .go = (m', .go) ∧ m.Replaces m' i acts f below id args := by
  obtain hspent | hstep := h.step_cases
  · exact Or.inl hspent
  have htop : (m.fetched i f).openEnd i.thread = f.top := by
    rw [openEnd, topFrame?, thread_fetched h.range h.frames]
    rfl
  have hperform : (m.fetched i f).perform i ⟨f.closure, f.file, f.pc + 1⟩ word .tailCall =
      ((m.fetched i f).rebindTop i.thread id args, .enter) := by
    have htail : (m.fetched i f).perform i ⟨f.closure, f.file, f.pc + 1⟩ word .tailCall =
        (m.fetched i f).tailCallFrom i (m.register f.file word.a.toNat)
          (m.collect f.file ((m.fetched i f).openEnd i.thread) (word.a.toNat + 1) word.b.toNat) := rfl
    rw [tailCallee?] at hcallee
    rw [htail, htop, tailCallFrom, hcallee]
  dsimp only at hstep
  rw [hperform] at hstep
  exact Or.inr ⟨_, hstep, replaces_rebindTop h id args⟩

end Replacing

section Rows

/-- A thread has the frames that it had, and the innermost one is further on in its code. What it did meanwhile, calls
that came back included, does not matter. -/
structure CarriesOn (m m' : Machine) (t : ThreadId) : Prop where
  depth : (m'.thread t).depth = (m.thread t).depth
  below : (m'.thread t).frames.tail = (m.thread t).frames.tail
  head : (m'.thread t).frames.head?.map (fun f => (f.code, f.target)) =
    (m.thread t).frames.head?.map fun f => (f.code, f.target)

/-- From its innermost frame a thread makes as many tail calls to closures one after the other as the count says. -/
inductive TailCalls (m : Machine) (t : ThreadId) : Nat → Machine → Prop
  | none : TailCalls m t 0 m
  | carryOn {count : Nat} {m₁ m₂ : Machine} (hcalls : TailCalls m t count m₁) (hon : m₁.CarriesOn m₂ t) :
      TailCalls m t count m₂
  | call {count : Nat} {m₁ m₂ : Machine} {i : Interpreter} {acts : List Activation} {f : Frame} {below : List Frame}
      {word : Instruction} {id : ClosureId} {args : Values} (hcalls : TailCalls m t count m₁)
      (habout : m₁.About i acts f below word .tailCall) (hthread : i.thread = t)
      (hcallee : m₁.tailCallee? i f word = some (.closure id, args)) (hstep : m₁.step .go = (m₂, .go)) :
      TailCalls m t (count + 1) m₂

/-- An instruction that neither calls a function nor leaves its frame, and that waits for nothing. -/
theorem About.carriesOn (h : m.About i acts f below word op) (hcalls : ¬op.Calls) (hret : op ≠ .ret) {pc : Nat}
    (hgoes : ((m.fetched i f).perform i ⟨f.closure, f.file, f.pc + 1⟩ word op).2 = .goOn pc)
    (hstep : m.step .go = (m', .go)) : m.CarriesOn m' i.thread := by
  obtain ⟨m₂, e, hspent, -⟩ | hperformed := h.step_cases
  · rw [hstep] at hspent
    cases hspent
  dsimp only at hperformed
  rw [hstep, hgoes] at hperformed
  cases hperformed
  have hthread := thread_fetched h.range h.frames
  have hkept := (Retains.refl (m.fetched i f) i.thread).perform ⟨f.closure, f.file, f.pc + 1⟩ word hcalls hret
  have houtline := (m.fetched i f).outline_perform i ⟨f.closure, f.file, f.pc + 1⟩ word hcalls hret
  generalize ((m.fetched i f).perform i ⟨f.closure, f.file, f.pc + 1⟩ word op).1 = after at hkept houtline
  obtain ⟨g, hframes, hcode⟩ := hkept.own.exists_cons (by rw [hthread])
  have htarget : g.target = f.target := by
    have hown := congrArg (fun o => (o.thread i.thread).frames) houtline
    rw [outline_thread, outline_thread, Thread.outline, Thread.outline, hframes, hthread] at hown
    exact congrArg FrameOutline.target (List.cons.inj hown).1
  have hdepth : (after.thread i.thread).depth = (m.thread i.thread).depth := by
    rw [hkept.own.rest, hthread]
  refine ⟨hdepth, ?_, ?_⟩
  · exact (congrArg List.tail hframes).trans (congrArg List.tail h.frames).symm
  · refine (congrArg (fun fs => fs.head?.map fun f => (f.code, f.target)) hframes).trans ?_
    rw [h.frames, List.head?_cons, Option.map_some, hcode, htarget]
    rfl

/-- A call that is no tail call, once its results have arrived. -/
theorem Arrives.carriesOn (harrives : m.Arrives i vs m' s) (h : m.About i acts f below word op) (hop : op.Calls)
    (htail : op ≠ .tailCall) : m.CarriesOn m' i.thread := by
  have hreceived := (harrives.completed h hop).toReceived
  obtain ⟨target, hto⟩ : ∃ target, word.target? op = some target := by
    cases op <;> first | exact ⟨_, rfl⟩ | exact absurd rfl htail | cases hop
  have hframes := hreceived.frames
  rw [Instruction.destination?, hto, framesAfter] at hframes
  refine ⟨?_, by rw [hframes, h.frames]; rfl, by rw [hframes, h.frames]; rfl⟩
  rw [hreceived.depth, hframes, h.depth_eq]
  rfl

/-- However many tail calls a thread makes from a frame, there is one frame in its place, which returns to where it
does. -/
theorem TailCalls.exists_frame {count : Nat} (h : m.TailCalls t count m')
    (hframes : (m.thread t).frames = f :: below) : (m'.thread t).depth = (m.thread t).depth ∧
      ∃ g, (m'.thread t).frames = g :: below ∧ g.file = f.file ∧ g.target = f.target := by
  induction h with
  | none => exact ⟨rfl, f, hframes, rfl, rfl⟩
  | carryOn hcalls hon ih =>
    obtain ⟨hdepth, g, hown, hfile, htarget⟩ := ih
    have hhead := hon.head
    have hbelow := hon.below
    rw [hown] at hhead hbelow
    obtain ⟨g', hhead', hsame⟩ := Option.map_eq_some_iff.mp hhead
    obtain ⟨below', hown'⟩ := List.head?_eq_some_iff.mp hhead'
    rw [hown'] at hbelow
    cases hbelow
    rw [Prod.mk.injEq, Frame.code, Frame.code, Prod.mk.injEq] at hsame
    exact ⟨hon.depth.trans hdepth, g', hown', hsame.1.2.trans hfile, hsame.2.trans htarget⟩
  | call hcalls habout hthread hcallee hstep ih =>
    obtain ⟨hdepth, g, hown, hfile, htarget⟩ := ih
    subst hthread
    rw [habout.frames] at hown
    cases hown
    obtain ⟨m₃, e, hstep', -⟩ | ⟨m₃, hstep', hreplaces⟩ := habout.step_tailCall hcallee
    · rw [hstep] at hstep'
      cases hstep'
    · rw [hstep] at hstep'
      cases hstep'
      rw [hreplaces.thread]
      exact ⟨hdepth, _, rfl, hfile, htarget⟩

end Rows

section Returning

/-- The ways in which an interpreter can leave the innermost frame with the results `vs`, right away or once a native
function that it calls last has them: the machine and the signal afterwards. -/
inductive LeavesWith (m : Machine) (i : Interpreter) (f : Frame) (below : List Frame) (vs : Values) :
    Machine → Signal → Prop
  | returned {acts : List Activation} {word : Instruction} (habout : m.About i acts f below word .ret)
      (hfuse : ∀ fuse ∈ m.limits.fuse, (m.thread i.thread).instructions < fuse)
      (hvs : m.collect f.file f.top word.a.toNat word.b.toNat = vs) :
      LeavesWith m i f below vs (m.step .go).1 (m.step .go).2
  | called {acts : List Activation} {word : Instruction} {m' : Machine} {s : Signal}
      (habout : m.About i acts f below word .tailCall) (harrives : m.Arrives i vs m' s) : LeavesWith m i f below vs m' s

namespace LeavesWith

theorem frames (h : m.LeavesWith i f below vs m' s) : (m.thread i.thread).frames = f :: below := by
  cases h with
  | returned habout => exact habout.frames
  | called habout => exact habout.frames

theorem completed (h : m.LeavesWith i f below vs m' s) :
    m.Completed m' i.thread i.floor (f.destination? below i.floor) below vs s := by
  cases h with
  | returned habout hfuse hvs => exact habout.returns hfuse hvs
  | called habout harrives => exact harrives.completed habout trivial

end LeavesWith

/-- The closure that the next instruction calls answers with `vs`: in `m₁`, after any number of tail calls, its frame
is left with them, which leads to `m'`. -/
inductive Answers (m : Machine) (i : Interpreter) (vs : Values) : Machine → Machine → Signal → Prop
  | intro {entered m₁ m' : Machine} {count : Nat} {j : Interpreter} {f : Frame} {below : List Frame} {s : Signal}
      (hstep : m.step .go = (entered, .go)) (hcalls : entered.TailCalls i.thread count m₁)
      (hthread : j.thread = i.thread) (hfloor : j.floor = i.floor) (hleaves : m₁.LeavesWith j f below vs m' s) :
      Answers m i vs m₁ m' s

theorem Answers.completed {m₁ : Machine} (hanswers : m.Answers i vs m₁ m' s) (h : m.About i acts f below word op)
    (hop : op.Calls) : m₁.Completed m' i.thread i.floor (word.destination? op f below i.floor) below vs s := by
  obtain ⟨hstep, hcalls, hthread, hfloor, hleaves⟩ := hanswers
  rename_i entered count j last lower
  obtain ⟨m₂, s₂, hstep', hs⟩ | ⟨m₂, callee, lower', hstep', hentered⟩ | ⟨native, args, held, hstep'⟩ :=
    h.step_calls hop
  · rw [hstep] at hstep'
    cases hstep'
    obtain hs | ⟨e, hs⟩ := hs <;> cases hs
  · rw [hstep] at hstep'
    cases hstep'
    obtain ⟨-, g, hframes, -, htarget⟩ := hcalls.exists_frame hentered.frames
    have hlast := hleaves.frames
    rw [hthread, hframes] at hlast
    cases hlast
    have hleft := hleaves.completed
    rw [hthread, hfloor, Frame.destination?_congr htarget, hentered.destination] at hleft
    exact ⟨hleft.congr_below hentered.left, hleft.stands⟩
  · rw [hstep] at hstep'
    cases hstep'

/-- From the frame `f`, which the frames `below` are under, all results of a call are stored from register `a` on and
then all of them from there on returned: the call gets them in `m₁`, and the return leads to `m'`. -/
inductive CallsAndReturns (m : Machine) (t : ThreadId) (floor : Nat) (f : Frame) (below : List Frame) (a : Nat)
    (vs : Values) : Machine → Machine → Signal → Prop
  | intro {i j : Interpreter} {acts acts' : List Activation} {g : Frame} {call ret : Instruction} {m₁ m₂ : Machine}
      (hcall : m.About i acts f below call .call) (hthread : i.thread = t) (hfloor : i.floor = floor)
      (hbase : call.a.toNat = a) (hcount : call.c.toNat = 0) (hanswers : m.Answers i vs m₁ m₂ .go)
      (hreturn : m₂.About j acts' g below ret .ret) (hthread' : j.thread = t) (hfloor' : j.floor = floor)
      (hbase' : ret.a.toNat = a) (hcount' : ret.b.toNat = 0)
      (hfuse : ∀ fuse ∈ m₂.limits.fuse, (m₂.thread t).instructions < fuse) :
      CallsAndReturns m t floor f below a vs m₁ (m₂.step .go).1 (m₂.step .go).2

/-- What is called and returned comes to where the frame returns, as it was called. -/
theorem CallsAndReturns.completed {floor a : Nat} {m₁ : Machine} (h : m.CallsAndReturns t floor f below a vs m₁ m' s) :
    m₁.Completed m' t floor (f.destination? below floor) below vs s := by
  cases h with
  | @intro i j acts acts' g call ret m₁ m₂ hcall hthread hfloor hbase hcount hanswers hreturn hthread' hfloor' hbase'
      hcount' hfuse =>
    have hback := hanswers.completed hcall trivial
    have hto : call.destination? .call f below i.floor =
        some ⟨⟨a, none, .store⟩, { f with pc := f.pc + 1 }, below⟩ := by
      rw [Instruction.destination?, Instruction.target?, hbase, hcount]
      rfl
    rw [hto, hthread] at hback
    have hframes := hback.frames
    rw [framesAfter, ReturnTarget.frameAfter_of_store _ _ _ _ rfl] at hframes
    have hg : g = { f with pc := f.pc + 1, top := a + vs.length } := by
      rw [← hthread', hreturn.frames] at hframes
      exact (List.cons.inj hframes).1
    have hrow : m₁.HoldsRow m₂ f.file a vs := by
      intro x
      have hfile := hback.files { f with pc := f.pc + 1, top := a + vs.length } (by rw [hframes]; simp)
      rw [fileAfter, if_pos rfl, ReturnTarget.registersAfter_of_store _ _ _ rfl] at hfile
      rw [register, hfile]
      exact getD_stored ⟨a, none, .store⟩ (m₁.file f.file) vs x
    have hcollect : m₂.collect g.file g.top ret.a.toNat ret.b.toNat = vs := by
      rw [hg, hbase', hcount', hrow.collect_open (Nat.le_refl a), Nat.sub_self]
      rfl
    have hdone := hreturn.returns (by rw [hthread']; exact hfuse) hcollect
    rw [hthread', hfloor', Frame.destination?_congr (f := f) (by rw [hg])] at hdone
    refine ⟨hdone.of_files fun k hk => ?_, hdone.stands⟩
    rw [framesLeft_destination?] at hk
    have hkept := hback.files k (by rw [hframes]; simp [hk])
    rwa [fileAfter, if_neg (hcall.ownFiles.ne_of_mem hk)] at hkept

end Returning

/-- Results have come to the same frames in both machines, with the same registers, and to interpreters that go on
there, if it is not native code that gets them. -/
structure SameCaller (m n : Machine) (t : ThreadId) (floor : Nat) (s s' : Signal) : Prop where
  signal : s' = s
  frames : (n.thread t).frames = (m.thread t).frames
  depth : (n.thread t).depth = (m.thread t).depth
  files : m.FilesAgree n (m.thread t).frames fun _ _ => False
  stands : s = .go → m.StandsAt t floor ∧ n.StandsAt t floor

theorem Completed.sameCaller {floor : Nat} {dest : Option Destination}
    (hm : m.Completed m' t floor dest below vs s) (hn : n.Completed n' t floor dest below vs s')
    (hsame : m.FilesAgree n (framesLeft dest below) fun _ _ => False) : m'.SameCaller n' t floor s s' := by
  obtain ⟨hsignal, hframes, hfiles⟩ := hm.toReceived.agree hn.toReceived hsame fun _ _ _ => id
  refine ⟨hsignal, hframes, ?_, fun f hf => ?_, ?_⟩
  · rw [hm.depth, hn.depth, hframes]
  · have hagree := hfiles f hf
    exact ⟨hagree.size, fun i _ => hagree.values i fun h => h.1⟩
  · rintro rfl
    exact ⟨hm.stands rfl, hn.stands hsignal⟩

/-- Tail calls use constant stack and change nothing else. However many of them a thread has made from a frame, the
next one leaves the thread as deep, with the same frames under one that is like a new frame of the closure but for the
count of tail calls, in the same registers, and returns to where the first one does. When the closure answers, its
results come there as if it had been called for all its results and they had been returned from the same register. -/
theorem tail_calls_replace_frame {m₁ : Machine} {count : Nat} {lower : List Frame}
    (hframes : (m.thread t).frames = f :: below) (hcalls : m.TailCalls t count m₁)
    (h : m₁.About i acts g lower word .tailCall) (hthread : i.thread = t)
    (hcallee : m₁.tailCallee? i g word = some (.closure id, args))
    (hfuse : ∀ fuse ∈ m₁.limits.fuse, (m₁.thread t).instructions < fuse) :
    (∃ m₂, m₁.step .go = (m₂, .go) ∧ m.TailCalls t (count + 1) m₂ ∧ m₁.Replaces m₂ i acts g lower id args ∧
      (m₁.Tracked → ∀ c x, m₂.cell c ≠ .onStack f.file x) ∧ (m₂.thread t).depth = (m.thread t).depth ∧
      (m₂.thread t).frames =
        { (m₁.newFrame id args f.target).2 with file := f.file, tailCalls := g.tailCalls + 1 } :: below) ∧
    ∀ vs m₂ m' s, m₁.Answers i vs m₂ m' s →
      m₂.Completed m' t i.floor (f.destination? below i.floor) below vs s ∧
      ∀ (n : Machine) (caller : Frame) n₁ n' s', caller.target = f.target →
        n.CallsAndReturns t i.floor caller below word.a.toNat vs n₁ n' s' →
        m₂.FilesAgree n₁ below (fun _ _ => False) → m'.SameCaller n' t i.floor s s' := by
  subst hthread
  obtain ⟨hdepth, last, hlast, hfile, htarget⟩ := hcalls.exists_frame hframes
  rw [h.frames] at hlast
  cases hlast
  refine ⟨?_, fun vs m₂ m' s hanswers => ?_⟩
  · obtain ⟨m₂, e, -, fuse, hsome, hspent⟩ | ⟨m₂, hstep, hreplaces⟩ := h.step_tailCall hcallee
    · exact absurd (hfuse fuse hsome) (Nat.not_lt.mpr hspent)
    · refine ⟨m₂, hstep, hcalls.call h rfl hcallee hstep, hreplaces, fun htracked c x => ?_, ?_, ?_⟩
      · rw [← hfile]
        exact hreplaces.cell_ne htracked h.frames c x
      · rw [hreplaces.thread]
        exact hdepth
      · rw [hreplaces.thread, htarget, hfile]
  · have hleft := hanswers.completed h trivial
    have hto : word.destination? .tailCall g below i.floor = f.destination? below i.floor :=
      Frame.destination?_congr htarget
    rw [hto] at hleft
    refine ⟨hleft, fun n caller n₁ n' s' hsame hreturns hfiles => ?_⟩
    have hreturned := hreturns.completed
    rw [Frame.destination?_congr hsame] at hreturned
    refine hleft.sameCaller hreturned ?_
    rwa [framesLeft_destination?]

section Sample

/-- A function that calls its first argument with the others by an instruction, and returns what it gets. -/
def forwardPrototype (op : Opcode) : Prototype :=
  { paramCount := 3, stackSize := 3, code := #[.ofABC op 0 3 0, .ofABC .ret 0 0 0] }

/-- A function that calls its first argument with the others and returns the first result. -/
def relayPrototype : Prototype := { paramCount := 4, stackSize := 4, code := #[.ofABC .call 0 4 2, .ofABC .ret 0 2 0] }

/-- A thread in a function that has called one that makes a tail call to the next one, which passes 7 on by `op` to a
function that returns it. -/
def forwarding (op : Opcode) : Machine :=
  let m : Machine :=
    { limits := { fuse := none }
      closures := #[⟨relayPrototype, [], ⟨0⟩⟩, ⟨forwardPrototype .tailCall, [], ⟨0⟩⟩, ⟨forwardPrototype op, [], ⟨0⟩⟩,
        ⟨identityPrototype, [], ⟨0⟩⟩] }
  let args : Values := [.closure ⟨1⟩, .closure ⟨2⟩, .closure ⟨3⟩, .int 7]
  (((m.newThread (.closure ⟨0⟩) args).1.beginResume ⟨0⟩ none []).1.step .go).1

/-- The frame of the first function. -/
def relayFrame : Frame := ⟨⟨0⟩, relayPrototype, ⟨0⟩, [], [], 1, 0, .host, none, 0⟩

/-- The frame that it called, for the next function. -/
def forwardFrame (op : Opcode) (pc top : Nat) : Frame :=
  ⟨⟨2⟩, forwardPrototype op, ⟨1⟩, [], [], pc, top, ⟨0, some 1, .store⟩, none, 1⟩

theorem about_forwarding {m : Machine} {f : Frame} {below : List Frame} {word : Instruction} {op : Opcode}
    (hframes : (m.thread ⟨0⟩).frames = f :: below) (hdepth : (m.thread ⟨0⟩).depth = below.length + 1)
    (hrange : 0 < m.threads.size) (hidle : ∀ g ∈ f :: below, g.pending = none)
    (hfiles : OwnFiles m.files.size (f :: below))
    (hstack : m.stack = [.interpret applyInterpreter, .endResume ⟨0⟩ 0 []])
    (hcode : (m.closure f.closure).proto.code[f.pc]? = some word) (hopcode : word.opcode? = some op) :
    m.About applyInterpreter [.endResume ⟨0⟩ 0 []] f below word op :=
  ⟨.of_floor _ rfl hframes hrange hdepth nofun hidle hfiles, hstack, Or.inl rfl, hframes, hcode, hopcode⟩

/-- The function that returns 7 answers. -/
theorem answers_forwarding {m last : Machine} {f : Frame} {below : List Frame} (hstep : m.step .go = (last, .go))
    (habout : last.About applyInterpreter [.endResume ⟨0⟩ 0 []] f below (.ofABC .ret 0 2 0) .ret)
    (hfuse : last.limits.fuse = none) (hvs : last.collect f.file f.top 0 2 = [.int 7])
    (hgo : (last.step .go).2 = .go) : m.Answers applyInterpreter [.int 7] last (last.step .go).1 .go := by
  have hleaves : last.LeavesWith applyInterpreter f below [.int 7] (last.step .go).1 (last.step .go).2 :=
    .returned habout (by simp [hfuse]) hvs
  rw [hgo] at hleaves
  exact .intro hstep .none rfl rfl hleaves

/-- The second tail call has its result. -/
theorem answers_forwarding_tailCall : ∃ m₂ m',
    ((forwarding .tailCall).step .go).1.Answers applyInterpreter [.int 7] m₂ m' .go ∧
      m₂.file relayFrame.file = #[.closure ⟨1⟩, .closure ⟨2⟩, .closure ⟨3⟩, .int 7, .nil] := by
  obtain ⟨last, hlast⟩ : ∃ last, last = (((forwarding .tailCall).step .go).1.step .go).1 := ⟨_, rfl⟩
  let identityFrame : Frame := ⟨⟨3⟩, identityPrototype, ⟨1⟩, [], [], 0, 0, ⟨0, some 1, .store⟩, none, 2⟩
  have habout : last.About applyInterpreter [.endResume ⟨0⟩ 0 []] identityFrame [relayFrame] (.ofABC .ret 0 2 0)
      .ret := by
    subst hlast
    exact about_forwarding (by rfl) (by rfl) (by decide) (by simp [identityFrame, relayFrame])
      ⟨by decide, by decide⟩ (by rfl) (by rfl) (by rfl)
  refine ⟨last, _, answers_forwarding ?_ habout ?_ ?_ ?_, ?_⟩
  all_goals
    subst hlast
    rfl

/-- The call in place of the second tail call has its result and returns it. -/
theorem callsAndReturns_forwarding : ∃ n₁ n', ((forwarding .call).step .go).1.CallsAndReturns ⟨0⟩ 0
    (forwardFrame .call 0 0) [relayFrame] 0 [.int 7] n₁ n' .go ∧
      n₁.file relayFrame.file = #[.closure ⟨1⟩, .closure ⟨2⟩, .closure ⟨3⟩, .int 7, .nil] := by
  obtain ⟨last, hlast⟩ : ∃ last, last = (((forwarding .call).step .go).1.step .go).1 := ⟨_, rfl⟩
  obtain ⟨back, hback⟩ : ∃ back, back = (last.step .go).1 := ⟨_, rfl⟩
  let identityFrame : Frame := ⟨⟨3⟩, identityPrototype, ⟨2⟩, [], [], 0, 0, ⟨0, none, .store⟩, none, 0⟩
  have hcall : ((forwarding .call).step .go).1.About applyInterpreter [.endResume ⟨0⟩ 0 []] (forwardFrame .call 0 0)
      [relayFrame] (.ofABC .call 0 3 0) .call :=
    about_forwarding (by rfl) (by rfl) (by decide) (by simp [forwardFrame, relayFrame]) ⟨by decide, by decide⟩
      (by rfl) (by rfl) (by rfl)
  have hreturned : last.About applyInterpreter [.endResume ⟨0⟩ 0 []] identityFrame [forwardFrame .call 1 0, relayFrame]
      (.ofABC .ret 0 2 0) .ret := by
    subst hlast
    exact about_forwarding (by rfl) (by rfl) (by decide) (by simp [identityFrame, forwardFrame, relayFrame])
      ⟨by decide, by decide⟩ (by rfl) (by rfl) (by rfl)
  have hreturn : back.About applyInterpreter [.endResume ⟨0⟩ 0 []] (forwardFrame .call 1 1) [relayFrame]
      (.ofABC .ret 0 0 0) .ret := by
    subst hback hlast
    exact about_forwarding (by rfl) (by rfl) (by decide) (by simp [forwardFrame, relayFrame])
      ⟨by decide, by decide⟩ (by rfl) (by rfl) (by rfl)
  have hanswers : ((forwarding .call).step .go).1.Answers applyInterpreter [.int 7] last back .go := by
    rw [hback]
    refine answers_forwarding ?_ hreturned ?_ ?_ ?_
    all_goals
      subst hlast
      rfl
  have hfuse : back.limits.fuse = none := by
    subst hback hlast
    rfl
  have hgo : (back.step .go).2 = .go := by
    subst hback hlast
    rfl
  have hboth : ((forwarding .call).step .go).1.CallsAndReturns ⟨0⟩ 0 (forwardFrame .call 0 0) [relayFrame] 0 [.int 7]
      last (back.step .go).1 (back.step .go).2 :=
    .intro hcall rfl rfl rfl rfl hanswers hreturn rfl rfl rfl rfl (by simp [hfuse])
  rw [hgo] at hboth
  refine ⟨last, _, hboth, ?_⟩
  subst hlast
  rfl

/-- After two tail calls there is one frame, and what is returned in the end is what a call would have brought. -/
theorem tail_calls_replace_frame_forwarding : ∃ m₁ m₂ m' n' : Machine, (forwarding .tailCall).TailCalls ⟨0⟩ 1 m₁ ∧
    m₁.step .go = (m₂, .go) ∧ (forwarding .tailCall).TailCalls ⟨0⟩ 2 m₂ ∧ (m₂.thread ⟨0⟩).depth = 2 ∧
      m'.SameCaller n' ⟨0⟩ 0 .go .go := by
  let firstFrame : Frame := ⟨⟨1⟩, forwardPrototype .tailCall, ⟨1⟩, [], [], 0, 0, ⟨0, some 1, .store⟩, none, 0⟩
  have hfirst : (forwarding .tailCall).About applyInterpreter [.endResume ⟨0⟩ 0 []] firstFrame [relayFrame]
      (.ofABC .tailCall 0 3 0) .tailCall :=
    about_forwarding (by rfl) (by rfl) (by decide) (by simp [firstFrame, relayFrame]) ⟨by decide, by decide⟩
      (by rfl) (by rfl) (by rfl)
  obtain ⟨second, hsecond⟩ : ∃ second, second = ((forwarding .tailCall).step .go).1 := ⟨_, rfl⟩
  have hcalls : (forwarding .tailCall).TailCalls ⟨0⟩ 1 second := by
    have hcallee : (forwarding .tailCall).tailCallee? applyInterpreter firstFrame (.ofABC .tailCall 0 3 0) =
        some (.closure ⟨2⟩, [.closure ⟨3⟩, .int 7]) := by rfl
    refine TailCalls.none.call hfirst rfl hcallee ?_
    subst hsecond
    rfl
  have habout : second.About applyInterpreter [.endResume ⟨0⟩ 0 []] (forwardFrame .tailCall 0 0) [relayFrame]
      (.ofABC .tailCall 0 3 0) .tailCall := by
    subst hsecond
    exact about_forwarding (by rfl) (by rfl) (by decide) (by simp [forwardFrame, relayFrame]) ⟨by decide, by decide⟩
      (by rfl) (by rfl) (by rfl)
  have hcallee : second.tailCallee? applyInterpreter (forwardFrame .tailCall 0 0) (.ofABC .tailCall 0 3 0) =
      some (.closure ⟨3⟩, [.int 7, .nil]) := by
    subst hsecond
    rfl
  have hfuse : second.limits.fuse = none := by
    subst hsecond
    rfl
  obtain ⟨⟨m₂, hstep, htwice, -, -, hdepth, -⟩, hreturns⟩ :=
    tail_calls_replace_frame hfirst.frames hcalls habout rfl hcallee (by simp [hfuse])
  obtain ⟨last, m', hanswers, hfile⟩ := answers_forwarding_tailCall
  obtain ⟨called, n', hboth, hfile'⟩ := callsAndReturns_forwarding
  rw [← hsecond] at hanswers
  refine ⟨second, m₂, m', n', hcalls, hstep, htwice, hdepth, ?_⟩
  refine (hreturns [.int 7] last m' .go hanswers).2 _ (forwardFrame .call 0 0) called n' .go rfl hboth ?_
  intro f hf
  rw [List.mem_singleton.mp hf]
  have hsame := hfile'.trans hfile.symm
  exact ⟨by rw [hsame], fun _ _ => by rw [hsame]⟩

end Sample

end LuaMachine.Machine
