import LuaMachine.Proofs.Machine.Results
import LuaMachine.Proofs.Machine.Running

namespace LuaMachine

/-- The instructions that call functions. -/
def Opcode.Calls : Opcode → Prop
  | .call => True
  | .tForLoop => True
  | .tailCall => True
  | _ => False

namespace Instruction

/-- Where an instruction that calls a function wants the results; a tail call returns them instead. -/
def target? (word : Instruction) : Opcode → Option ReturnTarget
  | .call => some ⟨word.a.toNat, if word.c.toNat = 0 then none else some (word.c.toNat - 1), .store⟩
  | .tForLoop => some ⟨word.a.toNat + 3, some word.c.toNat, .forIterator⟩
  | _ => none

theorem target?_ne_host {word : Instruction} {op : Opcode} {target : ReturnTarget}
    (h : word.target? op = some target) : target.continuation ≠ .host := by
  unfold target? at h
  split at h <;> cases h <;> exact nofun

/-- Where the results of the call go: to the frame `caller` itself, which stands behind the instruction, or to where
it returns. -/
def destination? (word : Instruction) (op : Opcode) (caller : Frame) (below : List Frame) (floor : Nat) :
    Option Destination :=
  match word.target? op with
  | some target => some ⟨target, { caller with pc := caller.pc + 1 }, below⟩
  | none => caller.destination? below floor

/-- What the frame `caller` keeps pending while a native function that the instruction calls has yielded. -/
def pendingCall (word : Instruction) (op : Opcode) (caller : Frame) : PendingCall :=
  match word.target? op with
  | some target => ⟨target, false⟩
  | none => ⟨caller.target, true⟩

/-- What the interpreter does with the results of a native function that the instruction calls. -/
def sequel (word : Instruction) (op : Opcode) (held : Values) : Sequel :=
  match word.target? op with
  | some target => .deliver target held
  | none => .leave held

end Instruction

namespace Machine

/-- What the bookkeeping of calls says about the frames that an interpreter runs: they are counted and none of them
waits for a native call, each one has registers of its own, and an interpreter leaves frames to another one only if a
call from native code is in progress. A machine that is only used through its operations is always in order. -/
structure InOrder (m : Machine) (i : Interpreter) : Prop where
  range : i.thread.index < m.threads.size
  depth : (m.thread i.thread).depth = (m.thread i.thread).frames.length
  floor : i.floor < (m.thread i.thread).frames.length
  native : (m.thread i.thread).nativeDepth = 0 → i.floor = 0
  idle : ∀ f ∈ (m.thread i.thread).frames.take ((m.thread i.thread).frames.length - i.floor), f.pending = none
  files : OwnFiles m.files.size (m.thread i.thread).frames

/-- An interpreter is about to run an instruction of the innermost frame `f`. -/
structure About (m : Machine) (i : Interpreter) (acts : List Activation) (f : Frame) (below : List Frame)
    (word : Instruction) (op : Opcode) : Prop extends m.InOrder i where
  stack : m.stack = .interpret i :: acts
  stage : i.stage = .entering ∨ i.stage = .running ⟨f.closure, f.file, f.pc⟩
  frames : (m.thread i.thread).frames = f :: below
  code : (m.closure f.closure).proto.code[f.pc]? = some word
  opcode : word.opcode? = some op

variable {m m' n n' : Machine} {i j : Interpreter} {acts : List Activation} {f caller : Frame} {below : List Frame}
  {word : Instruction} {op : Opcode}

namespace About

theorem depth_eq (h : m.About i acts f below word op) : (m.thread i.thread).depth = below.length + 1 := by
  rw [h.depth, h.frames, List.length_cons]

theorem floor_le (h : m.About i acts f below word op) : i.floor ≤ below.length := by
  have hfloor := h.floor
  rw [h.frames, List.length_cons] at hfloor
  exact Nat.le_of_lt_succ hfloor

theorem ownFiles (h : m.About i acts f below word op) : OwnFiles m.files.size (f :: below) := by
  rw [← h.frames]
  exact h.files

theorem pending_of_mem (h : m.About i acts f below word op) {g : Frame}
    (hg : g ∈ (f :: below).take (below.length + 1 - i.floor)) : g.pending = none := by
  refine h.idle g ?_
  rwa [h.frames, List.length_cons]

theorem pending_eq (h : m.About i acts f below word op) : f.pending = none := by
  refine h.pending_of_mem ?_
  rw [Nat.sub_add_comm h.floor_le, List.take_succ_cons]
  exact List.mem_cons_self

end About

/-- The machine once the interpreter has fetched the instruction that the frame `f` stands at. -/
def fetched (m : Machine) (i : Interpreter) (f : Frame) : Machine :=
  ({ m with inUse := [] }.replaceTop (.interpret { i with stage := .running ⟨f.closure, f.file, f.pc⟩ })).modifyThread
    i.thread (·.movedTo (f.pc + 1))

/-- An interpreter that stands at an instruction has looked up its frame. -/
theorem replaceTop_running {w : Window} (hstack : m.stack = .interpret i :: acts) (hstage : i.stage = .running w) :
    m.replaceTop (.interpret { i with stage := .running w }) = m := by
  have hsame : Activation.interpret { i with stage := .running w } :: m.stack.tail = m.stack := by
    rw [hstack, ← hstage]
    rfl
  rw [replaceTop, hsame]

/-- The next step runs the instruction, unless the fuse is spent. -/
theorem About.step_cases (h : m.About i acts f below word op) :
    (∃ m' e, m.step .go = (m', .error e) ∧
      ∃ fuse ∈ m.limits.fuse, fuse ≤ (m.thread i.thread).instructions) ∨
    let w : Window := ⟨f.closure, f.file, f.pc + 1⟩
    let performed := (m.fetched i f).perform i w word op
    m.step .go = performed.1.conclude i w performed.2 := by
  set reading : Machine :=
    { m with inUse := [] }.replaceTop (.interpret { i with stage := .running ⟨f.closure, f.file, f.pc⟩ }) with hreading
  have htop : ({ m with inUse := [] } : Machine).topFrame? i.thread = some f := by
    rw [topFrame?, show ({ m with inUse := [] } : Machine).thread i.thread = m.thread i.thread from rfl, h.frames]
    rfl
  have hadvance : m.step .go = reading.advance i ⟨f.closure, f.file, f.pc⟩ := by
    rw [step_cons h.stack (by rintro _ _ _ ⟨⟩)]
    show ({ m with inUse := [] } : Machine).interpret i .go = _
    unfold interpret
    rcases h.stage with hstage | hstage
    · rw [hstage]
      dsimp only
      rw [enter, htop]
    · have hsame : reading = { m with inUse := [] } := replaceTop_running h.stack hstage
      rw [hstage, hsame]
  have hfetch : reading.fetch i ⟨f.closure, f.file, f.pc⟩ =
      (m.fetched i f).perform i ⟨f.closure, f.file, f.pc + 1⟩ word op := by
    unfold fetch
    rw [show (reading.closure f.closure).proto.code[f.pc]? = some word from h.code]
    dsimp only
    rw [if_neg (by rw [show reading.thread i.thread = m.thread i.thread from rfl, h.frames]; simp), h.opcode]
    rfl
  rw [hadvance]
  unfold advance execute
  rw [hfetch]
  dsimp only
  cases hfuse : reading.limits.fuse with
  | none => exact Or.inr rfl
  | some fuse =>
    dsimp only
    split
    · rename_i hspent
      exact Or.inl ⟨_, _, rfl, fuse, hfuse, hspent⟩
    · exact Or.inr rfl

/-- The innermost frame stands behind the instruction, which counts. -/
theorem thread_fetched (hrange : i.thread.index < m.threads.size) (hframes : (m.thread i.thread).frames = f :: below) :
    (m.fetched i f).thread i.thread = { m.thread i.thread with
      frames := { f with pc := f.pc + 1 } :: below
      instructions := (m.thread i.thread).instructions + 1 } := by
  have hmoved : (m.fetched i f).thread i.thread = (m.thread i.thread).movedTo (f.pc + 1) :=
    thread_modifyThread (m := { m with inUse := [], stack := _ }) hrange _
  rw [hmoved]
  rcases hown : m.thread i.thread with ⟨_, _, frames, _, _, _, _, _, _, _⟩
  rw [hown] at hframes
  dsimp only at hframes
  subst hframes
  rfl

/-- Of the machine only the innermost frame has changed, and the work of the interpreter. -/
theorem fetched_retouched (hrange : i.thread.index < m.threads.size)
    (hframes : (m.thread i.thread).frames = f :: below) :
    (m.replaceTop (.interpret { i with stage := .running ⟨f.closure, f.file, f.pc⟩ })).Retouched
      (m.fetched i f) i.thread
      f { f with pc := f.pc + 1 } below (m.file f.file) := by
  have hthread := thread_fetched hrange hframes
  refine ⟨by rw [hthread], ?_, rfl, fun _ _ => rfl, rfl, by simp [fetched, modifyThread, modifyAt, replaceTop], rfl⟩
  rw [hthread]
  rfl

/-- An instruction that calls a function calls it for its own frame, or in place of it. -/
theorem exists_perform_eq (m : Machine) (i : Interpreter) (word : Instruction) (hop : op.Calls) (w : Window) :
    ∃ callee args, m.perform i w word op =
      match word.target? op with
      | some target => m.callFrom i w callee args target
      | none => m.tailCallFrom i callee args := by
  cases op <;> first | exact ⟨_, _, rfl⟩ | cases hop

theorem callFrom_cases (w : Window) (callee : Value) (args : Values) (target : ReturnTarget) :
    (∃ m' s, m.callFrom i w callee args target = (m', .stop s) ∧ (s = .frameLimit ∨ ∃ e, s = .error e)) ∨
      (∃ m' id args', m.pushFrame i.thread id args' target = (m', .go) ∧
        m.callFrom i w callee args target = (m', .enter)) ∨
      ∃ id args' held, m.callFrom i w callee args target = (m, .invoke id args' (.deliver target held)) := by
  unfold callFrom
  split
  · exact Or.inl ⟨_, _, rfl, Or.inr ⟨_, rfl⟩⟩
  · rename_i id args' _
    split
    · exact Or.inl ⟨_, _, rfl, Or.inl rfl⟩
    · cases hpushed : m.pushFrame i.thread id args' target with | mk m' s =>
      obtain rfl | ⟨e, rfl⟩ := pushFrame_signal hpushed
      · exact Or.inr (Or.inl ⟨m', id, args', hpushed, rfl⟩)
      · exact Or.inl ⟨m', _, rfl, Or.inr ⟨e, rfl⟩⟩
  · exact Or.inr (Or.inr ⟨_, _, _, rfl⟩)

theorem tailCallFrom_cases (callee : Value) (args : Values) :
    (∃ e, m.tailCallFrom i callee args = (m, .stop (.error e))) ∨
      (∃ id args', m.tailCallFrom i callee args = (m.rebindTop i.thread id args', .enter)) ∨
      ∃ id args' held, m.tailCallFrom i callee args = (m, .invoke id args' (.leave held)) := by
  unfold tailCallFrom
  split
  · exact Or.inl ⟨_, rfl⟩
  · exact Or.inr (Or.inl ⟨_, _, rfl⟩)
  · exact Or.inr (Or.inr ⟨_, _, _, rfl⟩)

/-- A closure that the instruction calls has a frame on top, and its results will go where those of the instruction
go. -/
structure Entered (m m' : Machine) (t : ThreadId) (dest : Option Destination) (below : List Frame) (floor : Nat)
    (callee : Frame) (lower : List Frame) : Prop where
  frames : (m'.thread t).frames = callee :: lower
  destination : callee.destination? lower floor = dest
  left : framesLeft dest lower = framesLeft dest below
  files : ∀ g ∈ lower, m'.file g.file = m.file g.file

theorem Entered.of_eq {t : ThreadId} {dest : Option Destination} {floor : Nat} {callee : Frame} {lower : List Frame}
    (h : m.Entered m' t dest below floor callee lower) (hthreads : n.threads = m'.threads)
    (hfiles : n.files = m'.files) : m.Entered n t dest below floor callee lower := by
  refine ⟨?_, h.destination, h.left, fun g hg => ?_⟩
  · rw [thread, hthreads]
    exact h.frames
  · rw [file, hfiles]
    exact h.files g hg

theorem entered_pushFrame (h : m.About i acts f below word op) {target : ReturnTarget}
    (htarget : word.target? op = some target) {id : ClosureId} {args : Values}
    (hpushed : (m.fetched i f).pushFrame i.thread id args target = (m', .go)) :
    ∃ callee lower, m.Entered m' i.thread (word.destination? op f below i.floor) below i.floor callee lower := by
  have hfetched := fetched_retouched h.range h.frames
  obtain ⟨⟨callee, hframes, hcallee⟩, hkept⟩ := pushFrame_go (by rw [hfetched.threads]; exact h.range) hpushed
  rw [hfetched.frames] at hframes
  have hto : word.destination? op f below i.floor = some ⟨target, { f with pc := f.pc + 1 }, below⟩ := by
    rw [Instruction.destination?, htarget]
  refine ⟨callee, _, hframes, ?_, by rw [hto]; rfl, fun g hg => ?_⟩
  · rw [hto, Frame.destination?, hcallee, if_neg]
    rintro (hfloor | hhost)
    · have := h.floor_le
      rw [List.length_cons] at hfloor
      omega
    · exact Instruction.target?_ne_host htarget hhost
  · have hexists : g.file.index < m.files.size := by
      rcases List.mem_cons.mp hg with rfl | hbelow
      · exact h.ownFiles.exist f (by simp)
      · exact h.ownFiles.exist g (by simp [hbelow])
    rw [hkept _ (by rw [hfetched.files]; exact hexists)]
    by_cases hown : g.file = f.file
    · rw [hown]
      exact hfetched.registers
    · exact hfetched.others _ hown

theorem entered_rebindTop (h : m.About i acts f below word op) (htarget : word.target? op = none) (id : ClosureId)
    (args : Values) : ∃ callee lower, m.Entered ((m.fetched i f).rebindTop i.thread id args) i.thread
      (word.destination? op f below i.floor) below i.floor callee lower := by
  have hfetched := fetched_retouched h.range h.frames
  obtain ⟨⟨callee, hframes, hcallee⟩, hkept⟩ :=
    rebindTop_spec (by rw [hfetched.threads]; exact h.range) hfetched.frames id args
  have hto : word.destination? op f below i.floor = f.destination? below i.floor := by
    rw [Instruction.destination?, htarget]
  refine ⟨callee, below, hframes, ?_, rfl, fun g hg => ?_⟩
  · rw [hto]
    exact Frame.destination?_congr hcallee
  · have hne : g.file ≠ f.file := h.ownFiles.ne_of_mem hg
    rw [hkept _ hne]
    exact hfetched.others _ hne

/-- The next step of an interpreter that calls a function: it fails, it enters a closure, or it waits for a native
function. -/
theorem About.step_calls (h : m.About i acts f below word op) (hop : op.Calls) :
    (∃ m' s, m.step .go = (m', s) ∧ (s = .frameLimit ∨ ∃ e, s = .error e)) ∨
      (∃ m' callee lower, m.step .go = (m', .go) ∧
        m.Entered m' i.thread (word.destination? op f below i.floor) below i.floor callee lower) ∨
      ∃ id args held, m.step .go = ((m.fetched i f).replaceTop
        (.interpret { i with stage := .waiting ⟨f.closure, f.file, f.pc + 1⟩ (word.sequel op held) }),
        .invoke i.thread id args) := by
  obtain ⟨m', e, hstep, -⟩ | hstep := h.step_cases
  · exact Or.inl ⟨m', _, hstep, Or.inr ⟨e, rfl⟩⟩
  rw [hstep]
  obtain ⟨callee, args, hperform⟩ := (m.fetched i f).exists_perform_eq i word hop
    ⟨f.closure, f.file, f.pc + 1⟩
  rw [hperform]
  cases htarget : word.target? op with
  | some target =>
    dsimp only
    obtain ⟨m', s, hcalled, hs⟩ | ⟨m', id, args', hpushed, hcalled⟩ | ⟨id, args', held, hcalled⟩ :=
      callFrom_cases (m := m.fetched i f) (i := i) ⟨f.closure, f.file, f.pc + 1⟩ callee args target
    · rw [hcalled]
      obtain rfl | ⟨e, rfl⟩ := hs
      · exact Or.inl ⟨_, _, rfl, Or.inl rfl⟩
      · exact Or.inl ⟨_, _, rfl, Or.inr ⟨_, rfl⟩⟩
    · rw [hcalled]
      obtain ⟨top, lower, hentered⟩ := entered_pushFrame h htarget hpushed
      exact Or.inr (Or.inl ⟨_, top, lower, rfl, hentered.of_eq rfl rfl⟩)
    · rw [hcalled]
      exact Or.inr (Or.inr ⟨id, args', held, by rw [Instruction.sequel, htarget]; rfl⟩)
  | none =>
    dsimp only
    obtain ⟨e, hcalled⟩ | ⟨id, args', hcalled⟩ | ⟨id, args', held, hcalled⟩ :=
      tailCallFrom_cases (m := m.fetched i f) (i := i) callee args
    · rw [hcalled]
      exact Or.inl ⟨_, _, rfl, Or.inr ⟨_, rfl⟩⟩
    · rw [hcalled]
      obtain ⟨top, lower, hentered⟩ := entered_rebindTop h htarget id args'
      exact Or.inr (Or.inl ⟨_, top, lower, rfl, hentered.of_eq rfl rfl⟩)
    · rw [hcalled]
      exact Or.inr (Or.inr ⟨id, args', held, by rw [Instruction.sequel, htarget]; rfl⟩)

end Machine

end LuaMachine
