import LuaMachine.Machine.Step
import LuaMachine.Proofs.Machine.Storing
import Mathlib.Tactic.Set

namespace LuaMachine

/-- A frame that gets the results of a call, and the frames under it. -/
structure Destination where
  target : ReturnTarget
  frame : Frame
  under : List Frame

/-- Where the results go when a frame is left with the frames `below` under it, by an interpreter that stops at
`floor`: to the frame below, or to native code. -/
def Frame.destination? (f : Frame) (below : List Frame) (floor : Nat) : Option Destination :=
  match below with
  | [] => none
  | g :: under => if below.length ≤ floor ∨ f.target.continuation = .host then none else some ⟨f.target, g, under⟩

theorem Frame.destination?_of_host {f : Frame} {below : List Frame} {floor : Nat}
    (h : below.length ≤ floor ∨ f.target.continuation = .host) : f.destination? below floor = none := by
  cases below with
  | nil => rfl
  | cons g under => exact if_pos h

theorem Frame.destination?_congr {f g : Frame} (h : g.target = f.target) {below : List Frame} {floor : Nat} :
    g.destination? below floor = f.destination? below floor := by
  cases below with
  | nil => rfl
  | cons => rw [destination?, destination?, h]

namespace Machine

/-- The frames that are left when the results of a call come to where they go. -/
def framesLeft (dest : Option Destination) (below : List Frame) : List Frame :=
  match dest with
  | none => below
  | some d => d.frame :: d.under

theorem framesLeft_destination? (f : Frame) (below : List Frame) (floor : Nat) :
    framesLeft (f.destination? below floor) below = below := by
  cases below with
  | nil => rfl
  | cons g under =>
    rw [Frame.destination?]
    split <;> rfl

/-- The frames of a thread once the results `vs` of a call have come to where they go; `below` are left if that is
native code. -/
def framesAfter (m : Machine) (dest : Option Destination) (below : List Frame) (vs : Values) : List Frame :=
  match dest with
  | none => below
  | some d => d.target.frameAfter d.frame (m.file d.frame.file) vs :: d.under

/-- The registers of a frame's file after that. -/
def fileAfter (m : Machine) (dest : Option Destination) (vs : Values) (id : FileId) : Array Value :=
  match dest with
  | none => m.file id
  | some d => if id = d.frame.file then d.target.registersAfter (m.file id) vs else m.file id

/-- The results `vs` of a call have come to where they go: to a frame, with which the interpreter goes on, or to native
code, and nothing else has changed in the thread's frames. -/
structure Received (m m' : Machine) (t : ThreadId) (dest : Option Destination) (below : List Frame) (vs : Values)
    (s : Signal) : Prop where
  signal : s = if dest.isSome then .go else .values vs
  frames : (m'.thread t).frames = m.framesAfter dest below vs
  depth : (m'.thread t).depth = (m'.thread t).frames.length
  files : ∀ f ∈ (m'.thread t).frames, m'.file f.file = m.fileAfter dest vs f.file

/-- Each of the frames has registers of its own, out of `count` register files. -/
structure OwnFiles (count : Nat) (frames : List Frame) : Prop where
  distinct : (frames.map Frame.file).Nodup
  exist : ∀ f ∈ frames, f.file.index < count

theorem OwnFiles.ne_of_mem {count : Nat} {f : Frame} {below : List Frame} (h : OwnFiles count (f :: below)) {g : Frame}
    (hg : g ∈ below) : g.file ≠ f.file := by
  have hnotin := (List.nodup_cons.mp h.distinct).1
  intro heq
  rw [← heq] at hnotin
  exact hnotin (List.mem_map_of_mem hg)

variable {m m' : Machine} {t : ThreadId}

section Access

theorem thread_modifyThread (h : t.index < m.threads.size) (f : Thread → Thread) :
    (m.modifyThread t f).thread t = f (m.thread t) := by
  rw [thread, modifyThread, modifyAt, Array.getElem?_modify, if_pos rfl, Array.getElem?_eq_getElem h, thread,
    Array.getElem?_eq_getElem h]
  rfl

theorem file_modifyFile {id : FileId} (h : id.index < m.files.size) (f : Array Value → Array Value) :
    (m.modifyFile id f).file id = f (m.file id) := by
  rw [file, modifyFile, modifyAt, Array.getElem?_modify, if_pos rfl, Array.getElem?_eq_getElem h, file,
    Array.getElem?_eq_getElem h]
  rfl

theorem file_modifyFile_of_ne {id other : FileId} (h : other ≠ id) (f : Array Value → Array Value) :
    (m.modifyFile id f).file other = m.file other := by
  have hindex : id.index ≠ other.index := by
    intro heq
    apply h
    cases id
    cases other
    simp_all
  simp [file, modifyFile, modifyAt, Array.getElem?_modify, hindex]

theorem thread_modifyTop (h : t.index < m.threads.size) {top : Frame} {rest : List Frame}
    (hframes : (m.thread t).frames = top :: rest) (f : Frame → Frame) :
    (m.modifyTop t f).thread t = { m.thread t with frames := f top :: rest } := by
  rw [modifyTop, thread_modifyThread h]
  rcases hthread : m.thread t with ⟨_, _, frames, _, _, _, _, _, _, _⟩
  rw [hthread] at hframes
  dsimp only at hframes
  subst hframes
  rfl

end Access

/-- Of a thread only the innermost frame and its registers have changed. -/
structure Retouched (m m' : Machine) (t : ThreadId) (f f' : Frame) (under : List Frame) (registers : Array Value) :
    Prop where
  frames : (m'.thread t).frames = f' :: under
  depth : (m'.thread t).depth = (m.thread t).depth
  registers : m'.file f.file = registers
  others : ∀ id, id ≠ f.file → m'.file id = m.file id
  stack : m'.stack = m.stack
  threads : m'.threads.size = m.threads.size
  files : m'.files.size = m.files.size

variable {f : Frame} {under : List Frame}

theorem retouched_modifyTop (hrange : t.index < m.threads.size) (hframes : (m.thread t).frames = f :: under)
    (g : Frame → Frame) : m.Retouched (m.modifyTop t g) t f (g f) under (m.file f.file) := by
  have hthread := thread_modifyTop hrange hframes g
  exact ⟨by rw [hthread], by rw [hthread], rfl, fun _ _ => rfl, rfl, by simp [modifyTop, modifyThread, modifyAt], rfl⟩

theorem retouched_modifyFile (hframes : (m.thread t).frames = f :: under) (hfile : f.file.index < m.files.size)
    (g : Array Value → Array Value) : m.Retouched (m.modifyFile f.file g) t f f under (g (m.file f.file)) :=
  ⟨hframes, rfl, file_modifyFile hfile g, fun _ hne => file_modifyFile_of_ne hne g, rfl, rfl,
    by simp [modifyFile, modifyAt]⟩

theorem Retouched.trans {m₁ m₂ : Machine} {f₁ f₂ : Frame} {first second : Array Value}
    (h₁ : m.Retouched m₁ t f f₁ under first) (hfile : f₁.file = f.file) (h₂ : m₁.Retouched m₂ t f₁ f₂ under second) :
    m.Retouched m₂ t f f₂ under second :=
  ⟨h₂.frames, h₂.depth.trans h₁.depth, by rw [← hfile]; exact h₂.registers, fun id hne =>
    (h₂.others id (by rwa [hfile])).trans (h₁.others id hne), h₂.stack.trans h₁.stack, h₂.threads.trans h₁.threads,
    h₂.files.trans h₁.files⟩

/-- Results are stored in the innermost frame. -/
theorem storeResults_retouched (hrange : t.index < m.threads.size) (hframes : (m.thread t).frames = f :: under)
    (hfile : f.file.index < m.files.size) (target : ReturnTarget) (vs : Values) :
    ∃ m', m.storeResults t target vs = (m', .go) ∧ m.Retouched m' t f
      { f with top := if target.count = none then target.base + vs.length else f.top } under
      (target.stored (m.file f.file) vs) := by
  have htop : m.topFrame? t = some f := by rw [topFrame?, hframes]; rfl
  unfold storeResults ReturnTarget.stored
  rw [htop]
  dsimp only
  cases hcount : target.count with
  | none =>
    have hstored := retouched_modifyFile hframes hfile
      fun registers => writeRow (growTo registers (target.base + vs.length)) target.base vs
    refine ⟨_, rfl, hstored.trans rfl ?_⟩
    have htouched := retouched_modifyTop (by rw [hstored.threads]; exact hrange) hstored.frames
      fun f => { f with top := target.base + vs.length }
    rwa [hstored.registers] at htouched
  | some count => exact ⟨_, rfl, retouched_modifyFile hframes hfile _⟩

/-- A loop takes its step once its results are stored. -/
theorem iteratorStep_retouched (hrange : t.index < m.threads.size) (hframes : (m.thread t).frames = f :: under)
    (hfile : f.file.index < m.files.size) (a : Nat) :
    let control := (m.file f.file)[a + 3]?.getD .nil
    ∃ m', m.iteratorStep t a = (m', .go) ∧ m.Retouched m' t f
      { f with pc := if control.isNil then f.pc + 1 else f.pc } under
      (if control.isNil then m.file f.file else (m.file f.file).setIfInBounds (a + 2) control) := by
  have htop : m.topFrame? t = some f := by rw [topFrame?, hframes]; rfl
  intro control
  unfold iteratorStep
  rw [htop]
  dsimp only
  rw [show m.register f.file (a + 3) = control from rfl]
  by_cases hnil : control.isNil = true
  · rw [if_pos hnil, if_pos hnil, if_pos hnil]
    exact ⟨_, rfl, retouched_modifyTop hrange hframes _⟩
  · rw [if_neg hnil, if_neg hnil, if_neg hnil]
    exact ⟨_, rfl, retouched_modifyFile hframes hfile _⟩

/-- Results reach the innermost frame. -/
theorem deliver_retouched (hrange : t.index < m.threads.size) (hframes : (m.thread t).frames = f :: under)
    (hfile : f.file.index < m.files.size) {target : ReturnTarget} (htarget : target.continuation ≠ .host)
    (vs : Values) : ∃ m', m.deliver t target vs = (m', .go) ∧
      m.Retouched m' t f (target.frameAfter f (m.file f.file) vs) under
      (target.registersAfter (m.file f.file) vs) := by
  obtain ⟨m₁, hstored, hfirst⟩ := storeResults_retouched hrange hframes hfile target vs
  rcases hcont : target.continuation with _ | _ | _
  · refine ⟨m₁, by rw [deliver, hcont]; exact hstored, ?_⟩
    rwa [ReturnTarget.frameAfter_of_store _ _ _ _ hcont, ReturnTarget.registersAfter_of_store _ _ _ hcont]
  · obtain ⟨m₂, hstep, hsecond⟩ := iteratorStep_retouched (by rw [hfirst.threads]; exact hrange) hfirst.frames
      (by rw [hfirst.files]; exact hfile) (target.base - 3)
    rw [hfirst.registers] at hsecond
    refine ⟨m₂, by rw [deliver, hcont]; dsimp only; rw [hstored]; exact hstep, hfirst.trans rfl ?_⟩
    rwa [ReturnTarget.frameAfter_of_loop _ _ _ _ hcont, ReturnTarget.registersAfter_of_loop _ _ _ hcont]
  · exact absurd hcont htarget

/-- Closing cells changes nothing else. -/
theorem exists_closeCells_eq (m : Machine) (start : Nat) (ids : List CellId) :
    ∃ cells, (m.closeCells start ids).1 = { m with cells } := by
  induction ids generalizing m with
  | nil => exact ⟨m.cells, rfl⟩
  | cons id rest ih =>
    rw [closeCells]
    split
    · exact ih m
    · split
      · obtain ⟨cells, hcells⟩ := ih (m.closeCell id)
        exact ⟨cells, by rw [hcells]; rfl⟩
      · exact ih m

/-- Binding arguments makes at most a table. -/
theorem exists_bindArgs_eq (m : Machine) (p : Prototype) (args : Values) :
    ∃ tables, (m.bindArgs p args).1 = { m with tables } := by
  unfold bindArgs
  dsimp only
  split
  · exact ⟨m.tables, rfl⟩
  · split
    · exact ⟨_, rfl⟩
    · exact ⟨m.tables, rfl⟩

theorem pushFrame_signal {s : Signal} {id : ClosureId} {args : Values} {target : ReturnTarget}
    (h : m.pushFrame t id args target = (m', s)) : s = .go ∨ ∃ e, s = .error e := by
  unfold pushFrame at h
  dsimp only at h
  split at h
  · cases h
    exact Or.inr ⟨_, rfl⟩
  · cases h
    exact Or.inl rfl

/-- A closure that is entered has a frame on top, and the registers of the other frames are as before. -/
theorem pushFrame_go (hrange : t.index < m.threads.size) {id : ClosureId} {args : Values} {target : ReturnTarget}
    (hgo : m.pushFrame t id args target = (m', .go)) :
    (∃ callee, (m'.thread t).frames = callee :: (m.thread t).frames ∧ callee.target = target) ∧
      ∀ other : FileId, other.index < m.files.size → m'.file other = m.file other := by
  obtain ⟨tables, htables⟩ := m.exists_bindArgs_eq (m.closure id).proto args
  unfold pushFrame newFrame at hgo
  dsimp only at hgo
  rw [htables] at hgo
  split at hgo
  · cases hgo
  · cases hgo
    refine ⟨⟨_, congrArg Thread.frames (thread_modifyThread hrange _), rfl⟩, fun other hother => ?_⟩
    rw [file, file, Array.getElem?_eq_getElem hother]
    exact congrArg (·.getD #[]) (Array.getElem?_push_lt hother)

/-- A tail call keeps what becomes of the results of its frame, and the registers of the other frames. -/
theorem rebindTop_spec (hrange : t.index < m.threads.size) (hframes : (m.thread t).frames = f :: under)
    (id : ClosureId) (args : Values) :
    (∃ callee, ((m.rebindTop t id args).thread t).frames = callee :: under ∧ callee.target = f.target) ∧
      ∀ other, other ≠ f.file → (m.rebindTop t id args).file other = m.file other := by
  have htop : m.topFrame? t = some f := by rw [topFrame?, hframes]; rfl
  obtain ⟨cells, hcells⟩ := m.exists_closeCells_eq 0 f.openCells
  obtain ⟨tables, htables⟩ := ({ m with cells } : Machine).exists_bindArgs_eq (m.closure id).proto args
  unfold rebindTop
  rw [htop]
  dsimp only
  rw [hcells, show ({ m with cells } : Machine).closure id = m.closure id from rfl, htables]
  refine ⟨⟨_, congrArg Thread.frames (thread_modifyTop hrange hframes _), rfl⟩, fun other hother => ?_⟩
  exact file_modifyFile_of_ne hother _

/-- The innermost frame of a thread has been left. -/
structure Left (m m' : Machine) (t : ThreadId) (f : Frame) (below : List Frame) : Prop where
  frames : (m'.thread t).frames = below
  depth : (m'.thread t).depth = (m.thread t).depth - 1
  others : ∀ id, id ≠ f.file → m'.file id = m.file id
  stack : m'.stack = m.stack
  threads : m'.threads.size = m.threads.size
  files : m'.files.size = m.files.size

theorem left_popFrame (hrange : t.index < m.threads.size) (hframes : (m.thread t).frames = f :: under) :
    m.Left ((m.popFrame t f).discardFile f.file) t f under := by
  obtain ⟨cells, hcells⟩ := m.exists_closeCells_eq 0 f.openCells
  have hpopped : m.Left (m.popFrame t f) t f under := by
    rw [popFrame]
    dsimp only
    rw [hcells]
    have hthread := thread_modifyThread (m := { m with cells }) hrange
      fun th => { th with frames := th.frames.tail, depth := th.depth - 1 }
    have hown : ({ m with cells } : Machine).thread t = m.thread t := rfl
    exact ⟨by rw [hthread, hown, hframes]; rfl, by rw [hthread, hown], fun _ _ => rfl, rfl,
      by simp [modifyThread, modifyAt], rfl⟩
  unfold discardFile
  split
  · exact hpopped
  · exact ⟨hpopped.frames, hpopped.depth, fun id hne => (file_modifyFile_of_ne hne _).trans (hpopped.others id hne),
      hpopped.stack, hpopped.threads, by simpa [modifyFile, modifyAt] using hpopped.files⟩

theorem Received.congr_below {dest : Option Destination} {lower below : List Frame} {vs : Values} {s : Signal}
    (h : m.Received m' t dest lower vs s) (hleft : framesLeft dest lower = framesLeft dest below) :
    m.Received m' t dest below vs s := by
  refine ⟨h.signal, ?_, h.depth, h.files⟩
  rw [h.frames]
  cases dest with
  | none => exact hleft
  | some d => rfl

/-- Only the registers of the frames that are left matter. -/
theorem Received.of_files {n : Machine} {dest : Option Destination} {below : List Frame} {vs : Values} {s : Signal}
    (h : n.Received m' t dest below vs s) (hfiles : ∀ g ∈ framesLeft dest below, n.file g.file = m.file g.file) :
    m.Received m' t dest below vs s := by
  cases dest with
  | none =>
    refine ⟨h.signal, h.frames, h.depth, fun g hg => (h.files g hg).trans (hfiles g ?_)⟩
    rw [h.frames] at hg
    exact hg
  | some d =>
    have hown := hfiles d.frame (by simp [framesLeft])
    have hframes := h.frames
    rw [framesAfter, hown] at hframes
    refine ⟨h.signal, hframes, h.depth, fun g hg => ?_⟩
    have hkept := h.files g hg
    rw [hframes] at hg
    rcases List.mem_cons.mp hg with rfl | hunder
    · rwa [fileAfter, ReturnTarget.file_frameAfter, hown] at hkept
    · rwa [fileAfter, hfiles g (by simp [framesLeft, hunder])] at hkept

/-- The innermost frame gets results. -/
theorem deliver_received (hrange : t.index < m.threads.size) (hframes : (m.thread t).frames = f :: under)
    (hdepth : (m.thread t).depth = under.length + 1) (hfiles : OwnFiles m.files.size (f :: under))
    {target : ReturnTarget} (htarget : target.continuation ≠ .host) (vs : Values) (below : List Frame) :
    ∃ m', m.deliver t target vs = (m', .go) ∧ m.Received m' t (some ⟨target, f, under⟩) below vs .go ∧
      m'.stack = m.stack := by
  obtain ⟨m', hdelivered, h⟩ := deliver_retouched hrange hframes (hfiles.exist f (by simp)) htarget vs
  refine ⟨m', hdelivered, ⟨rfl, h.frames, ?_, ?_⟩, h.stack⟩
  · rw [h.depth, hdepth, h.frames, List.length_cons]
  · rw [h.frames]
    intro g hg
    rcases List.mem_cons.mp hg with rfl | hunder
    · simpa [fileAfter] using h.registers
    · have hne : g.file ≠ f.file := hfiles.ne_of_mem hunder
      rw [h.others g.file hne, fileAfter]
      simp [hne]

/-- The innermost frame is left with results. -/
theorem finishReturn_received {below : List Frame} (hrange : t.index < m.threads.size)
    (hframes : (m.thread t).frames = f :: below) (hdepth : (m.thread t).depth = below.length + 1)
    (hfiles : OwnFiles m.files.size (f :: below)) (vs : Values) (floor : Nat) :
    ∃ m' s, m.finishReturn t vs floor = (m', s) ∧ m.Received m' t (f.destination? below floor) below vs s ∧
      m'.stack = m.stack := by
  have htop : m.topFrame? t = some f := by rw [topFrame?, hframes]; rfl
  have hleft := left_popFrame hrange hframes
  have hother {g : Frame} (hg : g ∈ below) : g.file ≠ f.file := hfiles.ne_of_mem hg
  unfold finishReturn
  rw [htop]
  dsimp only
  set left := (m.popFrame t f).discardFile f.file
  have hlength : (left.thread t).depth = below.length := by
    rw [hleft.depth, hdepth, Nat.add_sub_cancel]
  rw [hlength]
  by_cases hhost : below.length ≤ floor ∨ f.target.continuation = .host
  · rw [if_pos hhost, f.destination?_of_host hhost]
    refine ⟨left, _, rfl, ⟨rfl, hleft.frames, by rw [hlength, hleft.frames], ?_⟩, hleft.stack⟩
    rw [hleft.frames]
    exact fun g hg => hleft.others g.file (hother hg)
  · cases below with
    | nil => exact absurd (Or.inl (Nat.zero_le floor)) hhost
    | cons g under =>
      have hto : f.destination? (g :: under) floor = some ⟨f.target, g, under⟩ := if_neg hhost
      have hown : OwnFiles left.files.size (g :: under) :=
        ⟨(List.nodup_cons.mp hfiles.distinct).2, fun h hh => by
          rw [hleft.files]
          exact hfiles.exist h (List.mem_cons_of_mem _ hh)⟩
      obtain ⟨m', hdelivered, hreceived, hstack⟩ := deliver_received (by rw [hleft.threads]; exact hrange) hleft.frames
        hlength hown (fun htarget => hhost (Or.inr htarget)) vs (g :: under)
      rw [if_neg hhost, hto]
      refine ⟨m', .go, hdelivered, ?_, hstack.trans hleft.stack⟩
      exact hreceived.of_files fun h hh => hleft.others h.file (hother hh)

end Machine

end LuaMachine
