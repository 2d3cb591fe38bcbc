import LuaMachine.Proofs.Machine.Results

namespace LuaMachine

/-- The registers and the open cells of a frame. -/
def Frame.storage (f : Frame) : FileId × List CellId := (f.file, f.openCells)

/-- A thread has as many frames as before, and they have the same storage. -/
structure Thread.SameStorage (th th' : Thread) : Prop where
  frames : th'.frames.map Frame.storage = th.frames.map Frame.storage
  depth : th'.depth = th.depth

namespace Thread.SameStorage

variable {th th' : Thread}

theorem of_eq (hframes : th'.frames = th.frames) (hdepth : th'.depth = th.depth) : th.SameStorage th' :=
  ⟨by rw [hframes], hdepth⟩

theorem refl (th : Thread) : th.SameStorage th := of_eq rfl rfl

/-- A frame has the storage of one that was there before. -/
theorem exists_mem (h : th.SameStorage th') {f : Frame} (hf : f ∈ th'.frames) :
    ∃ g ∈ th.frames, f.file = g.file ∧ f.openCells = g.openCells := by
  have hmem := List.mem_map_of_mem (f := Frame.storage) hf
  rw [h.frames] at hmem
  obtain ⟨g, hg, hsame⟩ := List.mem_map.mp hmem
  exact ⟨g, hg, (congrArg Prod.fst hsame).symm, (congrArg Prod.snd hsame).symm⟩

theorem symm (h : th.SameStorage th') : th'.SameStorage th := ⟨h.frames.symm, h.depth.symm⟩

theorem files_eq (h : th.SameStorage th') : th'.frames.map Frame.file = th.frames.map Frame.file := by
  have hfirst := congrArg (List.map Prod.fst) h.frames
  rwa [List.map_map, List.map_map] at hfirst

theorem length_eq (h : th.SameStorage th') : th'.frames.length = th.frames.length := by
  have hlength := congrArg List.length h.frames
  rwa [List.length_map, List.length_map] at hlength

end Thread.SameStorage

namespace Machine

variable {n m m' : Machine}

theorem thread_modifyThread_cases (m : Machine) (t : ThreadId) (f : Thread → Thread) (id : ThreadId) :
    (m.modifyThread t f).thread id = m.thread id ∨ (m.modifyThread t f).thread id = f (m.thread id) := by
  rw [thread, modifyThread, modifyAt, Array.getElem?_modify]
  split
  · cases hget : m.threads[id.index]? with
    | none => exact Or.inl (by rw [thread, hget]; rfl)
    | some th => exact Or.inr (by rw [thread, hget]; rfl)
  · exact Or.inl rfl

/-- A machine comes to another one by operations on frames, registers and captured variables, of which everything that
machines do is made; other changes leave the storage of frames alone. The cells of a register file are closed from a
register on only as `may` says. -/
inductive Evolves (may : FileId → Nat → Prop) (m : Machine) : Machine → Prop
  | refl : Evolves may m m
  /-- The storage of all frames is left alone. -/
  | other {n n' : Machine} (h : Evolves may m n) (hcells : n'.cells = n.cells) (hfiles : n'.files = n.files)
      (hthreads : ∀ t, (n.thread t).SameStorage (n'.thread t)) : Evolves may m n'
  /-- Registers are written. -/
  | write {n : Machine} (h : Evolves may m n) (file : FileId) (f : Array Value → Array Value) :
      Evolves may m (n.modifyFile file f)
  /-- A captured variable is assigned to. -/
  | assign {n : Machine} (h : Evolves may m n) (id : CellId) (v : Value) : Evolves may m (n.setCellValue id v)
  /-- A closure gets a variable that never was a register. -/
  | detached {n : Machine} (h : Evolves may m n) (v : Value) : Evolves may m (n.addCell (.closed v)).1
  /-- A closure captures a register of the innermost frame. -/
  | capture {n : Machine} {t : ThreadId} {top : Frame} (h : Evolves may m n) (htop : n.topFrame? t = some top)
      (i : Nat) : Evolves may m (n.captureRegister t top i).1
  /-- The cells of the innermost frame are closed from a register on. -/
  | close {n : Machine} {t : ThreadId} {top : Frame} (h : Evolves may m n) (htop : n.topFrame? t = some top)
      {start : Nat} (hmay : may top.file start) : Evolves may m (n.closeTopCells t start)
  /-- A closure is entered, or refused because there are too many frames. -/
  | enter {n : Machine} (h : Evolves may m n) (t : ThreadId) (id : ClosureId) (args : Values)
      (target : ReturnTarget) : Evolves may m (n.pushFrame t id args target).1
  /-- The innermost frame is left. -/
  | leave {n : Machine} {t : ThreadId} {top : Frame} (h : Evolves may m n) (htop : n.topFrame? t = some top)
      (hmay : may top.file 0) : Evolves may m (n.popFrame t top)
  /-- There is no frame to leave. -/
  | exhausted {n : Machine} {t : ThreadId} (h : Evolves may m n) (htop : n.topFrame? t = none) :
      Evolves may m (n.modifyThread t fun th => { th with depth := 0 })
  /-- A tail call takes the place of the innermost frame. -/
  | rebind {n : Machine} {t : ThreadId} {top : Frame} (h : Evolves may m n) (htop : n.topFrame? t = some top)
      (hmay : may top.file 0) (id : ClosureId) (args : Values) : Evolves may m (n.rebindTop t id args)

/-- A machine comes to another one by operations on frames, registers and captured variables, whichever cells they
close. -/
def Becomes (m m' : Machine) : Prop := m.Evolves (fun _ _ => True) m'

namespace Becomes

theorem refl (m : Machine) : m.Becomes m := Evolves.refl

theorem trans (h : n.Becomes m) (h' : m.Becomes m') : n.Becomes m' := by
  induction h' with
  | refl => exact h
  | other _ hcells hfiles hthreads ih => exact ih.other hcells hfiles hthreads
  | write _ file f ih => exact ih.write file f
  | assign _ id v ih => exact ih.assign id v
  | detached _ v ih => exact ih.detached v
  | capture _ htop i ih => exact ih.capture htop i
  | close _ htop hmay ih => exact ih.close htop hmay
  | enter _ t id args target ih => exact ih.enter t id args target
  | leave _ htop hmay ih => exact ih.leave htop hmay
  | exhausted _ htop ih => exact ih.exhausted htop
  | rebind _ htop hmay id args ih => exact ih.rebind htop hmay id args

/-- What is neither a thread nor a register nor a cell does not matter. -/
theorem of_eq (h : n.Becomes m) (hcells : m'.cells = m.cells) (hfiles : m'.files = m.files)
    (hthreads : m'.threads = m.threads) : n.Becomes m' :=
  h.other hcells hfiles fun t => by
    rw [thread, thread, hthreads]
    exact .refl _

theorem addTable (h : n.Becomes m) (table : Table) : n.Becomes (m.addTable table).1 := h.of_eq rfl rfl rfl

theorem addClosure (h : n.Becomes m) (c : Closure) : n.Becomes (m.addClosure c).1 := h.of_eq rfl rfl rfl

theorem push (h : n.Becomes m) (a : Activation) : n.Becomes (m.push a) := h.of_eq rfl rfl rfl

theorem replaceTop (h : n.Becomes m) (a : Activation) : n.Becomes (m.replaceTop a) := h.of_eq rfl rfl rfl

theorem pop (h : n.Becomes m) : n.Becomes m.pop := h.of_eq rfl rfl rfl

theorem modifyGroup (h : n.Becomes m) (g : GroupId) (f : Group → Group) : n.Becomes (m.modifyGroup g f) :=
  h.of_eq rfl rfl rfl

/-- A change of a thread may leave the storage of its frames alone. -/
theorem modifyThread (h : n.Becomes m) (t : ThreadId) {f : Thread → Thread}
    (hf : ∀ th : Thread, th.SameStorage (f th)) : n.Becomes (m.modifyThread t f) := by
  refine h.other rfl rfl fun id => ?_
  obtain hsame | hchanged := m.thread_modifyThread_cases t f id
  · rw [hsame]
    exact .refl _
  · rw [hchanged]
    exact hf _

theorem modifyTop (h : n.Becomes m) (t : ThreadId) {f : Frame → Frame} (hf : ∀ fr, (f fr).storage = fr.storage) :
    n.Becomes (m.modifyTop t f) := by
  refine h.modifyThread t fun th => ?_
  split
  · exact ⟨by simp [hf], rfl⟩
  · exact .refl _

theorem modifyFile (h : n.Becomes m) (file : FileId) (f : Array Value → Array Value) :
    n.Becomes (m.modifyFile file f) := h.write file f

theorem setRegister (h : n.Becomes m) (file : FileId) (i : Nat) (v : Value) : n.Becomes (m.setRegister file i v) :=
  h.modifyFile file _

theorem setCellValue (h : n.Becomes m) (id : CellId) (v : Value) : n.Becomes (m.setCellValue id v) := h.assign id v

theorem closeTopCells (h : n.Becomes m) (t : ThreadId) (start : Nat) : n.Becomes (m.closeTopCells t start) := by
  cases htop : m.topFrame? t with
  | none =>
    rw [Machine.closeTopCells, htop]
    exact h
  | some top => exact h.close htop trivial

section Frames

variable (t : ThreadId)

theorem pushFrame (h : n.Becomes m) (id : ClosureId) (args : Values) (target : ReturnTarget) :
    n.Becomes (m.pushFrame t id args target).1 := h.enter t id args target

theorem unwind (h : n.Becomes m) (depth : Nat) : n.Becomes (m.unwind t depth) := by
  have hframes (fuel : Nat) {m : Machine} (h : n.Becomes m) : n.Becomes (m.unwindFrames t depth fuel) := by
    induction fuel generalizing m with
    | zero => exact h
    | succ fuel ih =>
      unfold unwindFrames
      split
      · exact h
      · split
        · rename_i hnone
          exact h.exhausted hnone
        · rename_i top hsome
          exact ih (h.leave hsome trivial)
  exact hframes _ h

theorem rebindTop (h : n.Becomes m) (id : ClosureId) (args : Values) : n.Becomes (m.rebindTop t id args) := by
  cases htop : m.topFrame? t with
  | none =>
    rw [Machine.rebindTop, htop]
    exact h
  | some top => exact h.rebind htop trivial id args

theorem storeResults (h : n.Becomes m) (target : ReturnTarget) (vs : Values) :
    n.Becomes (m.storeResults t target vs).1 := by
  unfold Machine.storeResults
  split
  · exact h
  · split
    · exact (h.modifyFile _ _).modifyTop t fun _ => rfl
    · exact h.modifyFile _ _

theorem iteratorStep (h : n.Becomes m) (a : Nat) : n.Becomes (m.iteratorStep t a).1 := by
  unfold Machine.iteratorStep
  split
  · exact h
  · dsimp only
    split
    · exact h.modifyTop t fun _ => rfl
    · exact h.modifyFile _ _

theorem deliver (h : n.Becomes m) (target : ReturnTarget) (vs : Values) : n.Becomes (m.deliver t target vs).1 := by
  have hstored := h.storeResults t target vs
  unfold Machine.deliver
  split
  · exact hstored
  · split
    · rename_i heq
      rw [heq] at hstored
      exact hstored.iteratorStep t _
    · exact hstored
  · exact h

theorem discardFile (h : n.Becomes m) (file : FileId) : n.Becomes (m.discardFile file) := by
  unfold Machine.discardFile
  split
  · exact h
  · exact h.modifyFile _ _

/-- A frame that returns is left first. -/
theorem finishReturn_of_popFrame {top : Frame} (htop : m.topFrame? t = some top) (h : n.Becomes (m.popFrame t top))
    (vs : Values) (floor : Nat) : n.Becomes (m.finishReturn t vs floor).1 := by
  have hleft := h.discardFile top.file
  unfold Machine.finishReturn
  rw [htop]
  dsimp only
  split
  · exact hleft
  · exact hleft.deliver t _ vs

theorem finishReturn (h : n.Becomes m) (vs : Values) (floor : Nat) : n.Becomes (m.finishReturn t vs floor).1 := by
  cases htop : m.topFrame? t with
  | none =>
    rw [Machine.finishReturn, htop]
    exact h
  | some top => exact finishReturn_of_popFrame t htop (h.leave htop trivial) vs floor

theorem completePending (h : n.Becomes m) (vs : Values) (floor : Nat) :
    n.Becomes (m.completePending t vs floor).1 := by
  have hcleared : n.Becomes (m.modifyTop t fun f => { f with pending := none }) := h.modifyTop t fun _ => rfl
  unfold Machine.completePending
  split
  · exact h
  · split
    · exact h
    · dsimp only
      split
      · exact hcleared.finishReturn t vs floor
      · exact hcleared.deliver t _ vs

theorem destroyThread (h : n.Becomes m) : n.Becomes (m.destroyThread t) :=
  (h.unwind t 0).modifyThread t fun _ => .of_eq rfl rfl

theorem jumpThread (h : n.Becomes m) {f : Value} {args : Values} (hjumped : m.jumpThread t f args = .ok m') :
    n.Becomes m' := by
  unfold Machine.jumpThread at hjumped
  split at hjumped
  · cases hjumped
  · cases hjumped
    exact (h.unwind t 0).modifyThread t fun _ => .of_eq rfl rfl

end Frames

end Becomes

end Machine

end LuaMachine
