import LuaMachine.Proofs.Machine.Cells
import LuaMachine.Proofs.Machine.Pausing

namespace LuaMachine

/-- A numeric loop that a thread runs in one frame of a closure: the preparation jumps to the test, which jumps back to
the body as long as the loop goes on. The registers of the loop start at `base`. -/
structure NumericLoop where
  thread : ThreadId
  closure : ClosureId
  file : FileId
  base : Nat
  prepare : Nat
  body : Nat
  test : Nat
  prepare_lt_body : prepare < body
  body_le_test : body ≤ test

/-- A piece of code has the two instructions of a loop in their places. -/
structure NumericLoop.IsIn (l : NumericLoop) (code : Array Instruction) : Prop where
  prepares : ∃ word, code[l.prepare]? = some word ∧ word.opcode? = some .forPrep ∧ word.a.toNat = l.base ∧
    ((l.prepare + 1 : Nat) : Int) + word.sbx = l.test
  tests : ∃ word, code[l.test]? = some word ∧ word.opcode? = some .forLoop ∧ word.a.toNat = l.base ∧
    ((l.test + 1 : Nat) : Int) + word.sbx = l.body

theorem Thread.frames_movedTo_ne_nil {th : Thread} {pc : Nat} (h : th.frames ≠ []) : (th.movedTo pc).frames ≠ [] := by
  rcases th with ⟨_, _, frames, _, _, _, _, _, _, _⟩
  cases frames with
  | nil => exact absurd rfl h
  | cons top rest => exact List.cons_ne_nil _ _

namespace Machine

variable {m m' : Machine} {i : Interpreter} {w : Window} {acts : List Activation} {word : Instruction} {op : Opcode}

/-- The fuse leaves a thread another instruction. -/
def MayRun (m : Machine) (t : ThreadId) : Prop := ∀ fuse ∈ m.limits.fuse, (m.thread t).instructions < fuse

/-- The machine in which an instruction is performed once it was fetched. -/
def fetching (m : Machine) (i : Interpreter) (w : Window) : Machine :=
  (m.reading i w).modifyThread i.thread (·.movedTo (w.pc + 1))

/-- The next step performs the instruction that the interpreter reads, unless the fuse is spent. -/
theorem Reads.step_cases (h : m.Reads i w acts) (hcode : (m.closure w.closure).proto.code[w.pc]? = some word)
    (hframes : (m.thread i.thread).frames ≠ []) (hop : word.opcode? = some op) :
    (¬m.MayRun i.thread ∧ ∃ m' e, m.step .go = (m', .error e)) ∨
    let performed := (m.fetching i w).perform i { w with pc := w.pc + 1 } word op
    m.step .go = performed.1.conclude i { w with pc := w.pc + 1 } performed.2 := by
  have hfetch : (m.reading i w).fetch i w = (m.fetching i w).perform i { w with pc := w.pc + 1 } word op := by
    unfold fetch
    rw [show (m.reading i w).closure w.closure = m.closure w.closure from rfl, hcode]
    dsimp only
    rw [if_neg (by rwa [List.isEmpty_iff]), hop]
    rfl
  rw [h.step_eq, advance, execute]
  cases hfuse : (m.reading i w).limits.fuse with
  | none => exact .inr (by rw [hfetch])
  | some fuse =>
    dsimp only
    split
    · rename_i hspent
      exact .inl ⟨fun hmay => Nat.not_lt.mpr hspent (hmay fuse hfuse), _, _, rfl⟩
    · exact .inr (by rw [hfetch])

end Machine

namespace NumericLoop

variable {l : NumericLoop} {m m' : Machine} {pc : Nat}

/-- The thread of a loop is about to run the instruction at `pc`. -/
structure Stands (l : NumericLoop) (m : Machine) (pc : Nat) : Prop where
  reads : ∃ i acts, i.thread = l.thread ∧ m.Reads i ⟨l.closure, l.file, pc⟩ acts
  frames : (m.thread l.thread).frames ≠ []
  file : l.file.index < m.files.size
  code : l.IsIn (m.closure l.closure).proto.code

/-- A thread stands at one instruction only. -/
theorem Stands.unique {pc' : Nat} (h : l.Stands m pc) (h' : l.Stands m pc') : pc = pc' := by
  obtain ⟨i, _, -, hstack, hstage⟩ := h.reads
  obtain ⟨i', _, -, hstack', hstage'⟩ := h'.reads
  obtain ⟨hsame, -⟩ := List.cons.inj (hstack.symm.trans hstack')
  obtain rfl : i = i' := Activation.interpret.inj hsame
  obtain hrunning | ⟨hentering, top, htop, hplace⟩ := hstage
  · obtain hrunning' | ⟨hentering', -⟩ := hstage'
    · exact congrArg Window.pc (Stage.running.inj (hrunning.symm.trans hrunning'))
    · cases hrunning.symm.trans hentering'
  · obtain hrunning' | ⟨-, top', htop', hplace'⟩ := hstage'
    · cases hentering.symm.trans hrunning'
    · obtain rfl : top = top' := Option.some.inj (htop.symm.trans htop')
      exact congrArg Window.pc (hplace.trans hplace'.symm)

/-- A loop has its index, its limit and its step in its registers. -/
structure Holds (l : NumericLoop) (m : Machine) (index limit step : Value) : Prop where
  index : m.register l.file l.base = index
  limit : m.register l.file (l.base + 1) = limit
  step : m.register l.file (l.base + 2) = step

/-- A step that does not fail, and leaves the limits as they are. -/
structure Goes (m m' : Machine) : Prop where
  step : m.step .go = (m', .go)
  limits : m'.limits = m.limits

/-- After an instruction that only writes registers, the thread stands where the instruction sends it. -/
theorem Stands.goesOn (h : l.Stands m pc) {i : Interpreter} {acts : List Activation} (hthread : i.thread = l.thread)
    (hreads : m.Reads i ⟨l.closure, l.file, pc⟩ acts) (files : Array (Array Value))
    (hfiles : files.size = m.files.size) (pc' : Nat)
    (hstep : m.step .go = ({ m.fetching i ⟨l.closure, l.file, pc⟩ with files } : Machine).conclude i
      ⟨l.closure, l.file, pc + 1⟩ (.goOn pc')) :
    ∃ m', Goes m m' ∧ l.Stands m' pc' ∧ m'.files = files := by
  have hrange : l.thread.index < m.threads.size := by
    by_contra hout
    refine h.frames ?_
    rw [Machine.thread, Array.getElem?_eq_none (Nat.not_lt.mp hout)]
    rfl
  have hfetching : (m.fetching i ⟨l.closure, l.file, pc⟩).thread l.thread = (m.thread l.thread).movedTo (pc + 1) := by
    rw [← hthread] at hrange ⊢
    exact Machine.thread_modifyThread (m := m.reading i _) hrange _
  refine ⟨_, ⟨hstep, rfl⟩, ⟨⟨{ i with stage := .running ⟨l.closure, l.file, pc'⟩ }, acts, hthread, ?_, .inl rfl⟩, ?_,
    hfiles ▸ h.file, h.code⟩, rfl⟩
  · show _ :: m.stack.tail = _
    rw [hreads.stack]
    rfl
  · show ((m.fetching i ⟨l.closure, l.file, pc⟩).thread l.thread).frames ≠ []
    rw [hfetching]
    exact Thread.frames_movedTo_ne_nil h.frames

theorem files_size_setRegister (m : Machine) (file : FileId) (j : Nat) (v : Value) :
    (m.setRegister file j v).files.size = m.files.size := by
  simp [Machine.setRegister, Machine.modifyFile, modifyAt]

theorem register_of_files {n : Machine} (hfiles : m'.files = n.files) (file : FileId) (j : Nat) :
    m'.register file j = n.register file j := by
  rw [Machine.register, Machine.file, hfiles]
  rfl

variable {index init limit step : Value}

/-- One step from the test: with the next index the loop goes on to the body, or it is left with all registers as they
are. -/
theorem Stands.step_test (h : l.Stands m l.test) (hholds : l.Holds m index limit step) :
    (¬m.MayRun l.thread ∧ ∃ m' e, m.step .go = (m', .error e)) ∨
    ∃ m', Goes m m' ∧
      let next := Arithmetic.forStep index limit step
      if next.2 then l.Stands m' l.body ∧ l.Holds m' next.1 limit step ∧ m'.register l.file (l.base + 3) = next.1
      else l.Stands m' (l.test + 1) ∧ m'.files = m.files := by
  obtain ⟨i, acts, hthread, hreads⟩ := h.reads
  obtain ⟨word, hcode, hop, ha, hsbx⟩ := h.code.tests
  rw [← hthread]
  refine (hreads.step_cases hcode (hthread ▸ h.frames) hop).imp_right fun hstep => ?_
  have htarget : Machine.jumpTarget (l.test + 1) word.sbx = .ok l.body := by
    rw [Machine.jumpTarget, hsbx]
    exact if_neg (by omega)
  -- the registers are those that the test found
  have hperform : (m.fetching i ⟨l.closure, l.file, l.test⟩).perform i ⟨l.closure, l.file, l.test + 1⟩ word .forLoop =
      let n := m.fetching i ⟨l.closure, l.file, l.test⟩
      let next := Arithmetic.forStep index limit step
      if next.2 then ((n.setRegister l.file l.base next.1).setRegister l.file (l.base + 3) next.1, .goOn l.body)
      else (n, .goOn (l.test + 1)) := by
    show Machine.forLoop _ _ word.a.toNat word.sbx = _
    rw [ha, ← hholds.index, ← hholds.limit, ← hholds.step, Machine.forLoop]
    dsimp only
    rw [htarget]
    rfl
  dsimp only at hstep ⊢
  rw [hperform] at hstep
  generalize Arithmetic.forStep index limit step = result at hstep ⊢
  obtain ⟨next, goes⟩ := result
  cases goes with
  | true =>
    simp only [if_true] at hstep ⊢
    have hsize : (m.setRegister l.file l.base next).files.size = m.files.size := files_size_setRegister ..
    obtain ⟨m', hgoes, hstands, hfiles⟩ := h.goesOn hthread hreads
      (((m.setRegister l.file l.base next).setRegister l.file (l.base + 3) next).files)
      ((files_size_setRegister ..).trans hsize) l.body hstep
    have hregister (j : Nat) : m'.register l.file j =
        if j = l.base + 3 then next else if j = l.base then next else m.register l.file j := by
      rw [register_of_files hfiles, Machine.register_setRegister_eq (hsize ▸ h.file),
        Machine.register_setRegister_eq h.file]
    refine ⟨m', hgoes, hstands, ⟨?_, ?_, ?_⟩, ?_⟩
    · rw [hregister, if_neg (by omega), if_pos rfl]
    · rw [hregister, if_neg (by omega), if_neg (by omega), hholds.limit]
    · rw [hregister, if_neg (by omega), if_neg (by omega), hholds.step]
    · rw [hregister, if_pos rfl]
  | false =>
    simp only [Bool.false_eq_true, if_false] at hstep ⊢
    exact h.goesOn hthread hreads m.files rfl (l.test + 1) hstep

/-- One step from the preparation: the numbers are in the registers of the loop, the index one step back. -/
theorem Stands.step_prepare (h : l.Stands m l.prepare) (hmay : m.MayRun l.thread)
    (hinit : (m.register l.file l.base).toNumber? = some init)
    (hlimit : (m.register l.file (l.base + 1)).toNumber? = some limit)
    (hstep : (m.register l.file (l.base + 2)).toNumber? = some step) :
    ∃ m', Goes m m' ∧ l.Stands m' l.test ∧ l.Holds m' ((Arithmetic.raw? .sub init step).getD .nil) limit step := by
  obtain ⟨i, acts, hthread, hreads⟩ := h.reads
  obtain ⟨word, hcode, hop, ha, hsbx⟩ := h.code.prepares
  have htarget : Machine.jumpTarget (l.prepare + 1) word.sbx = .ok l.test := by
    rw [Machine.jumpTarget, hsbx]
    exact if_neg (by omega)
  have hgo := (hreads.step_cases hcode (hthread ▸ h.frames) hop).resolve_left fun hspent =>
    hspent.1 (hthread ▸ hmay)
  generalize hfirst : (Arithmetic.raw? .sub init step).getD .nil = first
  have hperform : (m.fetching i ⟨l.closure, l.file, l.prepare⟩).perform i ⟨l.closure, l.file, l.prepare + 1⟩ word
      .forPrep =
      let n := m.fetching i ⟨l.closure, l.file, l.prepare⟩
      (((n.setRegister l.file l.base first).setRegister l.file (l.base + 1) limit).setRegister l.file (l.base + 2) step,
        .goOn l.test) := by
    show Machine.forPrep _ _ _ word.a.toNat word.sbx = _
    have hregister (j : Nat) : (m.fetching i ⟨l.closure, l.file, l.prepare⟩).register l.file j =
        m.register l.file j := rfl
    rw [ha, Machine.forPrep]
    simp only [hregister, hinit, hlimit, hstep, hfirst, Machine.jump, htarget]
  dsimp only at hgo
  rw [hperform] at hgo
  have hsize : (m.setRegister l.file l.base first).files.size = m.files.size := files_size_setRegister ..
  have hsize' : ((m.setRegister l.file l.base first).setRegister l.file (l.base + 1) limit).files.size =
      m.files.size := (files_size_setRegister ..).trans hsize
  obtain ⟨m', hgoes, hstands, hfiles⟩ := h.goesOn hthread hreads
    ((((m.setRegister l.file l.base first).setRegister l.file (l.base + 1) limit).setRegister l.file
      (l.base + 2) step).files) ((files_size_setRegister ..).trans hsize') l.test hgo
  have hregister (j : Nat) : m'.register l.file j = if j = l.base + 2 then step
      else if j = l.base + 1 then limit else if j = l.base then first else m.register l.file j := by
    rw [register_of_files hfiles, Machine.register_setRegister_eq (hsize' ▸ h.file),
      Machine.register_setRegister_eq (hsize ▸ h.file), Machine.register_setRegister_eq h.file]
  refine ⟨m', hgoes, hstands, ⟨?_, ?_, ?_⟩⟩
  · rw [hregister, if_neg (by omega), if_neg (by omega), if_pos rfl]
  · rw [hregister, if_neg (by omega), if_pos rfl]
  · rw [hregister, if_pos rfl]

/-- The same for a loop over integers. -/
theorem Stands.step_prepare_int {init limit step : Int64} (h : l.Stands m l.prepare) (hmay : m.MayRun l.thread)
    (hholds : l.Holds m (.int init) (.int limit) (.int step)) :
    ∃ m', Goes m m' ∧ l.Stands m' l.test ∧
      l.Holds m' ((Arithmetic.raw? .sub (.int init) (.int step)).getD .nil) (.int limit) (.int step) :=
  h.step_prepare hmay (by rw [hholds.index]; rfl) (by rw [hholds.limit]; rfl) (by rw [hholds.step]; rfl)

end NumericLoop

end LuaMachine
