import LuaMachine.Proofs.Machine.EvolvingSteps

namespace LuaMachine.Machine

variable {m m' : Machine} {t : ThreadId}

/-- The frames of every thread have registers of their own. -/
def Owned (m : Machine) : Prop := ∀ t, OwnFiles m.files.size (m.thread t).frames

/-- Frames may go, and registers may be added. -/
theorem OwnFiles.mono {count more : Nat} {frames later : List Frame} (h : OwnFiles count frames)
    (hframes : (later.map Frame.file).Sublist (frames.map Frame.file)) (hcount : count ≤ more) :
    OwnFiles more later := by
  refine ⟨h.distinct.sublist hframes, fun f hf => ?_⟩
  obtain ⟨g, hg, hfile⟩ := List.mem_map.mp (hframes.subset (List.mem_map_of_mem hf))
  rw [← hfile]
  exact Nat.lt_of_lt_of_le (h.exist g hg) hcount

/-- A frame with new registers may come on top. -/
theorem OwnFiles.cons {count : Nat} {frames : List Frame} (h : OwnFiles count frames) {frame : Frame}
    (hfile : frame.file.index = count) : OwnFiles (count + 1) (frame :: frames) := by
  refine ⟨List.nodup_cons.mpr ⟨fun hmem => ?_, h.distinct⟩, fun g hg => ?_⟩
  · obtain ⟨g, hg, hsame⟩ := List.mem_map.mp hmem
    have hlt := h.exist g hg
    rw [hsame, hfile] at hlt
    exact Nat.lt_irrefl _ hlt
  · rcases List.mem_cons.mp hg with rfl | hrest
    · rw [hfile]
      exact Nat.lt_succ_self _
    · exact Nat.lt_succ_of_lt (h.exist g hrest)

/-- What entering a closure does: registers are added, and a frame with them unless there are too many. -/
theorem pushFrame_cases (m : Machine) (t : ThreadId) (id : ClosureId) (args : Values) (target : ReturnTarget) :
    ∃ tables registers, (m.pushFrame t id args target).1 = { m with tables, files := m.files.push registers } ∨
      ∃ frame : Frame, frame.storage = (⟨m.files.size⟩, []) ∧ (m.pushFrame t id args target).1 =
        ({ m with tables, files := m.files.push registers } : Machine).modifyThread t fun th =>
          { th with frames := frame :: th.frames, depth := th.depth + 1 } := by
  obtain ⟨tables, htables⟩ := m.exists_bindArgs_eq (m.closure id).proto args
  unfold pushFrame newFrame
  dsimp only
  rw [htables]
  refine ⟨tables, (m.bindArgs (m.closure id).proto args).2.1, ?_⟩
  split
  · exact Or.inl rfl
  · exact Or.inr ⟨_, rfl, rfl⟩

/-- Rebinding closes the cells of the innermost frame, changes its registers, and it has no cells afterwards. -/
theorem rebindTop_eq {top : Frame} (htop : m.topFrame? t = some top) (id : ClosureId) (args : Values) :
    ∃ tables registers change, (∀ f : Frame, (change f).storage = (f.file, [])) ∧ m.rebindTop t id args =
      (({ (m.closeCells 0 top.openCells).1 with tables } : Machine).modifyFile top.file
        registers).modifyTop t change := by
  obtain ⟨tables, htables⟩ := (m.closeCells 0 top.openCells).1.exists_bindArgs_eq
    ((m.closeCells 0 top.openCells).1.closure id).proto args
  unfold rebindTop
  rw [htop]
  dsimp only
  rw [htables]
  exact ⟨tables, _, _, fun _ => rfl, rfl⟩

namespace Owned

theorem mono (h : m.Owned) (hthreads : m'.threads = m.threads) (hsize : m.files.size ≤ m'.files.size) : m'.Owned := by
  intro t
  rw [thread, hthreads]
  exact (h t).mono (List.Sublist.refl _) hsize

/-- A change of a thread may take frames from it. -/
theorem modifyThread (h : m.Owned) (t : ThreadId) {f : Thread → Thread}
    (hf : ∀ th, ((f th).frames.map Frame.file).Sublist (th.frames.map Frame.file)) : (m.modifyThread t f).Owned := by
  intro id
  obtain hsame | hchanged := m.thread_modifyThread_cases t f id
  · rw [hsame]
    exact h id
  · rw [hchanged]
    exact (h id).mono (hf _) (Nat.le_refl _)

theorem modifyTop (h : m.Owned) (t : ThreadId) {f : Frame → Frame} (hf : ∀ fr, (f fr).file = fr.file) :
    (m.modifyTop t f).Owned := by
  refine h.modifyThread t fun th => ?_
  split
  · simp [hf]
  · exact List.Sublist.refl _

theorem modifyFile (h : m.Owned) (file : FileId) (f : Array Value → Array Value) : (m.modifyFile file f).Owned :=
  h.mono rfl (by simp [Machine.modifyFile, modifyAt])

theorem closeCells (h : m.Owned) (start : Nat) (ids : List CellId) : (m.closeCells start ids).1.Owned := by
  obtain ⟨cells, hcells⟩ := m.exists_closeCells_eq start ids
  rw [hcells]
  exact h

/-- Operations on frames, registers and captured variables keep the registers of frames apart. -/
theorem evolves {may : FileId → Nat → Prop} (h : m.Owned) (hevolves : m.Evolves may m') : m'.Owned := by
  induction hevolves with
  | refl => exact h
  | other _ _ hfiles hthreads ih =>
    intro t
    rw [hfiles]
    exact (ih t).mono ((hthreads t).files_eq ▸ List.Sublist.refl _) (Nat.le_refl _)
  | write _ file f ih => exact ih.modifyFile file f
  | assign _ id v ih =>
    unfold setCellValue
    split
    · exact ih.modifyFile _ _
    · exact ih
  | detached _ v ih => exact ih
  | capture _ htop i ih =>
    unfold captureRegister
    split
    · exact ih
    · exact Owned.modifyTop (m := (Machine.addCell _ _).1) ih _ fun _ => rfl
  | close _ htop _ ih =>
    unfold closeTopCells
    rw [htop]
    exact (ih.closeCells _ _).modifyTop _ fun _ => rfl
  | @enter n _ t id args target ih =>
    obtain ⟨tables, registers, hfull | ⟨frame, hstorage, hpushed⟩⟩ := n.pushFrame_cases t id args target
    · rw [hfull]
      exact ih.mono rfl (by simp)
    · rw [hpushed]
      intro u
      obtain hsame | hchanged := thread_modifyThread_cases { n with tables, files := n.files.push registers } t
        (fun th => { th with frames := frame :: th.frames, depth := th.depth + 1 }) u
      · rw [hsame]
        exact (ih u).mono (List.Sublist.refl _) (by simp [Machine.modifyThread])
      · rw [hchanged]
        have hindex : frame.file.index = n.files.size := congrArg (fun s => FileId.index s.1) hstorage
        show OwnFiles (n.files.push registers).size (frame :: (n.thread u).frames)
        rw [Array.size_push]
        exact (ih u).cons hindex
  | leave _ _ _ ih =>
    unfold popFrame
    refine (ih.closeCells 0 _).modifyThread _ fun th => ?_
    rw [List.map_tail]
    exact List.tail_sublist _
  | exhausted _ _ ih => exact ih.modifyThread _ fun th => List.Sublist.refl _
  | rebind _ htop _ id args ih =>
    obtain ⟨tables, registers, change, hchange, hrebound⟩ := rebindTop_eq htop id args
    rw [hrebound]
    refine Owned.modifyTop ?_ _ fun f => congrArg Prod.fst (hchange f)
    exact Owned.modifyFile (ih.closeCells 0 _) _ _

theorem becomes (h : m.Owned) (hbecomes : m.Becomes m') : m'.Owned := h.evolves hbecomes

end Owned

end LuaMachine.Machine
