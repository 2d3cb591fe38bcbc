import LuaMachine.Proofs.Machine.Tracking

namespace LuaMachine.Machine

variable {m m' : Machine} {t u : ThreadId} {top : Frame} {may : FileId → Nat → Prop} {id : CellId} {file : FileId}
  {i : Nat}

/-- The variable that a closure reads under an index. -/
def upvalue (m : Machine) (c : ClosureId) (index : Nat) : Value :=
  ((m.closure c).cells[index]?.map m.cellValue).getD .nil

/-- A closure assigns to its variable under an index. -/
def assignUpvalue (m : Machine) (c : ClosureId) (index : Nat) (v : Value) : Machine :=
  match (m.closure c).cells[index]? with
  | some id => m.setCellValue id v
  | none => m

/-- Cells may be closed, but not those of the register `i` of a file. -/
def Sparing (file : FileId) (i : Nat) (closed : FileId) (start : Nat) : Prop := closed = file → i < start

/-- No frame has a register file that was given to one. -/
structure Unused (m : Machine) (file : FileId) : Prop where
  exist : file.index < m.files.size
  frames : ∀ t, ∀ f ∈ (m.thread t).frames, f.file ≠ file

/-- No cell stands for a register of a file, and none ever will. -/
def Retired (m : Machine) (file : FileId) : Prop := ∀ m', m.Becomes m' → ∀ id i, m'.cell id ≠ .onStack file i

/-- How captured variables behave. -/
structure SharesCells (m : Machine) : Prop where
  /-- No register has two open cells. -/
  distinct : ∀ {a b : CellId} {file : FileId} {i : Nat}, m.cell a = .onStack file i → m.cell b = .onStack file i → a = b
  /-- A register that is captured has an open cell, -/
  captured : ∀ {t : ThreadId} {top : Frame}, m.topFrame? t = some top → ∀ i,
    (m.captureRegister t top i).1.cell (m.captureRegister t top i).2 = .onStack top.file i
  /-- and as long as that is not closed, whatever happens, it is captured again. -/
  again : ∀ {t : ThreadId} {top : Frame}, m.topFrame? t = some top → ∀ (i : Nat) (m' : Machine),
    (m.captureRegister t top i).1.Evolves (Sparing top.file i) m' → ∀ (u : ThreadId) (later : Frame),
      m'.topFrame? u = some later → later.file = top.file →
        m'.captureRegister u later i = (m', (m.captureRegister t top i).2)
  /-- What is read through an open cell is the register. -/
  read : ∀ {id : CellId} {file : FileId} {i : Nat}, m.cell id = .onStack file i → m.cellValue id = m.register file i
  /-- What is written through an open cell is written to the register, and conversely. -/
  write : ∀ {id : CellId} {file : FileId} {i : Nat}, m.cell id = .onStack file i → ∀ v,
    m.setCellValue id v = m.setRegister file i v ∧ (m.setRegister file i v).register file i = v ∧
      (m.setRegister file i v).cellValue id = v
  /-- All closures with a cell assign to one variable. -/
  shared : ∀ {c d : ClosureId} {j k : Nat} {id : CellId}, (m.closure c).cells[j]? = some id →
    (m.closure d).cells[k]? = some id → id.index < m.cells.size → ∀ v, (m.assignUpvalue c j v).upvalue d k = v
  /-- Closing detaches the cells of the frame from a register on, with the values that the registers have, and no
  others. -/
  close : ∀ {t : ThreadId} {top : Frame}, m.topFrame? t = some top → ∀ start,
    (m.closeTopCells t start).files = m.files ∧ ∀ id, (m.closeTopCells t start).cell id = match m.cell id with
      | .onStack file i => if file = top.file ∧ start ≤ i then .closed (m.register file i) else .onStack file i
      | .closed v => .closed v
  /-- A closed cell is never opened again; it does not depend on registers, nor they on it. -/
  detached : ∀ {id : CellId} {v : Value}, id.index < m.cells.size → m.cell id = .closed v →
    (∀ m', m.Becomes m' → ∃ w, m'.cell id = .closed w) ∧ (∀ file f, (m.modifyFile file f).cellValue id = v) ∧
      ∀ w, (m.setCellValue id w).files = m.files ∧ (m.setCellValue id w).cellValue id = w
  /-- A frame that returns leaves no open cells, -/
  returned : ∀ {t : ThreadId} {top : Frame}, m.topFrame? t = some top → ∀ vs floor,
    (m.finishReturn t vs floor).1.Retired top.file
  /-- a tail call leaves none to the closure that takes over the registers, -/
  rebound : ∀ {t : ThreadId} {top : Frame}, m.topFrame? t = some top → ∀ c args id i,
    (m.rebindTop t c args).cell id ≠ .onStack top.file i
  /-- and neither do frames that are unwound, -/
  unwound : ∀ {t : ThreadId} {depth : Nat} {f : Frame},
    f ∈ (m.thread t).frames.take ((m.thread t).frames.length - depth) → (m.unwind t depth).Retired f.file
  /-- nor those of a thread that jumps -/
  jumped : ∀ {t : ThreadId} {f : Frame} {callee : Value} {args : Values} {m' : Machine},
    f ∈ (m.thread t).frames → m.jumpThread t callee args = .ok m' → m'.Retired f.file
  /-- or is destroyed. -/
  destroyed : ∀ {t : ThreadId} {f : Frame}, f ∈ (m.thread t).frames → (m.destroyThread t).Retired f.file

section Instructions

/-- The instructions that read and assign variables of their closure. -/
theorem perform_getUpval (m : Machine) (i : Interpreter) (w : Window) (word : Instruction) :
    m.perform i w word .getUpval =
      (m.setRegister w.file word.a.toNat (m.upvalue w.closure word.b.toNat), .goOn w.pc) := rfl

theorem perform_setUpval (m : Machine) (i : Interpreter) (w : Window) (word : Instruction) :
    m.perform i w word .setUpval =
      (m.assignUpvalue w.closure word.b.toNat (m.register w.file word.a.toNat), .goOn w.pc) := by
  unfold perform assignUpvalue
  dsimp only
  cases (m.closure w.closure).cells[word.b.toNat]? <;> rfl

end Instructions

section Registers

theorem size_writeAt (registers : Array Value) (i : Nat) (v : Value) : i < (writeAt registers i v).size := by
  unfold writeAt
  split
  · rwa [Array.size_setIfInBounds]
  · rw [Array.size_setIfInBounds, size_growTo]
    omega

theorem getElem?_writeAt (registers : Array Value) (i : Nat) (v : Value) : (writeAt registers i v)[i]? = some v := by
  have hsize := size_writeAt registers i v
  unfold writeAt at hsize ⊢
  split at hsize
  · rename_i hlt
    rw [if_pos hlt, Array.getElem?_setIfInBounds_self_of_lt hlt]
  · rename_i hnot
    rw [Array.size_setIfInBounds] at hsize
    rw [if_neg hnot, Array.getElem?_setIfInBounds_self_of_lt hsize]

theorem getD_writeAt (registers : Array Value) (i j : Nat) (v : Value) :
    (writeAt registers i v)[j]?.getD .nil = if j = i then v else registers[j]?.getD .nil := by
  split
  · rename_i heq
    rw [heq, getElem?_writeAt]
    rfl
  · rename_i hne
    unfold writeAt
    split
    · rw [Array.getElem?_setIfInBounds_ne (Ne.symm hne)]
    · rw [Array.getElem?_setIfInBounds_ne (Ne.symm hne), getElem?_growTo]
      split
      · rename_i hout
        rw [Array.getElem?_eq_none hout.1]
        rfl
      · rfl

/-- Writing a register changes what that one reads as, and no other one. -/
theorem register_setRegister_eq (h : file.index < m.files.size) (i j : Nat) (v : Value) :
    (m.setRegister file i v).register file j = if j = i then v else m.register file j := by
  rw [register, setRegister, file_modifyFile h, getD_writeAt]
  rfl

theorem register_setRegister (h : file.index < m.files.size) (i : Nat) (v : Value) :
    (m.setRegister file i v).register file i = v :=
  (register_setRegister_eq h i i v).trans (if_pos rfl)

/-- A cell that stands for a register stands for one that exists. -/
theorem Tracked.file_exists (h : m.Tracked) (hopen : m.cell id = .onStack file i) : file.index < m.files.size := by
  obtain ⟨ids, ⟨t, f, hf, hstorage⟩, -⟩ := h.listed hopen
  rw [← show f.file = file from congrArg Prod.fst hstorage]
  exact (h.owned t).exist f hf

theorem Tracked.cellValue_setCellValue (h : m.Tracked) (hid : id.index < m.cells.size) (v : Value) :
    (m.setCellValue id v).cellValue id = v := by
  unfold setCellValue
  split
  · rename_i file i hopen
    rw [cellValue, show (m.setRegister file i v).cell id = .onStack file i from hopen]
    exact register_setRegister (h.file_exists hopen) i v
  · rw [cellValue, cell_setCell, if_pos ⟨rfl, hid⟩]

end Registers

section Closing

/-- What can become of a cell while its register is closed only as `may` says. -/
inductive Leads (may : FileId → Nat → Prop) : Cell → Cell → Prop
  | same (c : Cell) : Leads may c c
  | assigned (v w : Value) : Leads may (.closed v) (.closed w)
  | closed {file : FileId} {i start : Nat} (hmay : may file start) (hle : start ≤ i) (v : Value) :
      Leads may (.onStack file i) (.closed v)

theorem Leads.trans {c c' c'' : Cell} (h : Leads may c c') (h' : Leads may c' c'') : Leads may c c'' := by
  cases h with
  | same => exact h'
  | assigned v w =>
    cases h' with
    | same => exact .assigned v w
    | assigned _ w => exact .assigned v w
  | closed hmay hle v =>
    cases h' with
    | same => exact .closed hmay hle v
    | assigned _ w => exact .closed hmay hle w

theorem leads_setCellValue (m : Machine) (id other : CellId) (v : Value) :
    Leads may (m.cell other) ((m.setCellValue id v).cell other) := by
  unfold setCellValue
  split
  · exact .same _
  · rename_i w hclosed
    rw [cell_setCell]
    split
    · rename_i heq
      rw [heq.1, hclosed]
      exact .assigned w v
    · exact .same _

theorem Tracked.leads_closeCells (h : m.Tracked) (htop : m.topFrame? t = some top) {start : Nat}
    (hmay : may top.file start) (id : CellId) :
    Leads may (m.cell id) ((m.closeCells start top.openCells).1.cell id) := by
  rw [h.cell_closeCells_top htop]
  cases m.cell id with
  | closed v => exact .same _
  | onStack file i =>
    dsimp only
    split
    · rename_i hclosed
      exact .closed (hclosed.1 ▸ hmay) hclosed.2 _
    · exact .same _

theorem cell_addCell_of_lt (hid : id.index < m.cells.size) (c : Cell) : (m.addCell c).1.cell id = m.cell id := by
  rw [cell, addCell, Array.getElem?_push_lt hid, ← Array.getElem?_eq_getElem hid, cell]

theorem size_closeCells (m : Machine) (start : Nat) (ids : List CellId) :
    (m.closeCells start ids).1.cells.size = m.cells.size := by
  induction ids generalizing m with
  | nil => rfl
  | cons id rest ih =>
    rw [closeCells]
    split
    · exact ih m
    · split
      · rw [ih]
        exact Array.size_setIfInBounds
      · exact ih m

/-- Cells do not go, and do not change but by assignments and by closing them. -/
theorem Tracked.leads (h : m.Tracked) (hevolves : m.Evolves may m') (hid : id.index < m.cells.size) :
    id.index < m'.cells.size ∧ Leads may (m.cell id) (m'.cell id) := by
  induction hevolves with
  | refl => exact ⟨hid, .same _⟩
  | other _ hcells _ _ ih =>
    rw [cell, cell, hcells]
    exact ih
  | write _ _ _ ih => exact ih
  | @assign n _ other v ih =>
    refine ⟨?_, ih.2.trans (n.leads_setCellValue other id v)⟩
    unfold setCellValue
    split
    · exact ih.1
    · exact Nat.lt_of_lt_of_eq ih.1 Array.size_setIfInBounds.symm
  | detached _ v ih =>
    rw [cell_addCell_of_lt ih.1]
    exact ⟨Nat.lt_of_lt_of_eq (Nat.lt_succ_of_lt ih.1) (Array.size_push _).symm, ih.2⟩
  | @capture n t top _ htop j ih =>
    obtain ⟨other, -, -, hfound⟩ | ⟨-, hadded⟩ := n.captureRegister_cases t top j
    · rw [hfound]
      exact ih
    · have hcell := cell_addCell_of_lt ih.1 (.onStack top.file j)
      rw [hadded]
      refine ⟨Nat.lt_of_lt_of_eq (Nat.lt_succ_of_lt ih.1) (Array.size_push _).symm, ?_⟩
      rw [← hcell] at ih
      exact ih.2
  | @close n t top hbefore htop start hmay ih =>
    have hclosed := (h.evolves hbefore).leads_closeCells htop hmay id
    unfold closeTopCells
    rw [htop]
    exact ⟨Nat.lt_of_lt_of_eq ih.1 (n.size_closeCells start _).symm, ih.2.trans hclosed⟩
  | @enter n _ t c args target ih =>
    obtain ⟨tables, registers, hfull | ⟨frame, -, hpushed⟩⟩ := n.pushFrame_cases t c args target
    · rw [hfull]
      exact ih
    · rw [hpushed]
      exact ih
  | @leave n t top hbefore htop hmay ih =>
    have hclosed := (h.evolves hbefore).leads_closeCells htop hmay id
    exact ⟨Nat.lt_of_lt_of_eq ih.1 (n.size_closeCells 0 _).symm, ih.2.trans hclosed⟩
  | exhausted _ _ ih => exact ih
  | @rebind n t top hbefore htop hmay c args ih =>
    have hclosed := (h.evolves hbefore).leads_closeCells htop hmay id
    obtain ⟨tables, registers, change, -, hrebound⟩ := rebindTop_eq htop c args
    rw [hrebound]
    exact ⟨Nat.lt_of_lt_of_eq ih.1 (n.size_closeCells 0 _).symm, ih.2.trans hclosed⟩

/-- An open cell stays open unless it is closed. -/
theorem Tracked.stays_open (h : m.Tracked) (hevolves : m.Evolves (Sparing file i) m')
    (hopen : m.cell id = .onStack file i) : m'.cell id = .onStack file i := by
  obtain ⟨-, hleads⟩ := h.leads hevolves (lt_size_of_cell hopen)
  rw [hopen] at hleads
  generalize m'.cell id = later at hleads
  cases hleads with
  | same => rfl
  | closed hmay hle => exact absurd (hmay rfl) (Nat.not_lt.mpr hle)

/-- A closed cell stays closed. -/
theorem Tracked.stays_closed (h : m.Tracked) (hbecomes : m.Becomes m') (hid : id.index < m.cells.size) {v : Value}
    (hclosed : m.cell id = .closed v) : ∃ w, m'.cell id = .closed w := by
  obtain ⟨-, hleads⟩ := h.leads hbecomes hid
  rw [hclosed] at hleads
  generalize m'.cell id = later at hleads
  cases hleads with
  | same => exact ⟨v, rfl⟩
  | assigned _ w => exact ⟨w, rfl⟩

end Closing

section Leaving

/-- The frames of a machine have register files of frames that were there before, or new ones. -/
structure KeepsFiles (m m' : Machine) : Prop where
  size : m.files.size ≤ m'.files.size
  frames : ∀ t, ∀ f ∈ (m'.thread t).frames, (∃ g ∈ (m.thread t).frames, g.file = f.file) ∨ m.files.size ≤ f.file.index

theorem KeepsFiles.trans {n : Machine} (h : n.KeepsFiles m) (h' : m.KeepsFiles m') : n.KeepsFiles m' := by
  refine ⟨Nat.le_trans h.size h'.size, fun t f hf => ?_⟩
  obtain ⟨g, hg, hfile⟩ | hnew := h'.frames t f hf
  · rw [← hfile]
    exact h.frames t g hg
  · exact Or.inr (Nat.le_trans h.size hnew)

theorem KeepsFiles.of_threads (hsize : m.files.size ≤ m'.files.size) (hthreads : m'.threads = m.threads) :
    m.KeepsFiles m' := by
  refine ⟨hsize, fun t f hf => Or.inl ⟨f, ?_, rfl⟩⟩
  rwa [thread, hthreads] at hf

theorem keepsFiles_modifyThread (m : Machine) (t : ThreadId) {f : Thread → Thread}
    (hf : ∀ th : Thread, ∀ fr ∈ (f th).frames, ∃ g ∈ th.frames, g.file = fr.file) :
    m.KeepsFiles (m.modifyThread t f) := by
  refine ⟨Nat.le_refl _, fun u fr hfr => Or.inl ?_⟩
  obtain hsame | hchanged := m.thread_modifyThread_cases t f u
  · rw [hsame] at hfr
    exact ⟨fr, hfr, rfl⟩
  · rw [hchanged] at hfr
    exact hf _ fr hfr

theorem keepsFiles_modifyTop (m : Machine) (t : ThreadId) {f : Frame → Frame} (hf : ∀ fr, (f fr).file = fr.file) :
    m.KeepsFiles (m.modifyTop t f) := by
  refine m.keepsFiles_modifyThread t fun th fr hfr => ?_
  split at hfr
  · rename_i top rest _ _ _ _ _ _ _
    rcases List.mem_cons.mp hfr with rfl | hrest
    · exact ⟨top, List.mem_cons_self, (hf top).symm⟩
    · exact ⟨fr, List.mem_cons_of_mem _ hrest, rfl⟩
  · exact ⟨fr, hfr, rfl⟩

theorem keepsFiles_closeCells (m : Machine) (start : Nat) (ids : List CellId) :
    m.KeepsFiles (m.closeCells start ids).1 := by
  obtain ⟨cells, hcells⟩ := m.exists_closeCells_eq start ids
  rw [hcells]
  exact .of_threads (Nat.le_refl _) rfl

theorem Evolves.keepsFiles (h : m.Evolves may m') : m.KeepsFiles m' := by
  induction h with
  | refl => exact .of_threads (Nat.le_refl _) rfl
  | @other n n' _ _ hfiles hthreads ih =>
    refine ih.trans ⟨Nat.le_of_eq (congrArg Array.size hfiles.symm), fun t f hf => Or.inl ?_⟩
    obtain ⟨g, hg, hfile, -⟩ := (hthreads t).exists_mem hf
    exact ⟨g, hg, hfile.symm⟩
  | write _ _ _ ih => exact ih.trans (.of_threads (by simp [modifyFile, modifyAt]) rfl)
  | assign _ _ _ ih =>
    unfold setCellValue
    split
    · exact ih.trans (.of_threads (by simp [setRegister, modifyFile, modifyAt]) rfl)
    · exact ih.trans (.of_threads (Nat.le_refl _) rfl)
  | detached _ _ ih => exact ih.trans (.of_threads (Nat.le_refl _) rfl)
  | @capture n t top _ _ i ih =>
    obtain ⟨id, -, -, hfound⟩ | ⟨-, hadded⟩ := n.captureRegister_cases t top i
    · rw [hfound]
      exact ih
    · rw [hadded]
      have hcell : n.KeepsFiles (n.addCell (.onStack top.file i)).1 := .of_threads (Nat.le_refl _) rfl
      exact ih.trans (hcell.trans (keepsFiles_modifyTop _ t fun _ => rfl))
  | @close n t top _ htop start _ ih =>
    unfold closeTopCells
    rw [htop]
    exact ih.trans ((n.keepsFiles_closeCells start _).trans (keepsFiles_modifyTop _ t fun _ => rfl))
  | @enter n _ t id args target ih =>
    obtain ⟨tables, registers, hfull | ⟨frame, hstorage, hpushed⟩⟩ := n.pushFrame_cases t id args target
    · rw [hfull]
      exact ih.trans (.of_threads (by simp) rfl)
    · rw [hpushed]
      refine ih.trans ⟨by simp [modifyThread], fun u f hf => ?_⟩
      obtain hsame | hchanged := thread_modifyThread_cases { n with tables, files := n.files.push registers } t
        (fun th => { th with frames := frame :: th.frames, depth := th.depth + 1 }) u
      · rw [hsame] at hf
        exact Or.inl ⟨f, hf, rfl⟩
      · rw [hchanged] at hf
        rcases List.mem_cons.mp hf with rfl | hrest
        · exact Or.inr (Nat.le_of_eq (congrArg (fun s => FileId.index s.1) hstorage).symm)
        · exact Or.inl ⟨f, hrest, rfl⟩
  | @leave n t top _ _ _ ih =>
    refine ih.trans ((n.keepsFiles_closeCells 0 top.openCells).trans (keepsFiles_modifyThread _ t fun th f hf => ?_))
    exact ⟨f, List.mem_of_mem_tail hf, rfl⟩
  | exhausted _ _ ih => exact ih.trans (keepsFiles_modifyThread _ _ fun th f hf => ⟨f, hf, rfl⟩)
  | @rebind n t top _ htop _ id args ih =>
    obtain ⟨tables, registers, change, hchange, hrebound⟩ := rebindTop_eq htop id args
    rw [hrebound]
    have hbound : (n.closeCells 0 top.openCells).1.KeepsFiles
        (Machine.modifyFile { (n.closeCells 0 top.openCells).1 with tables } top.file registers) :=
      .of_threads (by simp [modifyFile, modifyAt]) rfl
    exact ih.trans ((n.keepsFiles_closeCells 0 _).trans (hbound.trans
      (keepsFiles_modifyTop _ t fun f => congrArg Prod.fst (hchange f))))

theorem Unused.evolves (h : m.Unused file) (hevolves : m.Evolves may m') : m'.Unused file := by
  have hkept := hevolves.keepsFiles
  refine ⟨Nat.lt_of_lt_of_le h.exist hkept.size, fun t f hf heq => ?_⟩
  obtain ⟨g, hg, hfile⟩ | hnew := hkept.frames t f hf
  · exact h.frames t g hg (hfile.trans heq)
  · exact Nat.lt_irrefl _ (Nat.lt_of_lt_of_le (heq ▸ h.exist) hnew)

/-- The registers of a frame that is gone are retired. -/
theorem Tracked.retired (h : m.Tracked) (hunused : m.Unused file) : m.Retired file := by
  intro m' hbecomes id i hopen
  obtain ⟨ids, ⟨t, f, hf, hstorage⟩, -⟩ := (h.evolves hbecomes).listed hopen
  exact (hunused.evolves hbecomes).frames t f hf (congrArg Prod.fst hstorage)

theorem Retired.becomes (h : m.Retired file) (hbecomes : m.Becomes m') : m'.Retired file :=
  fun n hn => h n (hbecomes.trans hn)

/-- Frames that are no longer there are gone for good. -/
theorem Tracked.retired_of_dropped (h : m.Tracked) (hbecomes : m.Becomes m') {f : Frame} {n : Nat}
    (hf : f ∈ (m.thread t).frames.take n) (hframes : (m'.thread t).frames = (m.thread t).frames.drop n)
    (hothers : ∀ u, u ≠ t → (m'.thread u).frames = (m.thread u).frames) : m'.Retired f.file := by
  have hmem := List.mem_of_mem_take hf
  refine (h.evolves hbecomes).retired ⟨?_, fun u g hg heq => ?_⟩
  · exact Nat.lt_of_lt_of_le ((h.owned t).exist f hmem) (Evolves.keepsFiles hbecomes).size
  · by_cases hu : u = t
    · subst hu
      rw [hframes] at hg
      have hdistinct := (h.owned u).distinct
      rw [← List.take_append_drop n (m.thread u).frames, List.map_append, List.nodup_append] at hdistinct
      exact hdistinct.2.2 _ (List.mem_map_of_mem hf) _ (List.mem_map_of_mem hg) heq.symm
    · rw [hothers u hu] at hg
      exact hu (h.apart hg hmem heq)

theorem Tracked.retired_unwind (h : m.Tracked) {depth : Nat} {f : Frame}
    (hf : f ∈ (m.thread t).frames.take ((m.thread t).frames.length - depth)) : (m.unwind t depth).Retired f.file :=
  h.retired_of_dropped ((Becomes.refl m).unwind t depth) hf (frames_unwind (h.counted t) depth)
    fun u hu => by rw [(m.confined_unwind t depth).others u hu]

theorem Tracked.retired_popFrame (h : m.Tracked) (htop : m.topFrame? t = some top) :
    (m.popFrame t top).Retired top.file := by
  obtain ⟨rest, hframes⟩ := List.head?_eq_some_iff.mp htop
  refine h.retired_of_dropped (t := t) (n := 1) ((Becomes.refl m).leave htop trivial) ?_ ?_ fun u hu => ?_
  · rw [hframes]
    exact List.mem_cons_self
  · rw [thread_popFrame (lt_size_of_topFrame htop), List.drop_one]
  · rw [(Retains.popFrame (.refl m t) top).others u hu]

theorem Tracked.retired_finishReturn (h : m.Tracked) (htop : m.topFrame? t = some top) (vs : Values) (floor : Nat) :
    (m.finishReturn t vs floor).1.Retired top.file :=
  (h.retired_popFrame htop).becomes (Becomes.finishReturn_of_popFrame t htop (.refl _) vs floor)

theorem Tracked.retired_unwind_all (h : m.Tracked) {f : Frame} (hf : f ∈ (m.thread t).frames) :
    (m.unwind t 0).Retired f.file :=
  h.retired_unwind (by rwa [Nat.sub_zero, List.take_length])

theorem Tracked.retired_destroyThread (h : m.Tracked) {f : Frame} (hf : f ∈ (m.thread t).frames) :
    (m.destroyThread t).Retired f.file :=
  (h.retired_unwind_all hf).becomes ((Becomes.refl _).modifyThread t fun _ => .of_eq rfl rfl)

theorem Tracked.retired_jumpThread (h : m.Tracked) {f : Frame} {callee : Value} {args : Values}
    (hf : f ∈ (m.thread t).frames) (hjumped : m.jumpThread t callee args = .ok m') : m'.Retired f.file := by
  unfold jumpThread at hjumped
  split at hjumped
  · cases hjumped
  · cases hjumped
    exact (h.retired_unwind_all hf).becomes ((Becomes.refl _).modifyThread t fun _ => .of_eq rfl rfl)

/-- A tail call has closed the cells of the frame when it takes over its registers. -/
theorem Tracked.cell_rebindTop_ne (h : m.Tracked) (htop : m.topFrame? t = some top) (c : ClosureId) (args : Values)
    (id : CellId) (i : Nat) : (m.rebindTop t c args).cell id ≠ .onStack top.file i := by
  obtain ⟨tables, registers, change, -, hrebound⟩ := rebindTop_eq htop c args
  rw [hrebound]
  show (m.closeCells 0 top.openCells).1.cell id ≠ _
  rw [ne_eq, h.cell_closeCells_iff htop]
  exact fun hopen => Nat.not_lt_zero _ (hopen.2 rfl)

end Leaving

section Capturing

/-- A cell of a frame that stands for a register stands for one of the frame's. -/
theorem Tracked.cell_of_openRegister (h : m.Tracked) (htop : m.topFrame? t = some top) (hid : id ∈ top.openCells)
    (hopen : m.openRegister? id = some i) : m.cell id = .onStack top.file i := by
  obtain ⟨file, hcell⟩ := openRegister?_eq_some_iff.mp hopen
  obtain ⟨j, hcell'⟩ := (h.mem_openCells_iff (List.mem_of_mem_head? htop)).mp hid
  rw [hcell] at hcell'
  cases hcell'
  exact hcell

theorem Tracked.cell_captureRegister (h : m.Tracked) (htop : m.topFrame? t = some top) (i : Nat) :
    (m.captureRegister t top i).1.cell (m.captureRegister t top i).2 = .onStack top.file i := by
  obtain ⟨id, hid, hopen, hfound⟩ | ⟨-, hadded⟩ := m.captureRegister_cases t top i
  · rw [hfound]
    exact h.cell_of_openRegister htop hid hopen
  · rw [hadded]
    show (m.addCell _).1.cell ⟨m.cells.size⟩ = _
    rw [cell, addCell, Array.getElem?_push_size]
    rfl

/-- A register that has an open cell is captured by it. -/
theorem Tracked.captureRegister_eq (h : m.Tracked) (htop : m.topFrame? t = some top)
    (hopen : m.cell id = .onStack top.file i) : m.captureRegister t top i = (m, id) := by
  obtain ⟨other, hother, hsame, hfound⟩ | ⟨hnone, -⟩ := m.captureRegister_cases t top i
  · rw [hfound, h.once (h.cell_of_openRegister htop hother hsame) hopen]
  · have hid := (h.mem_openCells_iff (List.mem_of_mem_head? htop)).mpr ⟨i, hopen⟩
    exact absurd (openRegister?_eq_some_iff.mpr ⟨_, hopen⟩) (hnone id hid)

/-- Closures that capture one register share its cell, as long as that is not closed in between. -/
theorem Tracked.captureRegister_again (h : m.Tracked) (htop : m.topFrame? t = some top)
    (hevolves : (m.captureRegister t top i).1.Evolves (Sparing top.file i) m') {later : Frame}
    (hlater : m'.topFrame? u = some later) (hfile : later.file = top.file) :
    m'.captureRegister u later i = (m', (m.captureRegister t top i).2) := by
  have hcaptured : m.Becomes (m.captureRegister t top i).1 := (Becomes.refl m).capture htop i
  have htracked := h.evolves hcaptured
  have hopen := htracked.stays_open hevolves (h.cell_captureRegister htop i)
  rw [← hfile] at hopen
  exact (htracked.evolves hevolves).captureRegister_eq hlater hopen

theorem Tracked.closeTopCells_eq (h : m.Tracked) (htop : m.topFrame? t = some top) (start : Nat) :
    (m.closeTopCells t start).files = m.files ∧ ∀ id, (m.closeTopCells t start).cell id = match m.cell id with
      | .onStack file i => if file = top.file ∧ start ≤ i then .closed (m.register file i) else .onStack file i
      | .closed v => .closed v := by
  obtain ⟨cells, hcells⟩ := m.exists_closeCells_eq start top.openCells
  have hclosed := h.cell_closeCells_top htop start
  unfold closeTopCells
  rw [htop]
  refine ⟨?_, hclosed⟩
  show (m.closeCells start top.openCells).1.files = m.files
  rw [hcells]

theorem Tracked.upvalue_assignUpvalue (h : m.Tracked) {c d : ClosureId} {j k : Nat}
    (hc : (m.closure c).cells[j]? = some id) (hd : (m.closure d).cells[k]? = some id) (hid : id.index < m.cells.size)
    (v : Value) : (m.assignUpvalue c j v).upvalue d k = v := by
  have hclosure : ((m.setCellValue id v).closure d).cells[k]? = some id := by
    rw [← hd]
    unfold setCellValue
    split <;> rfl
  rw [assignUpvalue, hc]
  dsimp only
  rw [upvalue, hclosure]
  exact h.cellValue_setCellValue hid v

end Capturing

/-- Captured variables behave as shared cells, whichever operations on frames, registers and captured variables a
machine has gone through. Every step is made of such operations. -/
theorem sharesCells {limits : Limits} (h : (Machine.new limits).Becomes m) :
    m.SharesCells ∧ ∀ s, (Machine.new limits).Becomes (m.step s).1 := by
  have htracked := (tracked_new limits).evolves h
  refine ⟨?_, fun s => h.step s⟩
  exact {
    distinct := htracked.once
    captured := htracked.cell_captureRegister
    again := fun htop _ _ hevolves _ _ hlater hfile => htracked.captureRegister_again htop hevolves hlater hfile
    read := fun hopen => by rw [cellValue, hopen]
    write := fun {id file i} hopen v => by
      have hvalue := htracked.cellValue_setCellValue (lt_size_of_cell hopen) v
      rw [setCellValue, hopen] at hvalue ⊢
      exact ⟨rfl, register_setRegister (htracked.file_exists hopen) i v, hvalue⟩
    shared := htracked.upvalue_assignUpvalue
    close := htracked.closeTopCells_eq
    detached := fun {id v} hid hclosed => by
      refine ⟨fun m' hbecomes => htracked.stays_closed hbecomes hid hclosed, fun file f => ?_, fun w => ⟨?_, ?_⟩⟩
      · rw [cellValue, show (m.modifyFile file f).cell id = .closed v from hclosed]
      · rw [setCellValue, hclosed]
        rfl
      · exact htracked.cellValue_setCellValue hid w
    returned := htracked.retired_finishReturn
    rebound := htracked.cell_rebindTop_ne
    unwound := htracked.retired_unwind
    jumped := htracked.retired_jumpThread
    destroyed := htracked.retired_destroyThread }

/-- A machine whose only thread has entered a function. -/
def entered : Machine :=
  let (m, c) := (Machine.new {}).addClosure ⟨{ stackSize := 3 }, [], ⟨0⟩⟩
  let (m, t) := m.newThread (.closure c) []
  (m.pushFrame t c [] .host).1

/-- The function that was entered captures a register, which the new cell stands for. -/
theorem sharesCells_entered :
    let captured := (entered.captureRegister ⟨0⟩ ((entered.topFrame? ⟨0⟩).getD default) 1).1
    (Machine.new {}).Becomes captured ∧ captured.cell ⟨0⟩ = .onStack ⟨0⟩ 1 ∧ captured.SharesCells := by
  intro captured
  have hentered : (Machine.new {}).Becomes entered :=
    (((Becomes.refl _).addClosure _).newThread _ _).pushFrame _ _ _ _
  have hbecomes : (Machine.new {}).Becomes captured := by
    refine Evolves.capture hentered (t := ⟨0⟩) ?_ 1
    rfl
  refine ⟨hbecomes, ?_, (sharesCells hbecomes).1⟩
  decide +kernel

end LuaMachine.Machine
