import LuaMachine.Proofs.Machine.Ownership
import LuaMachine.Proofs.Machine.Unwinding
import Mathlib.Data.List.Nodup

namespace LuaMachine.Machine

variable {m m' : Machine} {t u : ThreadId} {top : Frame} {rest : List Frame}

section Closing

theorem cell_setCell (m : Machine) (id other : CellId) (c : Cell) :
    (m.setCell id c).cell other = if other = id ∧ id.index < m.cells.size then c else m.cell other := by
  have hindex : id.index = other.index ↔ other = id := by
    cases id
    cases other
    simp [eq_comm]
  rw [cell, setCell, Array.getElem?_setIfInBounds, cell]
  by_cases heq : other = id
  · subst heq
    rw [if_pos rfl]
    by_cases hlt : other.index < m.cells.size
    · rw [if_pos hlt, if_pos ⟨rfl, hlt⟩]
      rfl
    · rw [if_neg hlt, if_neg fun h => hlt h.2, Array.getElem?_eq_none (Nat.not_lt.mp hlt)]
  · rw [if_neg fun h => heq (hindex.mp h), if_neg fun h => heq h.1]

/-- A cell that is open exists. -/
theorem lt_size_of_cell {id : CellId} {file : FileId} {i : Nat} (h : m.cell id = .onStack file i) :
    id.index < m.cells.size := by
  refine Nat.lt_of_not_le fun hle => ?_
  rw [cell, Array.getElem?_eq_none hle] at h
  cases h

theorem cell_closeCell (m : Machine) (id other : CellId) :
    (m.closeCell id).cell other = if other = id then .closed (m.cellValue id) else m.cell other := by
  rw [closeCell, cell_setCell]
  by_cases heq : other = id
  · subst heq
    rw [if_pos rfl]
    by_cases hlt : other.index < m.cells.size
    · rw [if_pos ⟨rfl, hlt⟩]
    · have hnone : m.cell other = .closed .nil := by rw [cell, Array.getElem?_eq_none (Nat.not_lt.mp hlt)]; rfl
      rw [if_neg fun h => hlt h.2, cellValue, hnone]
  · rw [if_neg fun h => heq h.1, if_neg heq]

theorem openRegister?_closeCell (m : Machine) (id other : CellId) :
    (m.closeCell id).openRegister? other = if other = id then none else m.openRegister? other := by
  rw [openRegister?, cell_closeCell]
  by_cases heq : other = id
  · rw [if_pos heq, if_pos heq]
  · rw [if_neg heq, if_neg heq]
    rfl

theorem openRegister?_eq_some_iff {id : CellId} {i : Nat} :
    m.openRegister? id = some i ↔ ∃ file, m.cell id = .onStack file i := by
  unfold openRegister?
  cases m.cell id <;> simp

/-- The cells among `ids` that stand for a register from `start` on get that register's value, all others are left
alone. -/
theorem cell_closeCells (m : Machine) (start : Nat) (ids : List CellId) (other : CellId) :
    (m.closeCells start ids).1.cell other =
      if other ∈ ids ∧ (m.openRegister? other).any (start ≤ ·) then .closed (m.cellValue other) else m.cell other := by
  induction ids generalizing m with
  | nil => simp [closeCells]
  | cons id rest ih =>
    rw [closeCells]
    cases hopen : m.openRegister? id with
    | none =>
      dsimp only
      rw [ih]
      by_cases heq : other = id
      · subst heq
        simp [hopen]
      · simp [heq]
    | some i =>
      dsimp only
      by_cases hfrom : start ≤ i
      · rw [if_pos hfrom, ih, openRegister?_closeCell, cell_closeCell]
        by_cases heq : other = id
        · subst heq
          simp [hopen, hfrom]
        · have hvalue : (m.closeCell id).cellValue other = m.cellValue other := by
            unfold cellValue
            rw [cell_closeCell, if_neg heq]
            rfl
          simp [heq, hvalue]
      · rw [if_neg hfrom]
        dsimp only
        rw [ih]
        by_cases heq : other = id
        · subst heq
          simp [hopen, hfrom]
        · simp [heq]

/-- The cells below `start` are kept. -/
theorem closeCells_kept (m : Machine) (start : Nat) (ids : List CellId) :
    (m.closeCells start ids).2 = ids.filter fun id => (m.openRegister? id).any (· < start) := by
  induction ids generalizing m with
  | nil => rfl
  | cons id rest ih =>
    rw [closeCells]
    cases hopen : m.openRegister? id with
    | none =>
      dsimp only
      rw [ih, List.filter_cons_of_neg (by simp [hopen])]
    | some i =>
      dsimp only
      by_cases hfrom : start ≤ i
      · rw [if_pos hfrom, ih, List.filter_cons_of_neg (by simp [hopen, hfrom])]
        refine List.filter_congr fun other _ => ?_
        rw [openRegister?_closeCell]
        split
        · rename_i heq
          subst heq
          simp [hopen, hfrom]
        · rfl
      · rw [if_neg hfrom]
        dsimp only
        rw [ih, List.filter_cons_of_pos (by simpa [hopen] using Nat.not_le.mp hfrom)]

end Closing

/-- Capturing a register gives the cell that stands for it already, or a new one. -/
theorem captureRegister_cases (m : Machine) (t : ThreadId) (top : Frame) (i : Nat) :
    (∃ id ∈ top.openCells, m.openRegister? id = some i ∧ m.captureRegister t top i = (m, id)) ∨
      (∀ id ∈ top.openCells, m.openRegister? id ≠ some i) ∧ m.captureRegister t top i =
        ((m.addCell (.onStack top.file i)).1.modifyTop t fun f =>
          { f with openCells := f.openCells ++ [⟨m.cells.size⟩] }, ⟨m.cells.size⟩) := by
  unfold captureRegister
  split
  · rename_i id hfind
    have hopen := List.find?_some hfind
    exact Or.inl ⟨id, List.mem_of_find?_eq_some hfind, by simpa using hopen, rfl⟩
  · rename_i hfind
    exact Or.inr ⟨fun id hid heq => List.find?_eq_none.mp hfind id hid (beq_iff_eq.mpr heq), rfl⟩

/-- Some frame has these registers and these open cells. -/
def Stores (m : Machine) (file : FileId) (ids : List CellId) : Prop :=
  ∃ t, ∃ f ∈ (m.thread t).frames, f.storage = (file, ids)

/-- The frames are counted, each has registers of its own, and its open cells are those that stand for them, one for a
register at most. -/
structure Tracked (m : Machine) : Prop where
  counted : ∀ t, m.Counts t
  owned : m.Owned
  apart : ∀ {t u : ThreadId} {f g : Frame}, f ∈ (m.thread t).frames → g ∈ (m.thread u).frames → f.file = g.file → t = u
  opened : ∀ {file : FileId} {ids : List CellId}, m.Stores file ids → ∀ id ∈ ids, ∃ i, m.cell id = .onStack file i
  listed : ∀ {id : CellId} {file : FileId} {i : Nat}, m.cell id = .onStack file i → ∃ ids, m.Stores file ids ∧ id ∈ ids
  once : ∀ {a b : CellId} {file : FileId} {i : Nat}, m.cell a = .onStack file i → m.cell b = .onStack file i → a = b

theorem tracked_new (limits : Limits) : (Machine.new limits).Tracked := by
  have hthread (t : ThreadId) : (Machine.new limits).thread t = { number := 0, status := .dead } :=
    thread_of_le (Nat.zero_le _)
  have hcell (id : CellId) : (Machine.new limits).cell id = .closed .nil := by
    rw [cell, Array.getElem?_eq_none (Nat.zero_le _)]
    rfl
  have hnone {t : ThreadId} {f : Frame} (hf : f ∈ ((Machine.new limits).thread t).frames) : False := by
    rw [hthread] at hf
    exact List.not_mem_nil hf
  have hnot {id : CellId} {file : FileId} {i : Nat} (h : (Machine.new limits).cell id = .onStack file i) : False := by
    rw [hcell] at h
    cases h
  exact ⟨fun t => by rw [Counts, hthread]; rfl, (Hosted.new limits).owned, fun hf => (hnone hf).elim,
    fun ⟨_, _, hf, _⟩ => (hnone hf).elim, fun h => (hnot h).elim, fun h => (hnot h).elim⟩

namespace Tracked

theorem eq_of_file (h : m.Tracked) {f g : Frame} (hf : f ∈ (m.thread t).frames) (hg : g ∈ (m.thread u).frames)
    (hfile : f.file = g.file) : t = u ∧ f = g := by
  have hthread := h.apart hf hg hfile
  subst hthread
  exact ⟨rfl, List.inj_on_of_nodup_map (h.owned t).distinct hf hg hfile⟩

/-- The cells of a frame are those that stand for its registers. -/
theorem mem_openCells_iff (h : m.Tracked) {f : Frame} (hf : f ∈ (m.thread t).frames) {id : CellId} :
    id ∈ f.openCells ↔ ∃ i, m.cell id = .onStack f.file i := by
  refine ⟨fun hid => h.opened ⟨t, f, hf, rfl⟩ id hid, fun ⟨i, hcell⟩ => ?_⟩
  obtain ⟨ids, ⟨u, g, hg, hstorage⟩, hid⟩ := h.listed hcell
  obtain ⟨-, rfl⟩ := h.eq_of_file hg hf (congrArg Prod.fst hstorage)
  rwa [show ids = g.openCells from (congrArg Prod.snd hstorage).symm] at hid

/-- What leaves the storage of frames and the open cells alone keeps track of them. -/
theorem congr (h : m.Tracked) (howned : m'.Owned) (hthreads : ∀ t, (m.thread t).SameStorage (m'.thread t))
    (hcells : ∀ id file i, m'.cell id = .onStack file i ↔ m.cell id = .onStack file i) : m'.Tracked := by
  have hstores (file : FileId) (ids : List CellId) : m'.Stores file ids ↔ m.Stores file ids := by
    constructor
    · rintro ⟨t, f, hf, hstorage⟩
      obtain ⟨g, hg, hfile, hids⟩ := (hthreads t).exists_mem hf
      exact ⟨t, g, hg, by rw [← hstorage, Frame.storage, Frame.storage, hfile, hids]⟩
    · rintro ⟨t, f, hf, hstorage⟩
      obtain ⟨g, hg, hfile, hids⟩ := (hthreads t).symm.exists_mem hf
      exact ⟨t, g, hg, by rw [← hstorage, Frame.storage, Frame.storage, hfile, hids]⟩
  refine ⟨fun t => ?_, howned, fun hf hg hfile => ?_, fun hids id hid => ?_, fun hcell => ?_, fun ha hb => ?_⟩
  · rw [Counts, (hthreads t).depth, (hthreads t).length_eq]
    exact h.counted t
  · obtain ⟨f', hf', hfile', -⟩ := (hthreads _).exists_mem hf
    obtain ⟨g', hg', hgfile', -⟩ := (hthreads _).exists_mem hg
    exact h.apart hf' hg' (hfile'.symm.trans (hfile.trans hgfile'))
  · obtain ⟨i, hcell⟩ := h.opened ((hstores _ _).mp hids) id hid
    exact ⟨i, (hcells _ _ _).mpr hcell⟩
  · obtain ⟨ids, hids, hid⟩ := h.listed ((hcells _ _ _).mp hcell)
    exact ⟨ids, (hstores _ _).mpr hids, hid⟩
  · exact h.once ((hcells _ _ _).mp ha) ((hcells _ _ _).mp hb)

/-- The innermost frame of a thread may be replaced by others with its registers, and some cells be closed. -/
theorem stores_above (h : m.Tracked) (hframes : (m.thread t).frames = top :: rest) {above : List Frame}
    (habove : ∀ f ∈ above, f.file = top.file) (hframes' : (m'.thread t).frames = above ++ rest)
    (hothers : ∀ u, u ≠ t → (m'.thread u).frames = (m.thread u).frames) (file : FileId) (ids : List CellId) :
    m'.Stores file ids ↔ (∃ f ∈ above, f.storage = (file, ids)) ∨ file ≠ top.file ∧ m.Stores file ids := by
  have htop : top ∈ (m.thread t).frames := by rw [hframes]; exact List.mem_cons_self
  constructor
  · rintro ⟨u, f, hf, hstorage⟩
    have hfile : f.file = file := congrArg Prod.fst hstorage
    by_cases hu : u = t
    · subst hu
      rw [hframes'] at hf
      rcases List.mem_append.mp hf with hin | hin
      · exact Or.inl ⟨f, hin, hstorage⟩
      · have hown := h.owned u
        rw [hframes] at hown
        exact Or.inr ⟨hfile ▸ hown.ne_of_mem hin, u, f, by rw [hframes]; exact List.mem_cons_of_mem _ hin, hstorage⟩
    · rw [hothers u hu] at hf
      exact Or.inr ⟨fun heq => hu (h.apart hf htop (hfile.trans heq)), u, f, hf, hstorage⟩
  · rintro (⟨f, hf, hstorage⟩ | ⟨hne, u, f, hf, hstorage⟩)
    · exact ⟨t, f, by rw [hframes']; exact List.mem_append_left _ hf, hstorage⟩
    · by_cases hu : u = t
      · subst hu
        rw [hframes] at hf
        rcases List.mem_cons.mp hf with rfl | hin
        · exact absurd (congrArg Prod.fst hstorage).symm hne
        · exact ⟨u, f, by rw [hframes']; exact List.mem_append_right _ hin, hstorage⟩
      · exact ⟨u, f, by rw [hothers u hu]; exact hf, hstorage⟩

theorem apart_above (h : m.Tracked) (hframes : (m.thread t).frames = top :: rest) {above : List Frame}
    (habove : ∀ f ∈ above, f.file = top.file) (hframes' : (m'.thread t).frames = above ++ rest)
    (hothers : ∀ u, u ≠ t → (m'.thread u).frames = (m.thread u).frames) {v w : ThreadId} {f g : Frame}
    (hf : f ∈ (m'.thread v).frames) (hg : g ∈ (m'.thread w).frames) (hfile : f.file = g.file) : v = w := by
  have hold {v : ThreadId} {f : Frame} (hf : f ∈ (m'.thread v).frames) :
      ∃ f' ∈ (m.thread v).frames, f'.file = f.file := by
    by_cases hv : v = t
    · subst hv
      rw [hframes'] at hf
      rw [hframes]
      rcases List.mem_append.mp hf with hin | hin
      · exact ⟨top, List.mem_cons_self, (habove f hin).symm⟩
      · exact ⟨f, List.mem_cons_of_mem _ hin, rfl⟩
    · rw [hothers v hv] at hf
      exact ⟨f, hf, rfl⟩
  obtain ⟨f', hf', hsame⟩ := hold hf
  obtain ⟨g', hg', hsame'⟩ := hold hg
  exact h.apart hf' hg' (hsame.trans (hfile.trans hsame'.symm))

/-- Closing cells of the innermost frame closes those that stand for its registers from `start` on. -/
theorem cell_closeCells_top (h : m.Tracked) (htop : m.topFrame? t = some top) (start : Nat) (id : CellId) :
    (m.closeCells start top.openCells).1.cell id = match m.cell id with
      | .onStack file i => if file = top.file ∧ start ≤ i then .closed (m.register file i) else .onStack file i
      | .closed v => .closed v := by
  have hmem : top ∈ (m.thread t).frames := List.mem_of_mem_head? htop
  rw [cell_closeCells]
  cases hcell : m.cell id with
  | closed v => simp [openRegister?, hcell]
  | onStack file i =>
    have hin : id ∈ top.openCells ↔ file = top.file := by
      rw [h.mem_openCells_iff hmem, hcell]
      constructor
      · rintro ⟨j, heq⟩
        exact congrArg (fun c => match c with | .onStack file _ => file | .closed _ => file) heq
      · rintro rfl
        exact ⟨i, rfl⟩
    simp [openRegister?, hcell, cellValue, hin]

theorem cell_closeCells_iff (h : m.Tracked) (htop : m.topFrame? t = some top) (start : Nat) (id : CellId)
    (file : FileId) (i : Nat) : (m.closeCells start top.openCells).1.cell id = .onStack file i ↔
      m.cell id = .onStack file i ∧ (file = top.file → i < start) := by
  rw [h.cell_closeCells_top htop]
  cases m.cell id with
  | closed v => simp
  | onStack file' i' =>
    dsimp only
    split
    · rename_i hclosed
      simp only [reduceCtorEq, false_iff, Cell.onStack.injEq, not_and]
      rintro ⟨rfl, rfl⟩ hkept
      exact absurd (hkept hclosed.1) (Nat.not_lt.mpr hclosed.2)
    · rename_i hkept
      simp only [Cell.onStack.injEq, iff_self_and]
      rintro ⟨rfl, rfl⟩ heq
      exact Nat.not_le.mp fun hle => hkept ⟨heq, hle⟩

/-- The innermost frame may be left, or keep the cells below `start`, once the others are closed. -/
theorem closed (h : m.Tracked) (start : Nat) (above : List Frame) (howned : m'.Owned) (hcounted : ∀ t, m'.Counts t)
    (htop : m.topFrame? t = some top) (hframes : (m.thread t).frames = top :: rest)
    (hframes' : (m'.thread t).frames = above ++ rest)
    (hothers : ∀ u, u ≠ t → (m'.thread u).frames = (m.thread u).frames)
    (hcells : m'.cells = (m.closeCells start top.openCells).1.cells)
    (habove : ∀ f ∈ above, f.file = top.file)
    (hkept : ∀ f ∈ above, ∀ id, id ∈ f.openCells ↔ ∃ i < start, m.cell id = .onStack top.file i)
    (hsome : above = [] → start = 0) : m'.Tracked := by
  have hcell (id : CellId) (file : FileId) (i : Nat) : m'.cell id = .onStack file i ↔
      m.cell id = .onStack file i ∧ (file = top.file → i < start) := by
    rw [← h.cell_closeCells_iff htop, cell, hcells, cell]
  have hstores := h.stores_above hframes habove hframes' hothers
  refine ⟨hcounted, howned, h.apart_above hframes habove hframes' hothers, fun {file ids} hids id hid => ?_,
    fun {id file i} hopen => ?_, fun ha hb => h.once ((hcell _ _ _).mp ha).1 ((hcell _ _ _).mp hb).1⟩
  · obtain ⟨f, hf, hstorage⟩ | ⟨hne, hids⟩ := (hstores file ids).mp hids
    · cases hstorage
      obtain ⟨i, hlt, hopen⟩ := (hkept f hf id).mp hid
      exact ⟨i, (hcell _ _ _).mpr ⟨habove f hf ▸ hopen, fun _ => hlt⟩⟩
    · obtain ⟨i, hopen⟩ := h.opened hids id hid
      exact ⟨i, (hcell _ _ _).mpr ⟨hopen, fun heq => absurd heq hne⟩⟩
  · obtain ⟨hopen, hbelow⟩ := (hcell _ _ _).mp hopen
    by_cases heq : file = top.file
    · subst heq
      cases above with
      | nil =>
        rw [hsome rfl] at hbelow
        exact absurd (hbelow rfl) (Nat.not_lt_zero _)
      | cons f above =>
        have hf : f ∈ f :: above := List.mem_cons_self
        refine ⟨f.openCells, (hstores _ _).mpr (Or.inl ⟨f, hf, ?_⟩), (hkept f hf id).mpr ⟨i, hbelow rfl, hopen⟩⟩
        rw [Frame.storage, habove f hf]
    · obtain ⟨ids, hids, hid⟩ := h.listed hopen
      exact ⟨ids, (hstores _ _).mpr (Or.inr ⟨heq, hids⟩), hid⟩

end Tracked

section Counting

theorem counts_modifyThread (h : ∀ t, m.Counts t) {f : Thread → Thread}
    (hf : ∀ th : Thread, th.depth = th.frames.length → (f th).depth = (f th).frames.length) (u t : ThreadId) :
    (m.modifyThread u f).Counts t := by
  obtain hsame | hchanged := m.thread_modifyThread_cases u f t
  · rw [Counts, hsame]
    exact h t
  · rw [Counts, hchanged]
    exact hf _ (h t)

theorem counts_modifyTop (h : ∀ t, m.Counts t) (f : Frame → Frame) (u t : ThreadId) : (m.modifyTop u f).Counts t := by
  refine counts_modifyThread h (fun th hth => ?_) u t
  split
  · simpa using hth
  · exact hth

theorem counts_closeCells (h : ∀ t, m.Counts t) (start : Nat) (ids : List CellId) (t : ThreadId) :
    (m.closeCells start ids).1.Counts t := by
  obtain ⟨cells, hcells⟩ := m.exists_closeCells_eq start ids
  rw [hcells]
  exact h t

/-- Operations on frames, registers and captured variables keep count of the frames. -/
theorem counts_of_evolves {may : FileId → Nat → Prop} (h : ∀ t, m.Counts t) (hevolves : m.Evolves may m') :
    ∀ t, m'.Counts t := by
  induction hevolves with
  | refl => exact h
  | other _ _ _ hthreads ih =>
    intro t
    rw [Counts, (hthreads t).depth, (hthreads t).length_eq]
    exact ih t
  | write _ file f ih => exact ih
  | assign _ id v ih =>
    unfold setCellValue
    split <;> exact ih
  | detached _ v ih => exact ih
  | capture _ htop i ih =>
    unfold captureRegister
    split
    · exact ih
    · exact counts_modifyTop (m := (Machine.addCell _ _).1) ih _ _
  | close _ htop _ ih =>
    unfold closeTopCells
    rw [htop]
    exact counts_modifyTop (counts_closeCells ih _ _) _ _
  | @enter n _ t id args target ih =>
    obtain ⟨tables, registers, hfull | ⟨frame, -, hpushed⟩⟩ := n.pushFrame_cases t id args target
    · rw [hfull]
      exact ih
    · rw [hpushed]
      exact counts_modifyThread (m := { n with tables, files := n.files.push registers }) ih
        (fun th hth => congrArg (· + 1) hth) t
  | leave _ _ _ ih =>
    unfold popFrame
    refine counts_modifyThread (counts_closeCells ih 0 _) (fun th hth => ?_) _
    rw [List.length_tail, hth]
  | @exhausted n t _ htop ih =>
    intro u
    by_cases hu : u = t
    · obtain hsame | hchanged := n.thread_modifyThread_cases t (fun th => { th with depth := 0 }) t
      · rw [hu, Counts, hsame]
        exact ih t
      · rw [hu, Counts, hchanged]
        exact (congrArg List.length (List.head?_eq_none_iff.mp htop)).symm
    · rw [Counts, n.thread_modifyThread_of_ne hu]
      exact ih u
  | rebind _ htop _ id args ih =>
    obtain ⟨tables, registers, change, -, hrebound⟩ := rebindTop_eq htop id args
    rw [hrebound]
    exact counts_modifyTop (counts_closeCells ih 0 _) _ _

end Counting

namespace Tracked

/-- A register that has no open cell yet gets one. -/
theorem captured (h : m.Tracked) (howned : m'.Owned) (hcounted : ∀ t, m'.Counts t)
    (hframes : (m.thread t).frames = top :: rest) {i : Nat}
    (hnone : ∀ id ∈ top.openCells, m.cell id ≠ .onStack top.file i)
    (hcells : m'.cells = m.cells.push (.onStack top.file i))
    (hframes' : (m'.thread t).frames = { top with openCells := top.openCells ++ [⟨m.cells.size⟩] } :: rest)
    (hothers : ∀ u, u ≠ t → (m'.thread u).frames = (m.thread u).frames) : m'.Tracked := by
  have hmem : top ∈ (m.thread t).frames := by rw [hframes]; exact List.mem_cons_self
  have hcell (id : CellId) (file : FileId) (j : Nat) : m'.cell id = .onStack file j ↔
      id = ⟨m.cells.size⟩ ∧ (file, j) = (top.file, i) ∨ m.cell id = .onStack file j := by
    rw [cell, hcells, Array.getElem?_push, cell]
    by_cases hnew : id.index = m.cells.size
    · have hid : id = ⟨m.cells.size⟩ := by rw [← hnew]
      rw [if_pos hnew, hnew, Array.getElem?_eq_none (Nat.le_refl _)]
      simp [hid, Prod.ext_iff, eq_comm]
    · have hid : id ≠ ⟨m.cells.size⟩ := fun heq => hnew (congrArg CellId.index heq)
      rw [if_neg hnew]
      simp [hid]
  have hfresh (j : Nat) (file : FileId) : m.cell ⟨m.cells.size⟩ ≠ .onStack file j := fun heq =>
    Nat.lt_irrefl _ (lt_size_of_cell heq)
  have hunused (id : CellId) : m.cell id ≠ .onStack top.file i := fun heq =>
    hnone id ((h.mem_openCells_iff hmem).mpr ⟨i, heq⟩) heq
  have habove : ∀ f ∈ [({ top with openCells := top.openCells ++ [⟨m.cells.size⟩] } : Frame)], f.file = top.file := by
    simp
  have hstores := h.stores_above hframes habove hframes' hothers
  refine ⟨hcounted, howned, h.apart_above hframes habove hframes' hothers, fun {file ids} hids id hid => ?_,
    fun {id file j} hopen => ?_, fun {a b file j} ha hb => ?_⟩
  · obtain ⟨f, hf, hstorage⟩ | ⟨-, hids⟩ := (hstores file ids).mp hids
    · rw [List.mem_singleton.mp hf] at hstorage
      cases hstorage
      rcases List.mem_append.mp hid with hold | hnew
      · obtain ⟨j, hopen⟩ := (h.mem_openCells_iff hmem).mp hold
        exact ⟨j, (hcell _ _ _).mpr (Or.inr hopen)⟩
      · exact ⟨i, (hcell _ _ _).mpr (Or.inl ⟨List.mem_singleton.mp hnew, rfl⟩)⟩
    · obtain ⟨j, hopen⟩ := h.opened hids id hid
      exact ⟨j, (hcell _ _ _).mpr (Or.inr hopen)⟩
  · obtain ⟨hnew, hregister⟩ | hopen := (hcell _ _ _).mp hopen
    · cases hregister
      exact ⟨_, (hstores _ _).mpr (Or.inl ⟨_, List.mem_singleton.mpr rfl, rfl⟩), by simp [hnew]⟩
    · by_cases heq : file = top.file
      · subst heq
        refine ⟨_, (hstores _ _).mpr (Or.inl ⟨_, List.mem_singleton.mpr rfl, rfl⟩), ?_⟩
        exact List.mem_append_left _ ((h.mem_openCells_iff hmem).mpr ⟨j, hopen⟩)
      · obtain ⟨ids, hids, hid⟩ := h.listed hopen
        exact ⟨ids, (hstores _ _).mpr (Or.inr ⟨heq, hids⟩), hid⟩
  · obtain ⟨hnewa, hregister⟩ | hopena := (hcell _ _ _).mp ha
    · obtain ⟨hnewb, -⟩ | hopenb := (hcell _ _ _).mp hb
      · rw [hnewa, hnewb]
      · cases hregister
        exact absurd hopenb (hunused b)
    · obtain ⟨-, hregister⟩ | hopenb := (hcell _ _ _).mp hb
      · cases hregister
        exact absurd hopena (hunused a)
      · exact h.once hopena hopenb

/-- A frame with new registers and no cells comes on top of a thread. -/
theorem entered (h : m.Tracked) (howned : m'.Owned) (hcounted : ∀ t, m'.Counts t) {frame : Frame}
    (hstorage : frame.storage = (⟨m.files.size⟩, [])) (hframes : (m'.thread t).frames = frame :: (m.thread t).frames)
    (hothers : ∀ u, u ≠ t → (m'.thread u).frames = (m.thread u).frames) (hcells : m'.cells = m.cells) :
    m'.Tracked := by
  have hcell (id : CellId) : m'.cell id = m.cell id := by rw [cell, hcells, cell]
  have hindex : frame.file.index = m.files.size := congrArg (fun s => FileId.index s.1) hstorage
  have hnew {u : ThreadId} {f : Frame} (hf : f ∈ (m.thread u).frames) : f.file ≠ frame.file := by
    intro heq
    have hlt := (h.owned u).exist f hf
    rw [heq, hindex] at hlt
    exact Nat.lt_irrefl _ hlt
  have hold {u : ThreadId} {f : Frame} (hf : f ∈ (m'.thread u).frames) :
      u = t ∧ f = frame ∨ f ∈ (m.thread u).frames := by
    by_cases hu : u = t
    · subst hu
      rw [hframes] at hf
      rcases List.mem_cons.mp hf with rfl | hrest
      · exact Or.inl ⟨rfl, rfl⟩
      · exact Or.inr hrest
    · rw [hothers u hu] at hf
      exact Or.inr hf
  have hlater {u : ThreadId} {f : Frame} (hf : f ∈ (m.thread u).frames) : f ∈ (m'.thread u).frames := by
    by_cases hu : u = t
    · subst hu
      rw [hframes]
      exact List.mem_cons_of_mem _ hf
    · rwa [hothers u hu]
  refine ⟨hcounted, howned, fun hf hg hfile => ?_, fun {file ids} hids id hid => ?_, fun {id file i} hopen => ?_,
    fun ha hb => h.once ((hcell _).symm.trans ha) ((hcell _).symm.trans hb)⟩
  · obtain ⟨rfl, rfl⟩ | hf := hold hf
    · obtain ⟨rfl, -⟩ | hg := hold hg
      · rfl
      · exact absurd hfile.symm (hnew hg)
    · obtain ⟨-, rfl⟩ | hg := hold hg
      · exact absurd hfile (hnew hf)
      · exact h.apart hf hg hfile
  · obtain ⟨u, f, hf, hsame⟩ := hids
    obtain ⟨-, rfl⟩ | hf := hold hf
    · rw [hstorage] at hsame
      cases hsame
      exact absurd hid List.not_mem_nil
    · rw [hcell]
      exact h.opened ⟨u, f, hf, hsame⟩ id hid
  · rw [hcell] at hopen
    obtain ⟨ids, ⟨u, f, hf, hsame⟩, hid⟩ := h.listed hopen
    exact ⟨ids, ⟨u, f, hlater hf, hsame⟩, hid⟩

/-- Frames keep to their own storage, and are counted, in a machine that comes of a tracked one. -/
theorem owned_and_counted (h : m.Tracked) (hbecomes : m.Becomes m') : m'.Owned ∧ ∀ t, m'.Counts t :=
  ⟨h.owned.evolves hbecomes, counts_of_evolves h.counted hbecomes⟩

/-- Assigning to a captured variable leaves open cells open. -/
theorem assign (h : m.Tracked) (id : CellId) (v : Value) : (m.setCellValue id v).Tracked := by
  obtain ⟨howned, -⟩ := h.owned_and_counted (.assign .refl id v)
  unfold setCellValue at howned ⊢
  split at howned
  · exact h.congr howned (fun _ => .refl _) fun _ _ _ => Iff.rfl
  · rename_i w hclosed
    refine h.congr howned (fun _ => .refl _) fun other file i => ?_
    rw [cell_setCell]
    split
    · rename_i heq
      rw [heq.1, hclosed]
      simp
    · rfl

/-- A variable that never was a register has no open cell. -/
theorem detached (h : m.Tracked) (v : Value) : (m.addCell (.closed v)).1.Tracked := by
  obtain ⟨howned, -⟩ := h.owned_and_counted (.detached .refl v)
  refine h.congr howned (fun _ => .refl _) fun id file i => ?_
  rw [cell, addCell, Array.getElem?_push, cell]
  split
  · rename_i hnew
    rw [hnew, Array.getElem?_eq_none (Nat.le_refl _)]
    simp
  · rfl

/-- A register of the innermost frame is captured. -/
theorem capture (h : m.Tracked) (htop : m.topFrame? t = some top) (i : Nat) :
    (m.captureRegister t top i).1.Tracked := by
  obtain ⟨howned, hcounted⟩ := h.owned_and_counted (.capture .refl htop i)
  obtain ⟨rest, hframes⟩ := List.head?_eq_some_iff.mp htop
  obtain ⟨id, -, -, hfound⟩ | ⟨hnone, hadded⟩ := m.captureRegister_cases t top i
  · rw [hfound]
    exact h
  · have hrange := lt_size_of_topFrame htop
    rw [hadded] at howned hcounted ⊢
    refine h.captured howned hcounted hframes (fun id hid hopen => ?_) rfl
      (congrArg Thread.frames (thread_modifyTop (m := (m.addCell _).1) hrange hframes _))
      fun u hu => congrArg Thread.frames ((m.addCell _).1.thread_modifyThread_of_ne hu _)
    exact hnone id hid (openRegister?_eq_some_iff.mpr ⟨_, hopen⟩)

/-- The cells of the innermost frame are closed from a register on. -/
theorem close (h : m.Tracked) (htop : m.topFrame? t = some top) (start : Nat) :
    (m.closeTopCells t start).Tracked := by
  obtain ⟨howned, hcounted⟩ := h.owned_and_counted (.close .refl htop trivial)
  obtain ⟨rest, hframes⟩ := List.head?_eq_some_iff.mp htop
  obtain ⟨cells, hcells⟩ := m.exists_closeCells_eq start top.openCells
  have hrange := lt_size_of_topFrame htop
  unfold closeTopCells at howned hcounted ⊢
  rw [htop] at howned hcounted ⊢
  dsimp only at howned hcounted ⊢
  refine h.closed start [{ top with openCells := (m.closeCells start top.openCells).2 }] howned hcounted htop
    hframes ?_ ?_ rfl (by simp) ?_ (by simp)
  · rw [hcells]
    exact congrArg Thread.frames (thread_modifyTop (m := { m with cells }) hrange hframes _)
  · intro u hu
    rw [hcells]
    exact congrArg Thread.frames (({ m with cells } : Machine).thread_modifyThread_of_ne hu _)
  · intro f hf id
    rw [List.mem_singleton.mp hf]
    dsimp only
    rw [closeCells_kept, List.mem_filter, h.mem_openCells_iff (List.mem_of_mem_head? htop)]
    constructor
    · rintro ⟨⟨i, hopen⟩, hlt⟩
      rw [openRegister?, hopen] at hlt
      exact ⟨i, by simpa using hlt, hopen⟩
    · rintro ⟨i, hlt, hopen⟩
      refine ⟨⟨i, hopen⟩, ?_⟩
      rw [openRegister?, hopen]
      simpa using hlt

/-- A closure is entered, or refused because there are too many frames. -/
theorem enter (h : m.Tracked) (t : ThreadId) (id : ClosureId) (args : Values) (target : ReturnTarget) :
    (m.pushFrame t id args target).1.Tracked := by
  obtain ⟨howned, hcounted⟩ := h.owned_and_counted (.enter .refl t id args target)
  obtain ⟨tables, registers, hfull | ⟨frame, hstorage, hpushed⟩⟩ := m.pushFrame_cases t id args target
  · rw [hfull] at howned ⊢
    exact h.congr howned (fun _ => .refl _) fun _ _ _ => Iff.rfl
  · by_cases hrange : t.index < m.threads.size
    · rw [hpushed] at howned hcounted ⊢
      refine h.entered howned hcounted hstorage
        (congrArg Thread.frames (thread_modifyThread (m := { m with tables, files := m.files.push registers })
          hrange _)) (fun u hu => ?_) rfl
      exact congrArg Thread.frames (Machine.thread_modifyThread_of_ne _ hu _)
    · have hsame (u : ThreadId) : (m.pushFrame t id args target).1.thread u = m.thread u := by
        rw [hpushed]
        by_cases hu : u = t
        · have hle := Nat.not_lt.mp hrange
          rw [hu, thread_of_le hle, thread_of_le (by simpa [modifyThread, modifyAt] using hle)]
        · exact Machine.thread_modifyThread_of_ne _ hu _
      refine h.congr howned (fun u => by rw [hsame]; exact .refl _) fun id file i => ?_
      rw [hpushed]
      rfl

/-- The innermost frame is left. -/
theorem leave (h : m.Tracked) (htop : m.topFrame? t = some top) : (m.popFrame t top).Tracked := by
  obtain ⟨howned, hcounted⟩ := h.owned_and_counted (.leave .refl htop trivial)
  obtain ⟨rest, hframes⟩ := List.head?_eq_some_iff.mp htop
  obtain ⟨cells, hcells⟩ := m.exists_closeCells_eq 0 top.openCells
  refine h.closed 0 [] howned hcounted htop hframes ?_ (fun u hu => ?_) rfl (by simp) (by simp) (fun _ => rfl)
  · rw [thread_popFrame (lt_size_of_topFrame htop), hframes]
    rfl
  · rw [(Retains.popFrame (.refl m t) top).others u hu]

/-- A thread without frames has none to leave. -/
theorem exhausted (h : m.Tracked) (htop : m.topFrame? t = none) :
    (m.modifyThread t fun th => { th with depth := 0 }).Tracked := by
  obtain ⟨howned, -⟩ := h.owned_and_counted (.exhausted .refl htop)
  refine h.congr howned (fun u => ?_) fun _ _ _ => Iff.rfl
  by_cases hu : u = t
  · subst hu
    obtain hsame | hchanged := m.thread_modifyThread_cases u (fun th => { th with depth := 0 }) u
    · rw [hsame]
      exact .refl _
    · rw [hchanged]
      refine ⟨rfl, ?_⟩
      rw [h.counted u, List.head?_eq_none_iff.mp htop]
      rfl
  · rw [m.thread_modifyThread_of_ne hu]
    exact .refl _

/-- A tail call takes the place of the innermost frame. -/
theorem rebind (h : m.Tracked) (htop : m.topFrame? t = some top) (id : ClosureId) (args : Values) :
    (m.rebindTop t id args).Tracked := by
  obtain ⟨howned, hcounted⟩ := h.owned_and_counted (.rebind .refl htop trivial id args)
  obtain ⟨rest, hframes⟩ := List.head?_eq_some_iff.mp htop
  obtain ⟨cells, hcells⟩ := m.exists_closeCells_eq 0 top.openCells
  obtain ⟨tables, registers, change, hchange, hrebound⟩ := rebindTop_eq htop id args
  have hrange := lt_size_of_topFrame htop
  rw [hrebound] at howned hcounted ⊢
  refine h.closed 0 [change top] howned hcounted htop hframes ?_ (fun u hu => ?_) rfl ?_ ?_ (fun _ => rfl)
  · rw [hcells]
    exact congrArg Thread.frames (thread_modifyTop (m := Machine.modifyFile { m with cells, tables } _ _) hrange
      hframes _)
  · rw [hcells]
    exact congrArg Thread.frames
      ((Machine.modifyFile { m with cells, tables } _ _).thread_modifyThread_of_ne hu _)
  · intro f hf
    rw [List.mem_singleton.mp hf]
    exact congrArg Prod.fst (hchange top)
  · intro f hf id
    rw [List.mem_singleton.mp hf, show (change top).openCells = [] from congrArg Prod.snd (hchange top)]
    simp

/-- Operations on frames, registers and captured variables keep track of the open cells. -/
theorem evolves {may : FileId → Nat → Prop} (h : m.Tracked) (hevolves : m.Evolves may m') : m'.Tracked := by
  induction hevolves with
  | refl => exact h
  | other _ hcells hfiles hthreads ih =>
    obtain ⟨howned, -⟩ := ih.owned_and_counted (.other .refl hcells hfiles hthreads)
    refine ih.congr howned hthreads fun id file i => ?_
    rw [cell, hcells, cell]
  | write _ file f ih =>
    exact ih.congr (ih.owned_and_counted (.write .refl file f)).1 (fun _ => .refl _) fun _ _ _ => Iff.rfl
  | assign _ id v ih => exact ih.assign id v
  | detached _ v ih => exact ih.detached v
  | capture _ htop i ih => exact ih.capture htop i
  | close _ htop _ ih => exact ih.close htop _
  | enter _ t id args target ih => exact ih.enter t id args target
  | leave _ htop _ ih => exact ih.leave htop
  | exhausted _ htop ih => exact ih.exhausted htop
  | rebind _ htop _ id args ih => exact ih.rebind htop id args

end Tracked

end LuaMachine.Machine
