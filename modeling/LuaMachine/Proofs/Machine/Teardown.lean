import LuaMachine.Proofs.Machine.Accessible
import LuaMachine.Proofs.Machine.Cells
import LuaMachine.Proofs.Machine.Steady
import LuaMachine.Proofs.Table.Vanishing

namespace LuaMachine

/-- What one step sets and all steps keep holds after steps with all elements of a list. -/
theorem foldl_of_mem {α β : Type} {f : β → α → β} {I P : β → Prop} {a : α} {l : List α} (ha : a ∈ l)
    (hI : ∀ b a, I b → I (f b a)) (hset : ∀ b, I b → P (f b a)) (hkeep : ∀ b a, I b → P b → P (f b a)) {b : β}
    (hb : I b) : P (l.foldl f b) := by
  obtain ⟨before, later, rfl⟩ := List.append_of_mem ha
  rw [List.foldl_append, List.foldl_cons]
  have hbefore : I (before.foldl f b) := List.foldlRecOn before f hb fun b hb a _ => hI b a hb
  have hboth : I (later.foldl f (f (before.foldl f b) a)) ∧ P (later.foldl f (f (before.foldl f b) a)) :=
    List.foldlRecOn (motive := fun b => I b ∧ P b) later f ⟨hI _ a hbefore, hset _ hbefore⟩
      fun b hb a _ => ⟨hI b a hb.1, hkeep b a hb.1 hb.2⟩
  exact hboth.2

namespace Machine

/-- What closing starts from: the globals, the registry and the metatable of strings. -/
def anchors (m : Machine) : Values := .table m.globals :: .table m.registry :: m.stringMetatable.toList.map .table

/-- Ends a found thread that is not busy. -/
def endFound (m : Machine) : Ref → Machine
  | .thread id => if m.isBusy id then m else m.destroyThread id
  | _ => m

/-- What closing finds. -/
def reached (m : Machine) : List Ref := m.reachable (m.referenceCount + m.anchors.length + 1) m.anchors []

/-- Closing ends the found threads first and then dismantles all that it found. -/
theorem close_eq (m : Machine) : m.close =
    m.reached.foldl dismantle (m.reached.foldl endFound { m with stringMetatable := none }) := rfl

variable {m : Machine} {t u : ThreadId} {c : CellId} {found : List Ref} {r : Ref}

section Threads

/-- A thread runs nothing and keeps nothing to run. -/
structure Over (m : Machine) (t : ThreadId) : Prop where
  status : (m.thread t).status = .dead
  frames : (m.thread t).frames = []
  depth : (m.thread t).depth = 0
  start : (m.thread t).start = none

theorem Over.counts (h : m.Over t) : m.Counts t := by
  rw [Counts, h.depth, h.frames]
  rfl

theorem over_of_le (hout : m.threads.size ≤ t.index) : m.Over t := by
  constructor <;> rw [thread_of_le hout]

theorem Over.of_thread_eq {n : Machine} (h : m.Over t) (hsame : n.thread t = m.thread t) : n.Over t := by
  constructor <;> rw [hsame]
  exacts [h.status, h.frames, h.depth, h.start]

theorem over_destroyThread (hcount : m.Counts t) : (m.destroyThread t).Over t := by
  by_cases hrange : t.index < m.threads.size
  · have hunwound := thread_unwind hrange hcount List.nil_suffix
    have hthread : (m.destroyThread t).thread t = _ :=
      thread_modifyThread (by rw [(m.confined_unwind t 0).size]; exact hrange) _
    rw [List.length_nil] at hunwound
    constructor <;> rw [hthread] <;> simp only [hunwound]
  · refine over_of_le ?_
    rw [(m.confined_destroyThread t).size]
    exact Nat.not_lt.mp hrange

theorem counts_destroyThread (hcount : m.Counts t) (u : ThreadId) : (m.destroyThread u).Counts t := by
  by_cases htu : t = u
  · subst htu
    exact (over_destroyThread hcount).counts
  · rw [Counts, (m.confined_destroyThread u).others t htu]
    exact hcount

theorem Over.destroyThread (h : m.Over t) (u : ThreadId) : (m.destroyThread u).Over t := by
  by_cases htu : t = u
  · subst htu
    exact over_destroyThread h.counts
  · exact h.of_thread_eq ((m.confined_destroyThread u).others t htu)

/-- Every found thread is over, if none is busy. -/
theorem over_foldl_endFound (hidle : ∀ u, m.isBusy u = false) (hcount : m.Counts t) (ht : .thread t ∈ found) :
    (found.foldl endFound m).Over t := by
  refine foldl_of_mem (I := fun n : Machine => n.stack = m.stack ∧ n.Counts t) (P := fun n => n.Over t) ht
    ?_ ?_ ?_ ⟨rfl, hcount⟩
  · rintro n (_ | _ | _ | _ | u) ⟨hstack, hcount⟩
    case thread =>
      rw [endFound]
      split
      · exact ⟨hstack, hcount⟩
      · exact ⟨(n.confined_destroyThread u).stack.trans hstack, counts_destroyThread hcount u⟩
    all_goals exact ⟨hstack, hcount⟩
  · rintro n ⟨hstack, hcount⟩
    have hbusy : n.isBusy t = false := by
      rw [isBusy, hstack]
      exact hidle t
    rw [endFound, hbusy]
    exact over_destroyThread hcount
  · rintro n (_ | _ | _ | _ | u) - hover
    case thread =>
      rw [endFound]
      split
      · exact hover
      · exact hover.destroyThread u
    all_goals exact hover

/-- Unwinding touches threads and cells only. -/
theorem exists_unwind_eq (m : Machine) (t : ThreadId) (depth : Nat) :
    ∃ threads cells, m.unwind t depth = { m with threads, cells } := by
  have hframes (fuel : Nat) (m : Machine) :
    ∃ threads cells, m.unwindFrames t depth fuel = { m with threads, cells } := by
    induction fuel generalizing m with
    | zero => exact ⟨_, _, rfl⟩
    | succ fuel ih =>
      unfold unwindFrames
      split
      · exact ⟨_, _, rfl⟩
      · split
        · exact ⟨_, _, rfl⟩
        · rename_i top _
          obtain ⟨cells, hclosed⟩ := m.exists_closeCells_eq 0 top.openCells
          obtain ⟨threads, cells, hrest⟩ := ih (m.popFrame t top)
          refine ⟨threads, cells, ?_⟩
          rw [hrest, popFrame]
          dsimp only
          rw [hclosed]
          rfl
  exact hframes _ m

theorem exists_foldl_endFound_eq (found : List Ref) (m : Machine) :
    ∃ threads cells, found.foldl endFound m = { m with threads, cells } := by
  refine List.foldlRecOn (motive := fun n : Machine => ∃ threads cells, n = { m with threads, cells }) found endFound
    ⟨m.threads, m.cells, rfl⟩ ?_
  rintro _ ⟨threads, cells, rfl⟩ r -
  cases r with
  | thread t =>
    rw [endFound]
    split
    · exact ⟨_, _, rfl⟩
    · obtain ⟨threads', cells', hunwound⟩ := ({ m with threads, cells } : Machine).exists_unwind_eq t 0
      rw [destroyThread, hunwound]
      exact ⟨_, _, rfl⟩
  | table | closure | native | userdata => exact ⟨_, _, rfl⟩

end Threads

section Cells

/-- A register reads as nil once nil is written to it, whether or not it exists. -/
theorem register_setRegister_nil (file other : FileId) (i j : Nat) : (m.setRegister file i .nil).register other j =
    if other = file ∧ j = i then .nil else m.register other j := by
  by_cases hfile : other = file
  · subst hfile
    simp only [true_and]
    by_cases hrange : other.index < m.files.size
    · rw [register, setRegister, file_modifyFile hrange, getD_writeAt, register]
    · have hnone : m.files[other.index]? = none := Array.getElem?_eq_none (Nat.not_lt.mp hrange)
      have hnil : m.register other j = .nil := by
        rw [register, file, hnone]
        rfl
      rw [hnil, ite_self, register, file, setRegister, modifyFile, modifyAt, Array.getElem?_modify, hnone]
      split <;> rfl
  · rw [if_neg fun heq => hfile heq.1, register, setRegister, file_modifyFile_of_ne hfile, register]

/-- A captured variable reads as nil once it is made nil, and one that does stays so. -/
theorem cellValue_setCellValue_nil {id : CellId} (h : c = id ∨ m.cellValue c = .nil) :
    (m.setCellValue id .nil).cellValue c = .nil := by
  unfold setCellValue
  split
  · rename_i file i hopen
    have hcell : (m.setRegister file i .nil).cell c = m.cell c := rfl
    rw [cellValue, hcell]
    rcases h with rfl | hnil
    · rw [hopen]
      exact (register_setRegister_nil file file i i).trans (if_pos ⟨rfl, rfl⟩)
    · rw [cellValue] at hnil
      split
      · rename_i other j hother
        rw [hother] at hnil
        rw [register_setRegister_nil]
        exact ite_eq_left_iff.mpr fun _ => hnil
      · rename_i v hother
        rw [hother] at hnil
        exact hnil
  · rw [cellValue, cell_setCell]
    by_cases hset : c = id ∧ id.index < m.cells.size
    · rw [if_pos hset]
    · rw [if_neg hset]
      rcases h with rfl | hnil
      · rw [cell, Array.getElem?_eq_none (Nat.not_lt.mp fun hrange => hset ⟨rfl, hrange⟩)]
        rfl
      · exact hnil

theorem exists_setCellValue_eq (m : Machine) (id : CellId) (v : Value) :
    ∃ cells files, m.setCellValue id v = { m with cells, files } := by
  unfold setCellValue
  split <;> exact ⟨_, _, rfl⟩

/-- Captured variables read as nil once they all are made nil, and so does any other one that did. -/
theorem cellValue_foldl_setCellValue {ids : List CellId} (h : c ∈ ids ∨ m.cellValue c = .nil) :
    (ids.foldl (fun m id => m.setCellValue id .nil) m).cellValue c = .nil := by
  induction ids generalizing m with
  | nil => exact h.resolve_left List.not_mem_nil
  | cons id ids ih =>
    refine ih ?_
    rw [List.mem_cons, or_assoc] at h
    rcases h with heq | hmem | hnil
    · exact .inr (cellValue_setCellValue_nil (.inl heq))
    · exact .inl hmem
    · exact .inr (cellValue_setCellValue_nil (.inr hnil))

theorem exists_foldl_setCellValue_eq (ids : List CellId) (m : Machine) :
    ∃ cells files, ids.foldl (fun m id => m.setCellValue id .nil) m = { m with cells, files } := by
  refine List.foldlRecOn (motive := fun n : Machine => ∃ cells files, n = { m with cells, files }) ids _
    ⟨m.cells, m.files, rfl⟩ ?_
  rintro _ ⟨cells, files, rfl⟩ id -
  obtain ⟨cells', files', hset⟩ := ({ m with cells, files } : Machine).exists_setCellValue_eq id .nil
  exact ⟨cells', files', hset⟩

end Cells

section Dismantling

/-- Dismantling touches tables and captured variables only. -/
theorem exists_dismantle_eq (m : Machine) (r : Ref) :
    ∃ tables cells files, m.dismantle r = { m with tables, cells, files } := by
  cases r with
  | closure id =>
    obtain ⟨cells, files, hset⟩ := exists_foldl_setCellValue_eq (m.closure id).cells m
    exact ⟨m.tables, cells, files, hset⟩
  | table | native | userdata | thread => exact ⟨_, _, _, rfl⟩

theorem exists_foldl_dismantle_eq (found : List Ref) (m : Machine) :
    ∃ tables cells files, found.foldl dismantle m = { m with tables, cells, files } := by
  refine List.foldlRecOn (motive := fun n : Machine => ∃ tables cells files, n = { m with tables, cells, files })
    found dismantle ⟨m.tables, m.cells, m.files, rfl⟩ ?_
  rintro _ ⟨tables, cells, files, rfl⟩ r -
  obtain ⟨tables', cells', files', hdone⟩ := ({ m with tables, cells, files } : Machine).exists_dismantle_eq r
  exact ⟨tables', cells', files', hdone⟩

/-- A table is replaced by an empty one, and no other one changes. -/
theorem table_dismantle (m : Machine) (r : Ref) (id : TableId) :
    (m.dismantle r).table id = if r = .table id then Table.new 0 0 else m.table id := by
  cases r with
  | table other =>
    by_cases hself : id = other
    · subst hself
      rw [if_pos rfl, dismantle]
      by_cases hrange : id.index < m.tables.size
      · rw [table_modifyTable hrange]
      · rw [modifyTable_of_le (Nat.not_lt.mp hrange), table_of_le (Nat.not_lt.mp hrange)]
    · rw [if_neg fun heq => hself (Ref.table.inj heq).symm]
      exact (changesOnly_modifyTable m other _).others id hself
  | closure other =>
    obtain ⟨cells, files, hset⟩ := exists_foldl_setCellValue_eq (m.closure other).cells m
    rw [dismantle, hset]
    exact (if_neg nofun).symm
  | native | userdata | thread => exact (if_neg nofun).symm

/-- The found tables are empty, and no other one has changed. -/
theorem table_foldl_dismantle (found : List Ref) (m : Machine) (id : TableId) :
    (found.foldl dismantle m).table id = if .table id ∈ found then Table.new 0 0 else m.table id := by
  induction found generalizing m with
  | nil => rfl
  | cons r found ih =>
    rw [List.foldl_cons, ih, table_dismantle]
    by_cases hlater : .table id ∈ found
    · rw [if_pos hlater, if_pos (List.mem_cons_of_mem r hlater)]
    · simp only [hlater, if_false, List.mem_cons, or_false, eq_comm]

/-- The variables that found closures have captured are nil. -/
theorem cellValue_foldl_dismantle {id : ClosureId} (hfound : .closure id ∈ found) (hc : c ∈ (m.closure id).cells) :
    (found.foldl dismantle m).cellValue c = .nil := by
  have hclosures (n : Machine) (r : Ref) : (n.dismantle r).closures = n.closures := by
    obtain ⟨tables, cells, files, hdone⟩ := n.exists_dismantle_eq r
    rw [hdone]
  refine foldl_of_mem (I := fun n : Machine => n.closures = m.closures) (P := fun n => n.cellValue c = .nil) hfound
    (fun n r hsame => (hclosures n r).trans hsame) (fun n hsame => ?_) (fun n r _ hnil => ?_) rfl
  · refine cellValue_foldl_setCellValue (.inl ?_)
    rw [closure, hsame]
    exact hc
  · cases r with
    | closure other => exact cellValue_foldl_setCellValue (.inr hnil)
    | table | native | userdata | thread => exact hnil

end Dismantling

section Closing

/-- The search of closing ends, and finds what can be reached. -/
theorem exists_reached_eq (hclosures : ∀ id, m.Accessible m.anchors (.closure id) → id.index < m.closures.size) :
    (∀ fuel, m.referenceCount + m.anchors.length ≤ fuel → m.reachable fuel m.anchors [] = m.reached) ∧
      ∀ r, r ∈ m.reached ↔ m.Accessible m.anchors r := by
  obtain ⟨all, hall, hends⟩ := exists_searched hclosures (.start m m.anchors)
    (Nat.add_le_add_right (Nat.le_of_eq m.referencesLeft_nil) _)
  have hreached : m.reached = all := hends _ (Nat.le_succ _)
  rw [hreached]
  exact ⟨hends, fun r => hall.mem_iff⟩

theorem exists_close_eq (m : Machine) : ∃ tables threads cells files,
    m.close = { m with tables, threads, cells, files, stringMetatable := none } := by
  obtain ⟨threads, cells, hended⟩ := exists_foldl_endFound_eq m.reached { m with stringMetatable := none }
  obtain ⟨tables, cells', files, hdone⟩ :=
    exists_foldl_dismantle_eq m.reached { m with stringMetatable := none, threads, cells }
  exact ⟨tables, threads, cells', files, by rw [close_eq, hended, hdone]⟩

/-- The found tables are empty, and no other one has changed. -/
theorem table_close (m : Machine) (id : TableId) :
    m.close.table id = if .table id ∈ m.reached then Table.new 0 0 else m.table id := by
  obtain ⟨threads, cells, hended⟩ := exists_foldl_endFound_eq m.reached { m with stringMetatable := none }
  rw [close_eq, table_foldl_dismantle, hended]
  rfl

theorem closure_close (m : Machine) (id : ClosureId) : m.close.closure id = m.closure id := by
  obtain ⟨tables, threads, cells, files, hclosed⟩ := m.exists_close_eq
  rw [hclosed]
  rfl

theorem userdatum_close (m : Machine) (id : UserdataId) : m.close.userdatum id = m.userdatum id := by
  obtain ⟨tables, threads, cells, files, hclosed⟩ := m.exists_close_eq
  rw [hclosed]
  rfl

theorem cellValue_close {id : ClosureId} (hfound : .closure id ∈ m.reached) (hc : c ∈ (m.closure id).cells) :
    m.close.cellValue c = .nil := by
  obtain ⟨threads, cells, hended⟩ := exists_foldl_endFound_eq m.reached { m with stringMetatable := none }
  rw [close_eq, hended]
  exact cellValue_foldl_dismantle hfound hc

theorem over_close (hidle : ∀ u, m.isBusy u = false) (hcount : m.Counts t) (hfound : .thread t ∈ m.reached) :
    m.close.Over t := by
  have hended := over_foldl_endFound (m := { m with stringMetatable := none }) hidle hcount hfound
  obtain ⟨tables, cells, files, hdone⟩ :=
    exists_foldl_dismantle_eq m.reached (m.reached.foldl endFound { m with stringMetatable := none })
  rw [close_eq, hdone]
  generalize m.reached.foldl endFound _ = ended at hended
  exact hended.of_thread_eq rfl

theorem entries_of_table_eq {id : TableId} (htable : m.table id = Table.new 0 0) (inUse : Values) :
    m.entries id inUse = [] := by
  rw [entries, htable]
  rfl

theorem context_of_strong {id : TableId} (h : (m.table id).mode.isWeak = false) (inUse : Values) :
    m.context id inUse = .strong m.hash := by
  rw [context, h]
  rfl

theorem hash_close (m : Machine) : m.close.hash = m.hash := by
  obtain ⟨tables, threads, cells, files, hclosed⟩ := m.exists_close_eq
  rw [hclosed]

/-- Once a machine is closed, what it reached refers to tables that it reached at most, and these refer to nothing. -/
theorem refersTo_close (hidle : ∀ u, m.isBusy u = false) (hcounts : ∀ u, m.Counts u)
    (hall : ∀ r, r ∈ m.reached ↔ m.Accessible m.anchors r) (hr : r ∈ m.reached) {s : Ref}
    (hlink : m.close.RefersTo r s) : (∃ id, s = .table id) ∧ s ∈ m.reached ∧ ∀ id, r ≠ .table id := by
  cases r with
  | table id =>
    have hempty : m.close.table id = Table.new 0 0 := (m.table_close id).trans (if_pos hr)
    have hnone : m.close.tableReferences id = [] := by
      rw [tableReferences, entries_of_table_eq hempty, hempty]
      rfl
    have hlink' : Value.ofRef s ∈ m.close.tableReferences id := hlink
    rw [hnone] at hlink'
    exact absurd hlink' List.not_mem_nil
  | closure id =>
    have hnil : Values.objects ((m.closure id).cells.map m.close.cellValue) = [] := by
      refine List.filter_eq_nil_iff.mpr fun v hv => ?_
      obtain ⟨c, hc, rfl⟩ := List.mem_map.mp hv
      rw [cellValue_close hr hc]
      decide
    have henv : Value.ofRef s ∈ [.ofRef (.table (m.closure id).env)] := by
      have hrefs : m.close.closureReferences id = [.table (m.closure id).env] := by
        rw [closureReferences, closure_close, hnil, List.nil_append]
      exact hrefs ▸ hlink
    obtain rfl := Value.ofRef_inj.mp (List.mem_singleton.mp henv)
    have hbefore : m.RefersTo (.closure id) (.table (m.closure id).env) := List.mem_append_right _ List.mem_cons_self
    exact ⟨⟨_, rfl⟩, (hall _).mpr (((hall _).mp hr).tail hbefore), by simp⟩
  | native id => exact absurd hlink List.not_mem_nil
  | userdata id =>
    have hbefore : m.RefersTo (.userdata id) s := by
      rw [RefersTo, Value.ofRef, references, ← userdatum_close]
      exact hlink
    obtain ⟨id', -, heq⟩ := List.mem_map.mp hbefore
    have htable : s = .table id' := (Value.ofRef_inj (r := .table id').mp heq).symm
    exact ⟨⟨id', htable⟩, (hall _).mpr (((hall _).mp hr).tail hbefore), by simp⟩
  | thread t =>
    have hover := over_close hidle (hcounts t) hr
    have hnone : m.close.threadReferences t = [] := by
      rw [threadReferences, hover.start, hover.frames]
      rfl
    have hlink' : Value.ofRef s ∈ if m.close.isBusy t then [] else m.close.threadReferences t := hlink
    rw [hnone, ite_self] at hlink'
    exact absurd hlink' List.not_mem_nil

/-- **Closing a machine takes apart what it can reach.** While no thread is busy, the search for what can be reached
from the globals, the registry and the metatable of strings ends; then its tables are empty and have no metatable, the
variables that its closures have captured are nil, and its threads are dead and run nothing, so that no circle of
references is left among it. Every other table stores what it did: it lists the same entries, apart from those that it
holds weakly and whose objects no longer exist, and lists nothing new whose objects existed before. All threads count
their frames, and the closures that can be reached exist. -/
theorem close_exact (hidle : ∀ t, m.isBusy t = false) (hcounts : ∀ t, m.Counts t)
    (hclosures : ∀ id, m.Accessible m.anchors (.closure id) → id.index < m.closures.size) :
    let after := m.close
    (∀ fuel, m.referenceCount + m.anchors.length ≤ fuel → m.reachable fuel m.anchors [] = m.reached) ∧
    (∀ id, m.Accessible m.anchors (.table id) →
      (∀ inUse, after.entries id inUse = []) ∧ (after.table id).metatable = none) ∧
    (∀ id, m.Accessible m.anchors (.closure id) → ∀ c ∈ (after.closure id).cells, after.cellValue c = .nil) ∧
    (∀ t, m.Accessible m.anchors (.thread t) → (after.thread t).status = .dead ∧ (after.thread t).frames = []) ∧
    (∀ id, ¬m.Accessible m.anchors (.table id) → after.table id = m.table id ∧
      ((m.table id).mode.isWeak = false → after.entries id [] = m.entries id []) ∧
      (∀ e ∈ m.entries id [], (after.context id []).Keeps e → e ∈ after.entries id []) ∧
      ∀ e ∈ after.entries id [], e ∈ (m.table id).pairs ∧ ((m.context id []).Keeps e → e ∈ m.entries id [])) ∧
    ∀ r, m.Accessible m.anchors r → ¬Relation.TransGen after.RefersTo r r := by
  intro after
  obtain ⟨hends, hall⟩ := exists_reached_eq hclosures
  refine ⟨hends, fun id hid => ?_, fun id hid c hc => ?_, fun t ht => ?_, fun id hnot => ?_, fun r hr hcircle => ?_⟩
  · have hempty : after.table id = Table.new 0 0 := (m.table_close id).trans (if_pos ((hall _).mpr hid))
    exact ⟨entries_of_table_eq hempty, by rw [hempty]; rfl⟩
  · rw [closure_close] at hc
    exact cellValue_close ((hall _).mpr hid) hc
  · have hover := over_close hidle (hcounts t) ((hall _).mpr ht)
    exact ⟨hover.status, hover.frames⟩
  · have hsame : after.table id = m.table id := (m.table_close id).trans (if_neg (mt (hall _).mp hnot))
    refine ⟨hsame, fun hstrong => ?_, fun e he hkeeps => ?_, fun e he => ?_⟩
    · have hcontext : after.context id [] = m.context id [] := by
        rw [context_of_strong (by rw [hsame]; exact hstrong), context_of_strong hstrong, hash_close]
      rw [entries, hcontext, hsame, entries]
    · have hpair := Table.mem_pairs_of_mem_entries he
      rw [← hsame] at hpair
      exact Table.mem_entries_of_keeps hpair hkeeps
    · have hpair := Table.mem_pairs_of_mem_entries he
      rw [hsame] at hpair
      exact ⟨hpair, Table.mem_entries_of_keeps hpair⟩
  · -- the first reference of a circle leads to a table that was reached, and none leads on from there
    obtain ⟨s, hfirst, hrest⟩ := Relation.TransGen.head'_iff.mp hcircle
    obtain ⟨⟨id, rfl⟩, hreached, hnot⟩ := refersTo_close hidle hcounts hall ((hall r).mpr hr) hfirst
    obtain heq | ⟨next, hnext, -⟩ := Relation.ReflTransGen.cases_head hrest
    · exact hnot id heq.symm
    · exact (refersTo_close hidle hcounts hall hreached hnext).2.2 id rfl

end Closing

section Knot

/-- A suspended thread runs a function that is its own captured variable; the globals hold the thread and a table that
is its own metatable and holds the globals. The last table is apart. -/
def knot : Machine where
  tables :=
    let call (op : Table.Op) : Table.Context × Table.Change := (.strong Value.hashCode, .operate op)
    #[(Table.new 0 2).changed [call (.setStr "co" (.thread ⟨0⟩)), call (.setStr "t" (.table ⟨2⟩))],
      Table.new 0 0,
      (Table.new 0 1).changed [call (.setStr "back" (.table ⟨0⟩)),
        (.strong Value.hashCode, .setMetatable (some ⟨2⟩) .strong)],
      (Table.new 0 1).changed [call (.setStr "k" (.table ⟨2⟩))]]
  closures := #[⟨default, [⟨0⟩], ⟨0⟩⟩]
  cells := #[.onStack ⟨0⟩ 0]
  files := #[#[.closure ⟨0⟩]]
  threads := #[{
    number := 1
    status := .suspended
    frames := [{ (default : Frame) with closure := ⟨0⟩, file := ⟨0⟩, openCells := [⟨0⟩] }]
    depth := 1 }]

theorem counts_knot (t : ThreadId) : knot.Counts t := by
  by_cases hrange : t.index < knot.threads.size
  · obtain ⟨i⟩ := t
    obtain rfl : i = 0 := Nat.lt_one_iff.mp hrange
    rfl
  · exact (over_of_le (Nat.not_lt.mp hrange)).counts

theorem mem_of_accessible_knot (h : knot.Accessible knot.anchors r) :
    r ∈ [.table ⟨0⟩, .table ⟨1⟩, .table ⟨2⟩, .closure ⟨0⟩, .thread ⟨0⟩] :=
  h.mem _ (by decide +kernel) (by decide +kernel)

/-- Closing unties the knot and leaves the table apart. -/
theorem close_exact_knot :
    ((∀ t, knot.isBusy t = false) ∧ (∀ t, knot.Counts t) ∧
      ∀ id, knot.Accessible knot.anchors (.closure id) → id.index < knot.closures.size) ∧
    Relation.TransGen knot.RefersTo (.closure ⟨0⟩) (.closure ⟨0⟩) ∧
    let after := knot.close
    after.entries ⟨0⟩ [] = [] ∧ (after.table ⟨2⟩).metatable = none ∧ after.cellValue ⟨0⟩ = .nil ∧
      (after.thread ⟨0⟩).status = .dead ∧ after.entries ⟨3⟩ [] = [(.str "k", .table ⟨2⟩)] ∧
      ¬Relation.TransGen after.RefersTo (.closure ⟨0⟩) (.closure ⟨0⟩) := by
  have hidle (t : ThreadId) : knot.isBusy t = false := rfl
  have hclosures (id : ClosureId) (h : knot.Accessible knot.anchors (.closure id)) : id.index < knot.closures.size := by
    have hmem := mem_of_accessible_knot h
    simp only [List.mem_cons, Ref.closure.injEq, reduceCtorEq, List.not_mem_nil, or_false, false_or] at hmem
    rw [hmem]
    decide
  have hloop : knot.RefersTo (.closure ⟨0⟩) (.closure ⟨0⟩) := by
    unfold RefersTo
    decide +kernel
  have hthread : knot.RefersTo (.table ⟨0⟩) (.thread ⟨0⟩) := by
    unfold RefersTo
    decide +kernel
  have hframe : knot.RefersTo (.thread ⟨0⟩) (.closure ⟨0⟩) := by
    unfold RefersTo
    decide +kernel
  have hself : knot.RefersTo (.table ⟨0⟩) (.table ⟨2⟩) := by
    unfold RefersTo
    decide +kernel
  have hglobals : knot.Accessible knot.anchors (.table ⟨0⟩) := accessible_of_mem List.mem_cons_self
  obtain ⟨-, htables, hcells, hthreads, hapart, hcircles⟩ := close_exact hidle counts_knot hclosures
  have hclosure := (hglobals.tail hthread).tail hframe
  refine ⟨⟨hidle, counts_knot, hclosures⟩, .single hloop, (htables _ hglobals).1 [],
    (htables _ (hglobals.tail hself)).2,
    hcells _ hclosure _ ?_, (hthreads _ (hglobals.tail hthread)).1, ?_, hcircles _ hclosure⟩
  · rw [closure_close]
    exact List.mem_cons_self
  · have hnot : ¬knot.Accessible knot.anchors (.table ⟨3⟩) := fun h => by
      simpa using mem_of_accessible_knot h
    rw [(hapart _ hnot).2.1 rfl]
    decide +kernel

end Knot

section Lending

/-- The globals alone hold the third table, which the fourth one holds weakly; the host holds the fourth one. -/
def lending : Machine where
  tables :=
    let call (op : Table.Op) : Table.Context × Table.Change := (.strong Value.hashCode, .operate op)
    #[(Table.new 0 1).changed [call (.setStr "x" (.table ⟨2⟩))],
      Table.new 0 0,
      (Table.new 0 1).changed [call (.setStr "y" (.int 1))],
      (Table.new 0 1).changed [call (.setMode ⟨false, true⟩), call (.setStr "k" (.table ⟨2⟩))]]
  held := [.table ⟨3⟩]

/-- The fourth table cannot be reached, and loses its entry when the globals lose the third one. -/
theorem close_lending :
    ((∀ t, lending.isBusy t = false) ∧ ∀ t, lending.Counts t) ∧ ¬lending.Accessible lending.anchors (.table ⟨3⟩) ∧
      lending.entries ⟨3⟩ [] = [(.str "k", .table ⟨2⟩)] ∧ lending.close.entries ⟨3⟩ [] = [] := by
  refine ⟨⟨fun _ => rfl, fun t => (over_of_le (Nat.zero_le _)).counts⟩, fun h => ?_, by decide +kernel,
    by decide +kernel⟩
  have hmem := h.mem [.table ⟨0⟩, .table ⟨1⟩, .table ⟨2⟩] (by decide +kernel) (by decide +kernel)
  simp at hmem

end Lending

end Machine

end LuaMachine
