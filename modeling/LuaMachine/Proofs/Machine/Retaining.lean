import LuaMachine.Proofs.Machine.Calling
import LuaMachine.Proofs.Machine.Evolving

namespace LuaMachine

/-- The code that a frame runs, with the registers that it works on. -/
def Frame.code (f : Frame) : ClosureId × FileId := (f.closure, f.file)

/-- Nothing but the innermost frame of a thread has moved on, in its code. The count of instructions has not gone
back. -/
structure Thread.Continues (th th' : Thread) : Prop where
  tail : th'.frames.tail = th.frames.tail
  code : th'.frames.head?.map Frame.code = th.frames.head?.map Frame.code
  count : th.instructions ≤ th'.instructions
  rest : th' = { th with frames := th'.frames, instructions := th'.instructions }

namespace Thread.Continues

variable {th th' : Thread}

theorem refl (th : Thread) : th.Continues th := ⟨rfl, rfl, Nat.le_refl _, rfl⟩

theorem trans {th'' : Thread} (h : th.Continues th') (h' : th'.Continues th'') : th.Continues th'' := by
  refine ⟨h'.tail.trans h.tail, h'.code.trans h.code, Nat.le_trans h.count h'.count, ?_⟩
  have hrest := h'.rest
  rw [h.rest] at hrest
  exact hrest

theorem of_frames (hframes : th'.frames = th.frames) (hcount : th.instructions ≤ th'.instructions)
    (hrest : th' = { th with frames := th'.frames, instructions := th'.instructions }) : th.Continues th' :=
  ⟨by rw [hframes], by rw [hframes], hcount, hrest⟩

theorem counted (th : Thread) : th.Continues th.counted := .of_frames rfl (Nat.le_succ _) rfl

theorem movedTo (th : Thread) (pc : Nat) : th.Continues (th.movedTo pc) := by
  unfold Thread.movedTo
  split
  · exact ⟨rfl, rfl, Nat.le_succ _, rfl⟩
  · exact .counted th

theorem length_eq (h : th.Continues th') : th'.frames.length = th.frames.length := by
  have hhead : th'.frames.head?.isSome = th.frames.head?.isSome := by
    simpa using congrArg Option.isSome h.code
  have htail := congrArg List.length h.tail
  rw [List.length_tail, List.length_tail] at htail
  rw [Bool.eq_iff_iff, List.isSome_head?, List.isSome_head?, ← List.length_pos_iff, ← List.length_pos_iff] at hhead
  omega

/-- The innermost frame, if there is one, is still there. -/
theorem exists_cons (h : th.Continues th') {f : Frame} {rest : List Frame} (hframes : th.frames = f :: rest) :
    ∃ f', th'.frames = f' :: rest ∧ f'.code = f.code := by
  have hcode := h.code
  have htail := h.tail
  rw [hframes] at hcode htail
  obtain ⟨f', hhead, hown⟩ := Option.map_eq_some_iff.mp hcode
  obtain ⟨rest', hframes'⟩ := List.head?_eq_some_iff.mp hhead
  rw [hframes'] at htail
  exact ⟨f', by rw [hframes', show rest' = rest from htail], hown⟩

end Thread.Continues

namespace Machine

variable {n m m' : Machine} {t : ThreadId}

/-- Of the threads of a machine none but `t` has changed, and the work in progress, the groups and the limits are the
same. -/
structure Confined (m m' : Machine) (t : ThreadId) : Prop where
  size : m'.threads.size = m.threads.size
  others : ∀ u, u ≠ t → m'.thread u = m.thread u
  stack : m'.stack = m.stack
  natives : m'.natives = m.natives
  groups : m'.groups = m.groups
  limits : m'.limits = m.limits

namespace Confined

theorem of_eq (hthreads : m'.threads = m.threads) (hstack : m'.stack = m.stack) (hnatives : m'.natives = m.natives)
    (hgroups : m'.groups = m.groups) (hlimits : m'.limits = m.limits) : m.Confined m' t :=
  ⟨by rw [hthreads], fun u _ => by rw [thread, hthreads, thread], hstack, hnatives, hgroups, hlimits⟩

theorem refl (m : Machine) (t : ThreadId) : m.Confined m t := of_eq rfl rfl rfl rfl rfl

theorem trans (h : n.Confined m t) (h' : m.Confined m' t) : n.Confined m' t :=
  ⟨h'.size.trans h.size, fun u hu => (h'.others u hu).trans (h.others u hu), h'.stack.trans h.stack,
    h'.natives.trans h.natives, h'.groups.trans h.groups, h'.limits.trans h.limits⟩

end Confined

theorem thread_modifyThread_of_ne (m : Machine) {t u : ThreadId} (hu : u ≠ t) (f : Thread → Thread) :
    (m.modifyThread t f).thread u = m.thread u := by
  have hindex : t.index ≠ u.index := by
    intro heq
    apply hu
    cases t
    cases u
    simp_all
  simp [thread, modifyThread, modifyAt, Array.getElem?_modify, hindex]

theorem confined_modifyThread (m : Machine) (t : ThreadId) (f : Thread → Thread) : m.Confined (m.modifyThread t f) t :=
  ⟨by simp [modifyThread, modifyAt], fun _ hu => m.thread_modifyThread_of_ne hu f, rfl, rfl, rfl, rfl⟩

/-- Of the threads of a machine nothing but the innermost frame of `t` has moved on, in its code. -/
structure Retains (m m' : Machine) (t : ThreadId) : Prop extends m.Confined m' t where
  own : (m.thread t).Continues (m'.thread t)

namespace Retains

theorem of_eq (h : n.Retains m t) (hthreads : m'.threads = m.threads) (hstack : m'.stack = m.stack)
    (hnatives : m'.natives = m.natives) (hgroups : m'.groups = m.groups) (hlimits : m'.limits = m.limits) :
    n.Retains m' t := by
  refine ⟨h.toConfined.trans (.of_eq hthreads hstack hnatives hgroups hlimits), ?_⟩
  rw [show m'.thread t = m.thread t by rw [thread, hthreads, thread]]
  exact h.own

theorem refl (m : Machine) (t : ThreadId) : m.Retains m t := ⟨.refl m t, .refl _⟩

theorem modifyThread (h : n.Retains m t) {f : Thread → Thread} (hf : ∀ th : Thread, th.Continues (f th)) :
    n.Retains (m.modifyThread t f) t := by
  refine ⟨h.toConfined.trans (m.confined_modifyThread t f), ?_⟩
  obtain hsame | hchanged := m.thread_modifyThread_cases t f t
  · rw [hsame]
    exact h.own
  · rw [hchanged]
    exact h.own.trans (hf _)

theorem modifyTop (h : n.Retains m t) {f : Frame → Frame} (hf : ∀ fr, (f fr).code = fr.code) :
    n.Retains (m.modifyTop t f) t := by
  refine h.modifyThread fun th => ?_
  split
  · exact ⟨rfl, by simp [hf], Nat.le_refl _, rfl⟩
  · exact .refl _

section Registers

theorem modifyFile (h : n.Retains m t) (file : FileId) (f : Array Value → Array Value) :
    n.Retains (m.modifyFile file f) t := h.of_eq rfl rfl rfl rfl rfl

theorem setRegister (h : n.Retains m t) (file : FileId) (i : Nat) (v : Value) :
    n.Retains (m.setRegister file i v) t := h.of_eq rfl rfl rfl rfl rfl

theorem setCellValue (h : n.Retains m t) (id : CellId) (v : Value) : n.Retains (m.setCellValue id v) t := by
  unfold Machine.setCellValue
  split
  · exact h.setRegister _ _ v
  · exact h.of_eq rfl rfl rfl rfl rfl

theorem closeCells (h : n.Retains m t) (start : Nat) (ids : List CellId) :
    n.Retains (m.closeCells start ids).1 t := by
  obtain ⟨cells, hcells⟩ := m.exists_closeCells_eq start ids
  rw [hcells]
  exact h.of_eq rfl rfl rfl rfl rfl

theorem captureRegister (h : n.Retains m t) (top : Frame) (i : Nat) : n.Retains (m.captureRegister t top i).1 t := by
  unfold Machine.captureRegister
  split
  · exact h
  · exact Retains.modifyTop (m := (m.addCell _).1) (h.of_eq rfl rfl rfl rfl rfl) fun _ => rfl

theorem closeTopCells (h : n.Retains m t) (start : Nat) : n.Retains (m.closeTopCells t start) t := by
  unfold Machine.closeTopCells
  split
  · exact h
  · rename_i top _
    exact (h.closeCells start top.openCells).modifyTop fun _ => rfl

theorem discardFile (h : n.Retains m t) (file : FileId) : n.Retains (m.discardFile file) t := by
  unfold Machine.discardFile
  split
  · exact h
  · exact h.modifyFile _ _

theorem storeResults (h : n.Retains m t) (target : ReturnTarget) (vs : Values) :
    n.Retains (m.storeResults t target vs).1 t := by
  unfold Machine.storeResults
  split
  · exact h
  · split
    · exact (h.modifyFile _ _).modifyTop fun _ => rfl
    · exact h.modifyFile _ _

theorem iteratorStep (h : n.Retains m t) (a : Nat) : n.Retains (m.iteratorStep t a).1 t := by
  unfold Machine.iteratorStep
  split
  · exact h
  · dsimp only
    split
    · exact h.modifyTop fun _ => rfl
    · exact h.modifyFile _ _

theorem deliver (h : n.Retains m t) (target : ReturnTarget) (vs : Values) : n.Retains (m.deliver t target vs).1 t := by
  have hstored := h.storeResults target vs
  unfold Machine.deliver
  split
  · exact hstored
  · split
    · rename_i heq
      rw [heq] at hstored
      exact hstored.iteratorStep _
    · exact hstored
  · exact h

end Registers

section Instructions

theorem setIndex (h : n.Retains m t) (obj key value : Value) : n.Retains (m.setIndex t obj key value).1 t := by
  have hfrom (fuel : Nat) (current : Value) : n.Retains (m.setIndexFrom t obj key value fuel current).1 t := by
    induction fuel generalizing current with
    | zero => exact h
    | succ fuel ih =>
      unfold setIndexFrom
      extract_lets inUse found handler
      split
      · exact h
      · split
        · exact ih _
        · split
          · split
            · exact h.of_eq rfl rfl rfl rfl rfl
            · exact h
          · exact h
  exact hfrom _ obj

theorem captureCells (h : n.Retains m t) (c : Closure) (count pc : Nat) (cells : List CellId) :
    n.Retains (m.captureCells t c count pc cells).1 t := by
  induction count generalizing m pc cells with
  | zero => exact h
  | succ count ih =>
    rw [Machine.captureCells]
    split
    · exact h
    · split
      · exact h
      · split
        · split
          · exact ih h _ _
          · exact ih (m := (m.addCell _).1) (h.of_eq rfl rfl rfl rfl rfl) _ _
        · exact ih (h.captureRegister _ _) _ _
        · exact h

theorem makeClosure (h : n.Retains m t) (w : Window) (a bx : Nat) : n.Retains (m.makeClosure t w a bx).1 t := by
  unfold Machine.makeClosure
  dsimp only
  split
  · exact h
  · rename_i child _
    have hcaptured := h.captureCells (m.closure w.closure) child.upvalueCount.toNat w.pc []
    split
    · rename_i heq
      rw [heq] at hcaptured
      exact hcaptured
    · rename_i pc heq
      rw [heq] at hcaptured
      have hmoved := hcaptured.modifyTop (f := fun f => { f with pc }) fun _ => rfl
      exact hmoved.of_eq rfl rfl rfl rfl rfl

theorem storeList (h : n.Retains m t) (id : TableId) (start : Nat) (vs : Values) :
    n.Retains (m.storeList id start vs) t := by
  unfold Machine.storeList
  induction vs.zipIdx start generalizing m with
  | nil => exact h
  | cons v rest ih => exact ih (m := m.modifyTable id _) (h.of_eq rfl rfl rfl rfl rfl)

theorem setList (h : n.Retains m t) (file : FileId) (top a b block pc : Nat) :
    n.Retains (m.setList t file top a b block pc).1 t := by
  unfold Machine.setList
  dsimp only
  split
  · exact h.storeList _ _ _
  · exact h

theorem loadVarargs (h : n.Retains m t) (a b : Nat) : n.Retains (m.loadVarargs t a b) t := by
  unfold Machine.loadVarargs
  split
  · exact h
  · dsimp only
    split
    · exact (h.modifyFile _ _).modifyTop fun _ => rfl
    · exact h.modifyFile _ _

theorem storeAttempt (h : n.Retains m t) (w : Window) (a : Nat) (attempt : Attempt) :
    n.Retains (m.storeAttempt w a attempt).1 t := by
  cases attempt with
  | done => exact h.setRegister _ _ _
  | fail | handler => exact h

theorem branchAttempt (h : n.Retains m t) (w : Window) (expected : Bool) (attempt : Attempt) :
    n.Retains (m.branchAttempt w expected attempt).1 t := by
  cases attempt <;> exact h

theorem assignAttempt (h : n.Retains m t) (w : Window) (attempt : Attempt) :
    n.Retains (m.assignAttempt w attempt).1 t := by
  cases attempt <;> exact h

theorem jump (h : n.Retains m t) (pc : Nat) (offset : Int) : n.Retains (m.jump pc offset).1 t := by
  unfold Machine.jump
  split <;> exact h

theorem jumpFrom (h : n.Retains m t) (pc : Nat) (offset : Int) : n.Retains (m.jumpFrom t pc offset).1 t := by
  have hspent : n.Retains (m.spendFuse t) t := by
    unfold spendFuse
    split
    · exact h.modifyThread fun th => .of_frames rfl (Nat.le_max_right _ _) rfl
    · exact h
  unfold Machine.jumpFrom
  split
  · exact hspent.jump pc offset
  · exact h.jump pc offset

theorem forPrep (h : n.Retains m t) (w : Window) (a : Nat) (offset : Int) :
    n.Retains (m.forPrep t w a offset).1 t := by
  unfold Machine.forPrep
  split
  · exact h
  · split
    · exact h
    · split
      · exact h
      · exact (((h.setRegister _ _ _).setRegister _ _ _).setRegister _ _ _).jump _ _

theorem forLoop (h : n.Retains m t) (w : Window) (a : Nat) (offset : Int) : n.Retains (m.forLoop w a offset).1 t := by
  unfold Machine.forLoop
  dsimp only
  split
  · split
    · exact (h.setRegister _ _ _).setRegister _ _ _
    · exact h
  · exact h

/-- An instruction that neither calls a function nor leaves its frame. -/
theorem perform {i : Interpreter} (h : n.Retains m i.thread) (w : Window) (word : Instruction) {op : Opcode}
    (hcalls : ¬op.Calls) (hret : op ≠ .ret) : n.Retains (m.perform i w word op).1 i.thread := by
  cases op with
  | call | tForLoop | tailCall => exact absurd trivial hcalls
  | ret => exact absurd rfl hret
  | move | loadK | loadBool | getUpval | newTable | not | loadNil => exact h.of_eq rfl rfl rfl rfl rfl
  | getGlobal | getTable | add | sub | mul | div | mod | pow | unm | len => exact h.storeAttempt _ _ _
  | self => exact (h.setRegister _ _ _).storeAttempt _ _ _
  | setGlobal | setTable => exact (h.setIndex _ _ _).assignAttempt _ _
  | setUpval =>
    unfold Machine.perform
    dsimp only
    split
    · exact h.setCellValue _ _
    · exact h
  | concat | test => exact h
  | jmp => exact h.jumpFrom _ _
  | eq | lt | le => exact h.branchAttempt _ _ _
  | testSet =>
    unfold Machine.perform
    dsimp only
    split
    · exact h.setRegister _ _ _
    · exact h
  | forLoop => exact h.forLoop _ _ _
  | forPrep => exact h.forPrep _ _ _
  | setList =>
    have hmoved := h.modifyTop (f := fun f => { f with pc := w.pc + 1 }) fun _ => rfl
    unfold Machine.perform
    dsimp only
    split
    · split
      · exact h
      · exact hmoved.setList _ _ _ _ _ _
    · exact h.setList _ _ _ _ _ _
  | close => exact h.closeTopCells _
  | closure => exact h.makeClosure _ _ _
  | varArg => exact h.loadVarargs _ _

end Instructions

end Retains

/-- An instruction that neither calls a function nor leaves its frame leaves the outline as it is. -/
theorem outline_perform (m : Machine) (i : Interpreter) (w : Window) (word : Instruction) {op : Opcode}
    (hcalls : ¬op.Calls) (hret : op ≠ .ret) : (m.perform i w word op).1.outline = m.outline := by
  cases op with
  | call | tForLoop | tailCall => exact absurd trivial hcalls
  | ret => exact absurd rfl hret
  | move | loadK | loadBool | getUpval | newTable | not | loadNil | concat | test => rfl
  | getGlobal | getTable | add | sub | mul | div | mod | pow | unm | len => exact outline_storeAttempt _ _ _ _
  | self => exact (m.setRegister _ _ _).outline_storeAttempt _ _ _
  | setGlobal | setTable => exact (outline_assignAttempt _ _ _).trans (m.outline_setIndex _ _ _ _)
  | setUpval =>
    unfold perform
    dsimp only
    split
    · exact m.outline_setCellValue _ _
    · rfl
  | jmp => exact m.outline_jumpFrom _ _ _
  | eq | lt | le => exact outline_branchAttempt _ _ _ _
  | testSet =>
    unfold perform
    dsimp only
    split <;> rfl
  | forLoop => exact m.outline_forLoop _ _ _
  | forPrep => exact m.outline_forPrep _ _ _ _
  | setList =>
    unfold perform
    dsimp only
    split
    · split
      · rfl
      · exact (outline_setList _ _ _ _ _ _ _ _).trans (m.outline_setPc _ _)
    · exact m.outline_setList _ _ _ _ _ _ _
  | close => exact m.outline_closeTopCells _ _
  | closure => exact m.outline_makeClosure _ _ _ _
  | varArg => exact m.outline_loadVarargs _ _ _

end Machine

end LuaMachine
