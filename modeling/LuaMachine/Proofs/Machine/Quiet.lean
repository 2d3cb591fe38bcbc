import LuaMachine.Proofs.Machine.Outline

namespace LuaMachine.Machine

variable (m : Machine) (t : ThreadId)

@[simp] theorem outline_modifyTable (id : TableId) (f : Table → Table) :
    (m.modifyTable id f).outline = m.outline := rfl

@[simp] theorem outline_modifyFile (file : FileId) (f : Array Value → Array Value) :
    (m.modifyFile file f).outline = m.outline := rfl

@[simp] theorem outline_setRegister (file : FileId) (i : Nat) (v : Value) :
    (m.setRegister file i v).outline = m.outline := rfl

@[simp] theorem outline_setCell (id : CellId) (c : Cell) : (m.setCell id c).outline = m.outline := rfl

@[simp] theorem outline_setCellValue (id : CellId) (v : Value) : (m.setCellValue id v).outline = m.outline := by
  unfold setCellValue
  split <;> rfl

@[simp] theorem outline_addTable (table : Table) : (m.addTable table).1.outline = m.outline := rfl

@[simp] theorem outline_addClosure (c : Closure) : (m.addClosure c).1.outline = m.outline := rfl

@[simp] theorem outline_addCell (c : Cell) : (m.addCell c).1.outline = m.outline := rfl

@[simp] theorem outline_addFile (registers : Array Value) : (m.addFile registers).1.outline = m.outline := rfl

@[simp] theorem outline_storeKey (id : TableId) (key value : Value) (inUse : Values) :
    (m.storeKey id key value inUse).outline = m.outline := rfl

@[simp] theorem outline_setMetatable (id : TableId) (metatable : Option TableId) (inUse : Values) :
    (m.setMetatable id metatable inUse).outline = m.outline := rfl

@[simp] theorem outline_closeCells (start : Nat) (cells : List CellId) :
    (m.closeCells start cells).1.outline = m.outline := by
  induction cells generalizing m with
  | nil => rfl
  | cons id rest ih =>
    rw [closeCells]
    split
    · exact ih m
    · split
      · exact ih (m.closeCell id)
      · exact ih m

theorem outline_captureRegister (top : Frame) (i : Nat) :
    (m.captureRegister t top i).1.outline = m.outline := by
  unfold captureRegister
  split
  · rfl
  · exact outline_modifyTop (m.addCell _).1 (by intro; rfl) t

@[simp] theorem outline_closeTopCells (start : Nat) : (m.closeTopCells t start).outline = m.outline := by
  unfold closeTopCells
  split
  · rfl
  · rename_i top _
    exact (outline_modifyTop (m.closeCells start top.openCells).1 (by intro; rfl) t).trans
      (outline_closeCells m start _)

@[simp] theorem outline_setPc (pc : Nat) : (m.setPc t pc).outline = m.outline :=
  outline_modifyTop m (by intro; rfl) t

@[simp] theorem outline_spendFuse : (m.spendFuse t).outline = m.outline := by
  unfold spendFuse
  split
  · exact outline_modifyThread_of_eq m (by intro; rfl) t
  · rfl

@[simp] theorem outline_counted : (m.modifyThread t (·.counted)).outline = m.outline :=
  outline_modifyThread_of_eq m (by intro; rfl) t

@[simp] theorem outline_movedTo (pc : Nat) : (m.modifyThread t (·.movedTo pc)).outline = m.outline := by
  apply outline_modifyThread_of_eq
  intro th
  unfold Thread.movedTo
  split <;> rfl

@[simp] theorem outline_discardFile (file : FileId) : (m.discardFile file).outline = m.outline := by
  unfold discardFile
  split <;> rfl

@[simp] theorem outline_bindArgs (p : Prototype) (args : Values) : (m.bindArgs p args).1.outline = m.outline := by
  unfold bindArgs
  dsimp only
  split
  · rfl
  · split <;> rfl

@[simp] theorem outline_newFrame (id : ClosureId) (args : Values) (target : ReturnTarget) :
    (m.newFrame id args target).1.outline = m.outline := outline_bindArgs m _ args

@[simp] theorem outline_snd_newFrame (id : ClosureId) (args : Values) (target : ReturnTarget) :
    (m.newFrame id args target).2.outline = ⟨target, none⟩ := rfl

@[simp] theorem outline_storeList (id : TableId) (start : Nat) (vs : Values) :
    (m.storeList id start vs).outline = m.outline := by
  unfold storeList
  induction vs.zipIdx start generalizing m with
  | nil => rfl
  | cons v rest ih => exact ih (m.modifyTable id _)

@[simp] theorem outline_loadVarargs (a b : Nat) : (m.loadVarargs t a b).outline = m.outline := by
  unfold loadVarargs
  split
  · rfl
  · dsimp only
    split
    · exact outline_modifyTop (m.modifyFile _ _) (by intro; rfl) t
    · rfl

@[simp] theorem outline_takeYielded : (m.takeYielded t).1.outline = m.outline :=
  outline_modifyThread_of_eq m (by intro; rfl) t

theorem outline_setIndexFrom (obj key value : Value) (fuel : Nat) (current : Value) :
    (m.setIndexFrom t obj key value fuel current).1.outline = m.outline := by
  induction fuel generalizing current with
  | zero => rfl
  | succ fuel ih =>
    unfold setIndexFrom
    extract_lets inUse found handler
    split
    · rfl
    · split
      · exact ih _
      · split
        · split <;> rfl
        · rfl

@[simp] theorem outline_setIndex (obj key value : Value) : (m.setIndex t obj key value).1.outline = m.outline :=
  m.outline_setIndexFrom t obj key value _ obj

theorem outline_captureCells (c : Closure) (count pc : Nat) (cells : List CellId) :
    (m.captureCells t c count pc cells).1.outline = m.outline := by
  induction count generalizing m pc cells with
  | zero => rfl
  | succ count ih =>
    rw [captureCells]
    split
    · rfl
    · split
      · rfl
      · split
        · split
          · exact ih m _ _
          · exact ih (m.addCell _).1 _ _
        · rw [ih, outline_captureRegister]
        · rfl

section Instructions

theorem outline_storeAttempt (w : Window) (a : Nat) (attempt : Attempt) :
    (m.storeAttempt w a attempt).1.outline = m.outline := by
  cases attempt <;> rfl

theorem outline_branchAttempt (w : Window) (expected : Bool) (attempt : Attempt) :
    (m.branchAttempt w expected attempt).1.outline = m.outline := by
  cases attempt <;> rfl

theorem outline_assignAttempt (w : Window) (attempt : Attempt) :
    (m.assignAttempt w attempt).1.outline = m.outline := by
  cases attempt <;> rfl

theorem outline_jump (pc : Nat) (offset : Int) : (m.jump pc offset).1.outline = m.outline := by
  unfold jump
  split <;> rfl

theorem outline_jumpFrom (pc : Nat) (offset : Int) : (m.jumpFrom t pc offset).1.outline = m.outline := by
  unfold jumpFrom
  split
  · rw [outline_jump, outline_spendFuse]
  · exact m.outline_jump pc offset

theorem outline_forPrep (w : Window) (a : Nat) (offset : Int) : (m.forPrep t w a offset).1.outline = m.outline := by
  unfold forPrep
  split
  · rfl
  · split
    · rfl
    · split
      · rfl
      · exact outline_jump _ _ _

theorem outline_forLoop (w : Window) (a : Nat) (offset : Int) : (m.forLoop w a offset).1.outline = m.outline := by
  unfold forLoop
  dsimp only
  split
  · split <;> rfl
  · rfl

theorem outline_setList (file : FileId) (top a b block pc : Nat) :
    (m.setList t file top a b block pc).1.outline = m.outline := by
  unfold setList
  dsimp only
  split
  · exact m.outline_storeList _ _ _
  · rfl

theorem outline_makeClosure (w : Window) (a bx : Nat) : (m.makeClosure t w a bx).1.outline = m.outline := by
  unfold makeClosure
  dsimp only
  split
  · rfl
  · rename_i child _
    have hcaptured := m.outline_captureCells t (m.closure w.closure) child.upvalueCount.toNat w.pc []
    split
    · rename_i heq
      rw [heq] at hcaptured
      exact hcaptured
    · rename_i m' cells pc heq
      rw [heq] at hcaptured
      exact (outline_setPc m' t pc).trans hcaptured

end Instructions

end LuaMachine.Machine
