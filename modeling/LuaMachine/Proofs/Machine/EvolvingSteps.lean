import LuaMachine.Proofs.Machine.Evolving
import LuaMachine.Proofs.Machine.Upkeep

namespace LuaMachine.Machine.Becomes

variable {n m m' : Machine}

section Calls

variable (t : ThreadId)

theorem setStatus (h : n.Becomes m) (status : Status) : n.Becomes (m.setStatus t status) :=
  h.modifyThread t fun _ => .of_eq rfl rfl

theorem entering (limit : Option Nat) (n : Machine) : Entering t limit n.Becomes fun m _ => n.Becomes m where
  hands h _ _ := h
  enters id args h := h.pushFrame t id args .host
  completes args h := h.completePending t args 0
  starts h := h.modifyThread t fun _ => .of_eq rfl rfl
  returns h := h.modifyThread t fun _ => .of_eq rfl rfl
  waits _ h := h.push _
  invokes _ _ h := h
  runs _ h := h.push _

theorem beginCall (h : n.Becomes m) (f : Value) (args held : Values) : n.Becomes (m.beginCall t f args held).1 := by
  have hcalled : n.Becomes (m.called t) := h.modifyThread t fun _ => .of_eq rfl rfl
  exact (entering t none n).beginCall (fun _ => h) (fun _ _ => hcalled.push _) f args held

theorem upkeep (n : Machine) : Upkeep t n.Becomes fun m _ => n.Becomes m where
  answers h _ := h
  edits _ _ _ h := h.of_eq rfl rfl rfl
  names _ h := h.of_eq rfl rfl rfl
  begins h _ := h.push _
  calls f args held h := h.beginCall t f args held

theorem yieldNow (h : n.Becomes m) (vs : Values) : n.Becomes (m.yieldNow t vs).1 := by
  unfold Machine.yieldNow
  dsimp only
  split
  · exact h
  · split
    · exact h
    · exact h.modifyThread t fun _ => .of_eq rfl rfl

theorem takeYielded (h : n.Becomes m) : n.Becomes (m.takeYielded t).1 := h.modifyThread t fun _ => .of_eq rfl rfl

theorem beginResume (h : n.Becomes m) (budget : Option Nat) (args : Values) :
    n.Becomes (m.beginResume t budget args).1 := by
  unfold Machine.beginResume
  dsimp only
  split
  · exact h.modifyThread t fun _ => .of_eq rfl rfl
  · split
    · exact h
    · split
      · exact h
      · have hrunning := h.modifyThread t (f := fun th => { th with status := .running, instructions := 0 })
          fun _ => .of_eq rfl rfl
        exact (entering t _ n).beginResumed _ (fun _ => hrunning.push _) args

theorem beginResumeFrom (h : n.Becomes m) (target : ThreadId) (wrapped : Bool) (args : Values) :
    n.Becomes (m.beginResumeFrom t target wrapped args).1 := by
  unfold Machine.beginResumeFrom
  dsimp only
  split
  · exact h.push _
  · exact ((h.push _).setStatus t _).beginResume target none args

theorem newThread (h : n.Becomes m) (f : Value) (args : Values) : n.Becomes (m.newThread f args).1 := by
  have hadded : n.Becomes m.addThread.1 := by
    refine h.other rfl rfl fun id => ?_
    by_cases hnew : id.index = m.threads.size
    · have hfresh : m.addThread.1.thread id = { number := m.nextThreadNumber } := by
        rw [thread, Machine.addThread, hnew, Array.getElem?_push_size]
        rfl
      rw [hfresh, thread_of_le (Nat.le_of_eq hnew.symm)]
      exact .of_eq rfl rfl
    · have hold : m.addThread.1.thread id = m.thread id := by
        rw [thread, Machine.addThread, Array.getElem?_push, if_neg hnew, thread]
      rw [hold]
      exact .refl _
  exact hadded.modifyThread _ fun _ => .of_eq rfl rfl

end Calls

section Groups

theorem addToGroup (h : n.Becomes m) (g : GroupId) (t : ThreadId) : n.Becomes (m.addToGroup g t) := by
  unfold Machine.addToGroup
  split
  · split
    · exact h
    · exact h.destroyThread t
  · exact h.modifyGroup g _

theorem continueTicks (h : n.Becomes m) (g : GroupId) (members rest : List ThreadId) :
    n.Becomes (m.continueTicks g members rest).1 := by
  induction rest with
  | nil => exact h.modifyGroup g _
  | cons t rest ih =>
    unfold Machine.continueTicks
    split
    · exact ih
    · exact (h.push _).beginResume t _ _

theorem beginUpdate (h : n.Becomes m) (g : GroupId) : n.Becomes (m.beginUpdate g).1 := by
  unfold Machine.beginUpdate
  dsimp only
  split
  · exact h
  · exact h.continueTicks g _ _

theorem destroyGroup (h : n.Becomes m) (g : GroupId) : n.Becomes (m.destroyGroup g) := by
  unfold Machine.destroyGroup
  dsimp only
  refine List.foldlRecOn _ _ (h.modifyGroup g _) fun m hm t _ => ?_
  split
  · exact hm
  · exact hm.destroyThread t

theorem continueUpdates (h : n.Becomes m) (groups : List GroupId) : n.Becomes (m.continueUpdates groups).1 := by
  cases groups with
  | nil => exact h
  | cons g rest => exact (h.push _).beginUpdate g

end Groups

section Instructions

theorem setIndex (h : n.Becomes m) (t : ThreadId) (obj key value : Value) :
    n.Becomes (m.setIndex t obj key value).1 := by
  have hfrom (fuel : Nat) (current : Value) : n.Becomes (m.setIndexFrom t obj key value fuel current).1 := by
    induction fuel generalizing current with
    | zero => exact h
    | succ fuel ih =>
      unfold setIndexFrom
      extract_lets inUse found handler
      split
      · exact h
      · split
        · exact ih _
        · split
          · split
            · exact h.of_eq rfl rfl rfl
            · exact h
          · exact h
  exact hfrom _ obj

variable {i : Interpreter}

theorem callFrom (h : n.Becomes m) (w : Window) (callee : Value) (args : Values) (target : ReturnTarget) :
    n.Becomes (m.callFrom i w callee args target).1 := by
  unfold Machine.callFrom
  split
  · exact h
  · split
    · exact h.modifyTop _ fun _ => rfl
    · exact h.pushFrame _ _ _ _
  · exact h

theorem tailCallFrom (h : n.Becomes m) (callee : Value) (args : Values) :
    n.Becomes (m.tailCallFrom i callee args).1 := by
  unfold Machine.tailCallFrom
  split
  · exact h
  · exact h.rebindTop _ _ _
  · exact h

theorem captureCells (h : n.Becomes m) (t : ThreadId) (c : Closure) (count pc : Nat) (cells : List CellId) :
    n.Becomes (m.captureCells t c count pc cells).1 := by
  induction count generalizing m pc cells with
  | zero => exact h
  | succ count ih =>
    rw [Machine.captureCells]
    split
    · exact h
    · rename_i htop
      split
      · exact h
      · split
        · split
          · exact ih h _ _
          · exact ih (h.detached _) _ _
        · exact ih (h.capture htop _) _ _
        · exact h

theorem makeClosure (h : n.Becomes m) (t : ThreadId) (w : Window) (a bx : Nat) :
    n.Becomes (m.makeClosure t w a bx).1 := by
  unfold Machine.makeClosure
  dsimp only
  split
  · exact h
  · rename_i child _
    have hcaptured := h.captureCells t (m.closure w.closure) child.upvalueCount.toNat w.pc []
    split
    · rename_i heq
      rw [heq] at hcaptured
      exact hcaptured
    · rename_i pc heq
      rw [heq] at hcaptured
      have hmoved := hcaptured.modifyTop t (f := fun f => { f with pc }) fun _ => rfl
      exact (hmoved.addClosure _).setRegister _ _ _

theorem storeList (h : n.Becomes m) (id : TableId) (start : Nat) (vs : Values) :
    n.Becomes (m.storeList id start vs) := by
  unfold Machine.storeList
  exact List.foldlRecOn _ _ h fun m hm v _ => hm.of_eq rfl rfl rfl

theorem setList (h : n.Becomes m) (t : ThreadId) (file : FileId) (top a b block pc : Nat) :
    n.Becomes (m.setList t file top a b block pc).1 := by
  unfold Machine.setList
  dsimp only
  split
  · exact h.storeList _ _ _
  · exact h

theorem loadVarargs (h : n.Becomes m) (t : ThreadId) (a b : Nat) : n.Becomes (m.loadVarargs t a b) := by
  unfold Machine.loadVarargs
  split
  · exact h
  · dsimp only
    split
    · exact (h.modifyFile _ _).modifyTop t fun _ => rfl
    · exact h.modifyFile _ _

theorem storeAttempt (h : n.Becomes m) (w : Window) (a : Nat) (attempt : Attempt) :
    n.Becomes (m.storeAttempt w a attempt).1 := by
  cases attempt with
  | done => exact h.setRegister _ _ _
  | fail | handler => exact h

theorem branchAttempt (h : n.Becomes m) (w : Window) (expected : Bool) (attempt : Attempt) :
    n.Becomes (m.branchAttempt w expected attempt).1 := by
  cases attempt <;> exact h

theorem assignAttempt (h : n.Becomes m) (w : Window) (attempt : Attempt) : n.Becomes (m.assignAttempt w attempt).1 := by
  cases attempt <;> exact h

theorem jump (h : n.Becomes m) (pc : Nat) (offset : Int) : n.Becomes (m.jump pc offset).1 := by
  unfold Machine.jump
  split <;> exact h

theorem jumpFrom (h : n.Becomes m) (t : ThreadId) (pc : Nat) (offset : Int) : n.Becomes (m.jumpFrom t pc offset).1 := by
  have hspent : n.Becomes (m.spendFuse t) := by
    unfold spendFuse
    split
    · exact h.modifyThread t fun _ => .of_eq rfl rfl
    · exact h
  unfold Machine.jumpFrom
  split
  · exact hspent.jump pc offset
  · exact h.jump pc offset

theorem forPrep (h : n.Becomes m) (t : ThreadId) (w : Window) (a : Nat) (offset : Int) :
    n.Becomes (m.forPrep t w a offset).1 := by
  unfold Machine.forPrep
  split
  · exact h
  · split
    · exact h
    · split
      · exact h
      · exact (((h.setRegister _ _ _).setRegister _ _ _).setRegister _ _ _).jump _ _

theorem forLoop (h : n.Becomes m) (w : Window) (a : Nat) (offset : Int) : n.Becomes (m.forLoop w a offset).1 := by
  unfold Machine.forLoop
  dsimp only
  split
  · split
    · exact (h.setRegister _ _ _).setRegister _ _ _
    · exact h
  · exact h

/-- An instruction of any code. -/
theorem perform (h : n.Becomes m) (w : Window) (word : Instruction) (op : Opcode) :
    n.Becomes (m.perform i w word op).1 := by
  cases op with
  | move | loadK | loadBool | getUpval | not => exact h.setRegister _ _ _
  | newTable => exact (h.addTable _).setRegister _ _ _
  | loadNil => exact h.modifyFile _ _
  | getGlobal | getTable | add | sub | mul | div | mod | pow | unm | len => exact h.storeAttempt _ _ _
  | self => exact (h.setRegister _ _ _).storeAttempt _ _ _
  | setGlobal | setTable => exact (h.setIndex _ _ _ _).assignAttempt _ _
  | setUpval =>
    unfold Machine.perform
    dsimp only
    split
    · exact h.setCellValue _ _
    · exact h
  | concat | test => exact h
  | jmp => exact h.jumpFrom _ _ _
  | eq | lt | le => exact h.branchAttempt _ _ _
  | testSet =>
    unfold Machine.perform
    dsimp only
    split
    · exact h.setRegister _ _ _
    · exact h
  | call | tForLoop => exact h.callFrom _ _ _ _
  | tailCall => exact h.tailCallFrom _ _
  | ret => exact h.finishReturn _ _ _
  | forLoop => exact h.forLoop _ _ _
  | forPrep => exact h.forPrep _ _ _ _
  | setList =>
    have hmoved := h.modifyTop i.thread (f := fun f => { f with pc := w.pc + 1 }) fun _ => rfl
    unfold Machine.perform
    dsimp only
    split
    · split
      · exact h
      · exact hmoved.setList _ _ _ _ _ _ _
    · exact h.setList _ _ _ _ _ _ _
  | close => exact h.closeTopCells _ _
  | closure => exact h.makeClosure _ _ _ _
  | varArg => exact h.loadVarargs _ _ _

theorem execute (h : n.Becomes m) (w : Window) : n.Becomes (m.execute i w).1 := by
  have hcounted := h.modifyThread i.thread (f := Thread.counted) fun _ => .of_eq rfl rfl
  have hmoved (pc : Nat) : n.Becomes (m.modifyThread i.thread (·.movedTo pc)) := by
    refine h.modifyThread i.thread fun th => ?_
    unfold Thread.movedTo
    split
    · exact ⟨rfl, rfl⟩
    · exact .of_eq rfl rfl
  have hfetched : n.Becomes (m.fetch i w).1 := by
    unfold fetch
    split
    · exact hcounted
    · split
      · exact hcounted
      · dsimp only
        split
        · exact hmoved _
        · exact (hmoved _).perform _ _ _
  unfold Machine.execute
  dsimp only
  split
  · split
    · exact hcounted
    · exact hfetched
  · exact hfetched

theorem conclude (h : n.Becomes m) (w : Window) (ending : Ending) : n.Becomes (m.conclude i w ending).1 := by
  cases ending with
  | goOn | enter | invoke => exact h.replaceTop _
  | handle handler sequel => exact (upkeep i.thread n).callHandler (h.replaceTop _) _ _
  | join reversed sequel => exact (upkeep i.thread n).continueJoin (h.replaceTop _) _ _
  | stop s => cases s <;> exact h.pop

theorem advance (h : n.Becomes m) (w : Window) : n.Becomes (m.advance i w).1 := (h.execute w).conclude _ _

theorem settle (h : n.Becomes m) (w : Window) (vs : Values) (sequel : Sequel) :
    n.Becomes (m.settle i w vs sequel).1 := by
  cases sequel with
  | discard | branch => exact h
  | store a => exact h.setRegister _ _ _
  | deliver target held =>
    have hdelivered := h.deliver i.thread target vs
    rw [Machine.settle]
    split
    · rename_i heq
      rw [heq] at hdelivered
      split <;> exact hdelivered
    · rename_i heq
      rw [heq] at hdelivered
      exact hdelivered
  | leave held => exact h.finishReturn _ _ _

theorem interrupted (h : n.Becomes m) (s : Signal) (sequel : Sequel) : n.Becomes (m.interrupted i s sequel).1 := by
  have hsuspended (pending : Frame → PendingCall) : n.Becomes (m.suspend i.thread pending).1 := by
    unfold suspend
    split
    · exact h
    · rename_i top _
      have hpending := h.modifyTop i.thread (f := fun f => { f with pending := some (pending top) }) fun _ => rfl
      exact hpending.takeYielded i.thread
  unfold Machine.interrupted
  split
  · split
    · exact hsuspended _
    · exact h
  · split
    · exact hsuspended _
    · exact h
  · exact h

theorem interpret (h : n.Becomes m) (s : Signal) : n.Becomes (m.interpret i s).1 := by
  unfold Machine.interpret
  split
  · unfold enter
    split
    · exact h.pop
    · exact (h.replaceTop _).advance _
  · exact h.advance _
  · exact (h.settle _ _ _).conclude _ _
  · exact (h.interrupted _ _).conclude _ _
  · exact h.pop

end Instructions

section Natives

variable (t : ThreadId)

theorem coroutineEffect (h : n.Becomes m) {args : Values} {effect : Effect} (heffect : CoroutineEffect t args effect) :
    n.Becomes (effect m).1 := by
  cases heffect with
  | answer => exact h
  | create f => exact h.newThread f []
  | wrap f => exact (h.newThread f []).of_eq rfl rfl rfl
  | resume target => exact h.beginResumeFrom t target false _
  | yield => exact h.yieldNow t args
  | wait ticks =>
    have hyielded := h.yieldNow t []
    dsimp only
    split
    · rename_i heq
      rw [heq] at hyielded
      exact hyielded.modifyThread t fun _ => .of_eq rfl rfl
    · exact hyielded

theorem hostOperation (h : n.Becomes m) (op : HostOperation) (args : Values) :
    n.Becomes (m.hostOperation t op args).1 := by
  cases op with
  | failFatal | escapeYield => exact h
  | yield => exact h.yieldNow t args
  | sleep => exact h.modifyThread t fun _ => .of_eq rfl rfl
  | destroy => exact h.destroyThread t
  | jump =>
    unfold Machine.hostOperation
    dsimp only
    split
    · rename_i hjumped
      exact h.jumpThread t hjumped
    · exact h
  | resume => exact (h.push _).beginResume t _ _
  | _ => exact (upkeep t n).hostOperation h rfl args

theorem groupAction (h : n.Becomes m) (g : GroupId) (action : GroupAction) (args : Values) :
    n.Becomes (m.groupAction g action args).1 := by
  cases action with
  | update => exact (h.push _).beginUpdate g
  | suspend | resume => exact h.modifyGroup g _
  | destroy => exact h.destroyGroup g

/-- A native function. -/
theorem invoke (h : n.Becomes m) (id : NativeId) (args : Values) : n.Becomes (m.invoke t id args).1 := by
  have hcalled : n.Becomes { m with inUse := args } := h.of_eq rfl rfl rfl
  refine invoke_of_checked (Q := fun m _ => n.Becomes m) ?_ fun _ _ => hcalled
  cases (m.native id).body with
  | base f => exact (checked_base _ t f args).imp fun _ => (upkeep t n).baseEffect hcalled
  | coroutine f => exact (checked_coroutine _ t f args).imp fun _ => hcalled.coroutineEffect t
  | wrapped target => exact hcalled.beginResumeFrom t target true args
  | spawn name =>
    refine (checked_requireArg _ t args 1 _).bind fun f _ => ?_
    exact (hcalled.newThread f (args.drop 1)).addToGroup ⟨0⟩ _
  | host op => exact hcalled.hostOperation t op args
  | group g action => exact hcalled.groupAction g action args

end Natives

section Steps

variable (t : ThreadId) (s : Signal)

theorem stepEndCall (h : n.Becomes m) (floor : Option Nat) (previous : Option Status) :
    n.Becomes (m.stepEndCall t floor previous s).1 := by
  unfold Machine.stepEndCall
  extract_lets s' m'
  have hunwound : n.Becomes m' := by
    dsimp only [m']
    generalize s' = outcome
    split
    · exact h.unwind t _
    · exact h
  exact hunwound.modifyThread t fun _ => .of_eq rfl rfl

theorem stepEndResume (h : n.Becomes m) (floor : Nat) : n.Becomes (m.stepEndResume t floor s).1 := by
  unfold Machine.stepEndResume
  split
  · exact (h.unwind t 0).setStatus t _
  · exact (h.unwind t 0).setStatus t _
  · exact (h.unwind t floor).setStatus t _
  · exact h.setStatus t _
  · exact h.setStatus t _

theorem stepStartedNative (h : n.Becomes m) : n.Becomes (m.stepStartedNative t s).1 := by
  unfold Machine.stepStartedNative
  split
  · exact (h.takeYielded t).modifyThread t fun _ => .of_eq rfl rfl
  · exact h
  · exact h

theorem stepResumed (h : n.Becomes m) (previous : Status) (wrapped : Bool) :
    n.Becomes (m.stepResumed t previous wrapped s).1 := by
  have hback := h.setStatus t previous
  unfold Machine.stepResumed
  dsimp only
  split
  · exact hback
  · exact hback
  · exact hback
  · split
    · split <;> exact hback
    · exact hback
  · exact hback

theorem stepTick (h : n.Becomes m) (g : GroupId) (members rest : List ThreadId) :
    n.Becomes (m.stepTick g members t rest s).1 := by
  unfold Machine.stepTick
  extract_lets th m'
  have hreported : n.Becomes m' := by
    dsimp only [m']
    split
    · rename_i e
      have hnoted : n.Becomes { m with reports := ⟨g, (m.thread t).number, e⟩ :: m.reports } := h.of_eq rfl rfl rfl
      split
      · exact hnoted.destroyThread t
      · exact hnoted
    · exact h
  split
  · exact hreported
  · exact hreported.continueTicks g members rest

theorem stepPrint (h : n.Becomes m) (shown : List String) (args vs : Values) :
    n.Becomes (m.stepPrint t shown args vs).1 := by
  unfold Machine.stepPrint
  split
  · exact (upkeep t n).continuePrint h _ _ _
  · exact h

theorem resumeWork (h : n.Becomes m) (a : Activation) (rest : List Activation) :
    n.Becomes (m.resumeWork a rest s).1 := by
  have hrest : n.Becomes { m with stack := rest } := h.of_eq rfl rfl rfl
  unfold Machine.resumeWork
  split
  · exact h.interpret s
  · dsimp only
    split
    · exact hrest.stepEndCall _ _ _ _
    · exact hrest.stepStartedNative _ _
    · exact hrest.stepEndResume _ _ _
    · exact hrest
    · exact hrest.stepResumed _ _ _ _
    · exact hrest
    · exact hrest
    · exact hrest.stepTick _ _ _ _ _
    · exact hrest
    · exact hrest.continueUpdates _
    · exact hrest
    · exact (upkeep _ n).continueJoin hrest _ _
    · exact hrest.stepPrint _ _ _ _
    · exact hrest

end Steps

/-- One step of any machine. -/
theorem step (h : n.Becomes m) (s : Signal) : n.Becomes (m.step s).1 := by
  unfold Machine.step
  split
  · exact h.invoke _ _ _
  · split
    · exact h
    · have hcleared : n.Becomes { m with inUse := [] } := h.of_eq rfl rfl rfl
      exact hcleared.resumeWork _ _ _

theorem run {fuel : Nat} {s s' : Signal} (h : n.Becomes m) (hrun : m.run fuel s = some (m', s')) : n.Becomes m' := by
  induction fuel generalizing m s with
  | zero =>
    rw [Machine.run] at hrun
    split at hrun
    · cases hrun
    · cases hrun
      exact h
  | succ fuel ih =>
    rw [Machine.run] at hrun
    split at hrun
    · exact ih (h.step s) hrun
    · cases hrun
      exact h

end LuaMachine.Machine.Becomes
