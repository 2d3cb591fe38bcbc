import LuaMachine.Proofs.Machine.BareWork

namespace LuaMachine

/-- Work that does not belong to a group of threads. -/
def Activation.IsSingle : Activation → Prop
  | .tick .. => False
  | .groupSize .. => False
  | .updateGroups _ => False
  | _ => True

namespace Machine

variable {m n : Machine} {t : ThreadId}

section Instructions

variable (u : ThreadId)

@[simp]
theorem openEnd_bare : (m.bare t).openEnd u = m.openEnd u := by
  simp [openEnd]

@[simp]
theorem operand_bare (p : Prototype) (file : FileId) (x : UInt32) :
    (m.bare t).operand p file x = m.operand p file x := rfl

@[simp]
theorem setPc_bare (pc : Nat) : (m.bare t).setPc u pc = (m.setPc u pc).bare t := modifyTop_bare u _

@[simp]
theorem jump_bare (pc : Nat) (offset : Int) : (m.bare t).jump pc offset = bareOf t (m.jump pc offset) := by
  unfold jump
  split <;> rfl

@[simp]
theorem jumpFrom_bare (hfuse : m.limits.fuse = none) (pc : Nat) (offset : Int) :
    (m.bare t).jumpFrom u pc offset = bareOf t (m.jumpFrom u pc offset) := by
  have hspent (n : Machine) (hn : n.limits.fuse = none) : n.spendFuse u = n := by
    rw [spendFuse, hn]
  rw [jumpFrom, jumpFrom, hspent m hfuse, hspent (m.bare t) hfuse, jump_bare, ite_self, ite_self]

@[simp]
theorem storeAttempt_bare (w : Window) (a : Nat) (attempt : Attempt) :
    (m.bare t).storeAttempt w a attempt = bareOf t (m.storeAttempt w a attempt) := by
  cases attempt <;> rfl

@[simp]
theorem branchAttempt_bare (w : Window) (expected : Bool) (attempt : Attempt) :
    (m.bare t).branchAttempt w expected attempt = bareOf t (m.branchAttempt w expected attempt) := by
  cases attempt <;> rfl

@[simp]
theorem assignAttempt_bare (w : Window) (attempt : Attempt) :
    (m.bare t).assignAttempt w attempt = bareOf t (m.assignAttempt w attempt) := by
  cases attempt <;> rfl

/-- An interpreter that has not met its limit calls as one without a limit. -/
theorem callFrom_bare {i : Interpreter} (w : Window) (f : Value) (args : Values) (target : ReturnTarget)
    (hlimit : (m.callFrom i w f args target).2 ≠ .stop .frameLimit) :
    (m.bare t).callFrom i.bare w f args target = bareOf t (m.callFrom i w f args target) := by
  unfold callFrom at hlimit ⊢
  rw [callee?_bare]
  cases hcallee : m.callee? f args [] with
  | none => simp [Interpreter.bare, bareOf]
  | some called =>
    obtain ⟨callee | id, args'⟩ := called
    · rw [hcallee] at hlimit
      dsimp only at hlimit ⊢
      split
      · rename_i hfull
        cases hfull
      · split
        · rename_i hfull
          exact absurd (by rw [if_pos hfull]) hlimit
        · rw [pushFrame_bare]
          rfl
    · rfl

@[simp]
theorem tailCallFrom_bare (i : Interpreter) (f : Value) (args : Values) :
    (m.bare t).tailCallFrom i.bare f args = bareOf t (m.tailCallFrom i f args) := by
  unfold tailCallFrom
  rw [callee?_bare]
  split
  · simp [Interpreter.bare, bareOf]
  · simp [Interpreter.bare, bareOf]
  · rfl

@[simp]
theorem captureCells_bare (c : Closure) (count pc : Nat) (cells : List CellId) :
    (m.bare t).captureCells u c count pc cells = bareOf t (m.captureCells u c count pc cells) := by
  induction count generalizing m pc cells with
  | zero => rfl
  | succ count ih =>
    unfold captureCells
    rw [topFrame?_bare]
    split
    · rfl
    · split
      · rfl
      · split
        · split
          · exact ih _ _
          · rw [addCell_bare]
            exact ih _ _
        · rw [captureRegister_bare]
          exact ih _ _
        · rfl

@[simp]
theorem makeClosure_bare (w : Window) (a bx : Nat) :
    (m.bare t).makeClosure u w a bx = bareOf t (m.makeClosure u w a bx) := by
  unfold makeClosure
  dsimp only [closure_bare]
  split
  · simp
  · rename_i child _
    rw [captureCells_bare]
    rcases m.captureCells u (m.closure w.closure) child.upvalueCount.toNat w.pc [] with ⟨captured, result⟩
    cases result with
    | error e => rfl
    | ok r => simp [bareOf]

@[simp]
theorem storeList_bare (id : TableId) (start : Nat) (vs : Values) :
    (m.bare t).storeList id start vs = (m.storeList id start vs).bare t := by
  unfold storeList
  induction vs.zipIdx start generalizing m with
  | nil => rfl
  | cons v rest ih =>
    simp only [List.foldl_cons, context_bare, modifyTable_bare, ih]

@[simp]
theorem setList_bare (file : FileId) (top a b block pc : Nat) :
    (m.bare t).setList u file top a b block pc = bareOf t (m.setList u file top a b block pc) := by
  cases hlist : m.register file a <;> simp [setList, hlist]

@[simp]
theorem loadVarargs_bare (a b : Nat) : (m.bare t).loadVarargs u a b = (m.loadVarargs u a b).bare t := by
  unfold loadVarargs
  rw [topFrame?_bare]
  split
  · rfl
  · simp [apply_ite (fun m : Machine => m.bare t)]

@[simp]
theorem forPrep_bare (w : Window) (a : Nat) (offset : Int) :
    (m.bare t).forPrep u w a offset = bareOf t (m.forPrep u w a offset) := by
  simp only [forPrep, register_bare, errorHere_bare, setRegister_bare, jump_bare]
  split
  · rfl
  · split
    · rfl
    · split <;> rfl

@[simp]
theorem forLoop_bare (w : Window) (a : Nat) (offset : Int) :
    (m.bare t).forLoop w a offset = bareOf t (m.forLoop w a offset) := by
  cases htarget : jumpTarget w.pc offset <;> simp [forLoop, htarget, apply_ite (bareOf t)]

/-- An instruction does not depend on the traces of a budget unless it meets the frame limit. -/
theorem perform_bare (hfuse : m.limits.fuse = none) {i : Interpreter} (w : Window) (word : Instruction) (op : Opcode)
    (hlimit : (m.perform i w word op).2 ≠ .stop .frameLimit) :
    (m.bare t).perform i.bare w word op = bareOf t (m.perform i w word op) := by
  have hthread : i.bare.thread = i.thread := rfl
  cases op with
  | call | tForLoop =>
    have hcalled := callFrom_bare (t := t) w _ _ _ hlimit
    simp only [perform, hthread, register_bare, openEnd_bare, collect_bare]
    exact hcalled
  | tailCall => simp [perform, hthread]
  | ret => simp [perform, Interpreter.bare, bareOf]
  | setGlobal | setTable => simp [perform, hthread, bareOf]
  | setUpval =>
    simp only [perform, closure_bare, register_bare]
    split <;> simp
  | jmp => simp [perform, hthread, hfuse]
  | testSet =>
    by_cases htruth : (m.register w.file word.b.toNat).isTruthy = (word.c.toNat != 0) <;> simp [perform, htruth]
  | setList =>
    simp only [perform, hthread, closure_bare, openEnd_bare, setPc_bare, setList_bare]
    split
    · split <;> rfl
    · rfl
  | loadNil | getUpval | newTable => rfl
  | _ => simp [perform, hthread]

end Instructions

section Interpreters

variable (i : Interpreter) (w : Window)

/-- However an instruction ends, the interpreter goes on alike. -/
@[simp]
theorem conclude_bare (e : Ending) : (m.bare t).conclude i.bare w e = bareOf t (m.conclude i w e) := by
  have hreplaced (stage : Stage) : (m.bare t).replaceTop (.interpret { i.bare with stage }) =
      (m.replaceTop (.interpret { i with stage })).bare t := replaceTop_bare (.interpret { i with stage })
  cases e with
  | goOn pc => exact congrArg (·, _) (hreplaced _)
  | enter => exact congrArg (·, _) (hreplaced _)
  | handle h sequel =>
    show ((m.bare t).replaceTop (.interpret { i.bare with stage := .waiting w sequel })).callHandler i.thread h [] = _
    rw [hreplaced, callHandler_bare]
    rfl
  | join reversed sequel =>
    show ((m.bare t).replaceTop (.interpret { i.bare with stage := .waiting w sequel })).continueJoin i.thread _ [] = _
    rw [hreplaced, continueJoin_bare]
    rfl
  | invoke id args sequel => exact congrArg (·, _) (hreplaced _)
  | stop s =>
    cases s with
    | error e =>
      unfold conclude
      rw [pop_bare, thread_bare]
      rfl
    | _ => exact congrArg (·, _) pop_bare

@[simp]
theorem settles_bare (vs : Values) (sequel : Sequel) :
    (m.bare t).settle i.bare w vs sequel = bareOf t (m.settle i w vs sequel) := by
  cases sequel with
  | deliver target held =>
    unfold settle
    dsimp only
    rw [show i.bare.thread = i.thread from rfl, deliver_bare]
    rcases m.deliver i.thread target vs with ⟨delivered, s⟩
    cases s with
    | go =>
      dsimp only [bareOf]
      rw [topFrame?_bare]
      split <;> rfl
    | _ => rfl
  | leave held => simp [settle, Interpreter.bare, bareOf]
  | _ => rfl

@[simp]
theorem interrupted_bare (s : Signal) (sequel : Sequel) :
    (m.bare t).interrupted i.bare s sequel = bareOf t (m.interrupted i s sequel) := by
  have hsuspended (pending : Frame → PendingCall) :
      (m.bare t).suspend i.thread pending = bareOf t (m.suspend i.thread pending) := by
    unfold suspend
    rw [topFrame?_bare]
    split
    · rfl
    · simp [bareOf]
  unfold interrupted
  split
  · split
    · exact hsuspended _
    · rfl
  · split
    · exact hsuspended _
    · rfl
  · rfl

end Interpreters

section Running

variable {i : Interpreter} {w : Window}

theorem limits_congr (h : m.bare t = n.bare t) : n.limits = m.limits := (congrArg Machine.limits h).symm

theorem closure_congr (h : m.bare t = n.bare t) (id : ClosureId) : n.closure id = m.closure id := by
  rw [← closure_bare (t := t), ← h, closure_bare]

/-- Interpreters that differ in their limits, which they do not meet, run an instruction alike. -/
theorem bareOf_perform (h : m.bare t = n.bare t) (hfuse : m.limits.fuse = none) (limit : Option Nat) (w : Window)
    (word : Instruction) (op : Opcode) (hm : (m.perform i w word op).2 ≠ .stop .frameLimit)
    (hn : (n.perform { i with limit } w word op).2 ≠ .stop .frameLimit) :
    bareOf t (m.perform i w word op) = bareOf t (n.perform { i with limit } w word op) := by
  rw [← perform_bare hfuse w word op hm, ← perform_bare (by rw [limits_congr h]; exact hfuse) w word op hn, h]
  rfl

/-- Where the innermost frame stood does not matter to an instruction that there is, since it moves the frame. -/
theorem bareOf_fetch_of_moved
    (h : (m.modifyThread i.thread (·.movedTo (w.pc + 1))).bare t =
      (n.modifyThread i.thread (·.movedTo (w.pc + 1))).bare t)
    (hfuse : m.limits.fuse = none) (limit : Option Nat) {word : Instruction}
    (hword : (m.closure w.closure).proto.code[w.pc]? = some word) (hframes : (m.thread i.thread).frames.isEmpty = false)
    (hframes' : (n.thread i.thread).frames.isEmpty = false)
    (hm : (m.fetch i w).2 ≠ .stop .frameLimit) (hn : (n.fetch { i with limit } w).2 ≠ .stop .frameLimit) :
    bareOf t (m.fetch i w) = bareOf t (n.fetch { i with limit } w) := by
  have hword' : (n.closure w.closure).proto.code[w.pc]? = some word := by
    rw [← hword]
    exact congrArg (fun c : Closure => c.proto.code[w.pc]?) (closure_congr h w.closure)
  simp only [fetch, hword, hframes, hword', hframes', Bool.false_eq_true, if_false] at hm hn ⊢
  cases hop : word.opcode? with
  | none => exact congrArg (·, _) h
  | some op =>
    rw [hop] at hm hn
    exact bareOf_perform h hfuse limit _ word op hm hn

/-- Alike machines run their next instructions alike. -/
theorem bareOf_execute (h : m.bare t = n.bare t) (hfuse : m.limits.fuse = none) (limit : Option Nat)
    (hm : (m.execute i w).2 ≠ .stop .frameLimit) (hn : (n.execute { i with limit } w).2 ≠ .stop .frameLimit) :
    bareOf t (m.execute i w) = bareOf t (n.execute { i with limit } w) := by
  have hfuse' : n.limits.fuse = none := by
    rw [limits_congr h]
    exact hfuse
  have hcounted : (m.modifyThread i.thread (·.counted)).bare t = (n.modifyThread i.thread (·.counted)).bare t :=
    bare_modifyThread_congr i.thread h (by intro; rfl)
  have hmoved (pc : Nat) :
      (m.modifyThread i.thread (·.movedTo pc)).bare t = (n.modifyThread i.thread (·.movedTo pc)).bare t := by
    refine bare_modifyThread_congr i.thread h ?_
    rintro ⟨number, status, _ | ⟨top, rest⟩⟩ <;> rfl
  have hempty : (n.thread i.thread).frames.isEmpty = (m.thread i.thread).frames.isEmpty := by
    rw [thread_congr i.thread h]
  simp only [execute, hfuse, hfuse'] at hm hn ⊢
  cases hword : (m.closure w.closure).proto.code[w.pc]? with
  | none =>
    simp only [fetch, closure_congr h, hword]
    exact congrArg (·, _) hcounted
  | some word =>
    cases hframes : (m.thread i.thread).frames.isEmpty with
    | false => exact bareOf_fetch_of_moved (hmoved _) hfuse limit hword hframes (hempty.trans hframes) hm hn
    | true =>
      simp only [fetch, closure_congr h, hword, hempty, hframes, if_true]
      exact congrArg (·, _) hcounted

/-- However an instruction ends, alike machines go on alike. -/
theorem bareOf_conclude {r r' : Machine × Ending} (h : bareOf t r = bareOf t r') (limit : Option Nat) (w : Window) :
    bareOf t (r.1.conclude i w r.2) = bareOf t (r'.1.conclude { i with limit } w r'.2) := by
  obtain ⟨hbare, hending⟩ := Prod.mk.inj h
  rw [← conclude_bare, ← conclude_bare, hbare, hending]
  rfl

/-- An interpreter that goes on has not met its limit. -/
theorem execute_ne_of_advance (h : (m.advance i w).2 ≠ .frameLimit) : (m.execute i w).2 ≠ .stop .frameLimit := by
  intro hlimit
  apply h
  unfold advance
  rw [show m.execute i w = ((m.execute i w).1, .stop .frameLimit) by rw [← hlimit]]
  rfl

theorem bareOf_advance (h : m.bare t = n.bare t) (hfuse : m.limits.fuse = none) (limit : Option Nat)
    (hm : (m.advance i w).2 ≠ .frameLimit) (hn : (n.advance { i with limit } w).2 ≠ .frameLimit) :
    bareOf t (m.advance i w) = bareOf t (n.advance { i with limit } w) :=
  bareOf_conclude (bareOf_execute h hfuse limit (execute_ne_of_advance hm) (execute_ne_of_advance hn)) limit _

theorem bare_replaceTop_congr (h : m.bare t = n.bare t) {a b : Activation} (hab : a.bare t = b.bare t) :
    (m.replaceTop a).bare t = (n.replaceTop b).bare t := by
  rw [← replaceTop_bare, ← replaceTop_bare, h, hab]

theorem bareOf_pop (h : m.bare t = n.bare t) (s : Signal) : bareOf t (m.pop, s) = bareOf t (n.pop, s) := by
  rw [bareOf_mk, bareOf_mk, ← pop_bare, h, pop_bare]

theorem bareOf_enter (h : m.bare t = n.bare t) (hfuse : m.limits.fuse = none) (limit : Option Nat)
    (hm : (m.enter i).2 ≠ .frameLimit) (hn : (n.enter { i with limit }).2 ≠ .frameLimit) :
    bareOf t (m.enter i) = bareOf t (n.enter { i with limit }) := by
  have htop : n.topFrame? i.thread = m.topFrame? i.thread := by
    rw [← topFrame?_bare (t := t), ← h, topFrame?_bare]
  cases hframe : m.topFrame? i.thread with
  | none =>
    unfold enter
    dsimp only
    rw [htop, hframe]
    exact bareOf_pop h _
  | some top =>
    rw [enter_eq hframe] at hm ⊢
    rw [enter_eq (i := { i with limit }) (htop.trans hframe)] at hn ⊢
    have hentered (stage : Stage) : (m.replaceTop (.interpret { i with stage })).bare t =
        (n.replaceTop (.interpret { i with limit, stage })).bare t := bare_replaceTop_congr h rfl
    exact bareOf_advance (hentered _) hfuse limit hm hn

/-- Interpreters that differ in their limits, which they do not meet, take a signal alike. -/
theorem bareOf_interpret (h : m.bare t = n.bare t) (hfuse : m.limits.fuse = none) (limit : Option Nat) {s : Signal}
    (hm : (m.interpret i s).2 ≠ .frameLimit) (hn : (n.interpret { i with limit } s).2 ≠ .frameLimit) :
    bareOf t (m.interpret i s) = bareOf t (n.interpret { i with limit } s) := by
  have hsettled (w : Window) (vs : Values) (sequel : Sequel) :
      bareOf t (m.settle i w vs sequel) = bareOf t (n.settle { i with limit } w vs sequel) := by
    rw [← settles_bare, h, ← settles_bare]
    rfl
  have hinterrupted (w : Window) (s : Signal) (sequel : Sequel) :
      bareOf t (m.interrupted i s sequel) = bareOf t (n.interrupted { i with limit } s sequel) := by
    rw [← interrupted_bare, h, ← interrupted_bare]
    rfl
  obtain ⟨u, floor, own, stage⟩ := i
  cases stage with
  | entering =>
    cases s with
    | go => exact bareOf_enter (i := ⟨u, floor, own, .entering⟩) h hfuse limit hm hn
    | invoke | values | yielded | frameLimit | sleeping | error => exact bareOf_pop h _
  | running w =>
    cases s with
    | go => exact bareOf_advance (i := ⟨u, floor, own, .running w⟩) h hfuse limit hm hn
    | invoke | values | yielded | frameLimit | sleeping | error => exact bareOf_pop h _
  | waiting w sequel =>
    have hwaits (s : Signal) := bareOf_conclude (hinterrupted w s sequel) limit
      (i := ⟨u, floor, own, .waiting w sequel⟩) w
    cases s with
    | values vs => exact bareOf_conclude (hsettled w vs sequel) limit w
    | go => exact hwaits .go
    | invoke v id args => exact hwaits (.invoke v id args)
    | yielded vs => exact hwaits (.yielded vs)
    | frameLimit => exact hwaits .frameLimit
    | sleeping => exact hwaits .sleeping
    | error e => exact hwaits (.error e)

end Running

section Steps

variable (u : ThreadId)

@[simp]
theorem stepEndCall_bare (floor : Option Nat) (previous : Option Status) (s : Signal) :
    (m.bare t).stepEndCall u floor previous s = bareOf t (m.stepEndCall u floor previous s) := by
  have hended (m : Machine) : (m.bare t).modifyThread u (fun th => { th with
        nativeDepth := th.nativeDepth - 1
        status := previous.getD th.status }) = (m.modifyThread u fun th => { th with
          nativeDepth := th.nativeDepth - 1
          status := previous.getD th.status }).bare t := modifyThread_bare fun _ => rfl
  unfold stepEndCall
  extract_lets outcome unwound unwound'
  have hunwound : unwound = unwound'.bare t := by
    dsimp only [unwound, unwound']
    generalize outcome = outcome
    cases outcome <;> cases floor <;> first | exact unwind_bare u _ | rfl
  rw [hunwound, hended]
  rfl

@[simp]
theorem stepStartedNative_bare (s : Signal) :
    (m.bare t).stepStartedNative u s = bareOf t (m.stepStartedNative u s) := by
  unfold stepStartedNative
  split
  · rw [takeYielded_bare]
    exact congrArg (·, _) (modifyThread_bare fun _ => rfl)
  · rw [thread_bare]
    rfl
  · rfl

@[simp]
theorem stepEndResume_bare (floor : Nat) (s : Signal) :
    (m.bare t).stepEndResume u floor s = bareOf t (m.stepEndResume u floor s) := by
  unfold stepEndResume
  split
  · simp
  · simp
  · simp
  · simp
  · simp

@[simp]
theorem stepResumed_bare (previous : Status) (wrapped : Bool) (s : Signal) :
    (m.bare t).stepResumed u previous wrapped s = bareOf t (m.stepResumed u previous wrapped s) := by
  unfold stepResumed
  rw [setStatus_bare]
  dsimp only
  split
  · rfl
  · rfl
  · rfl
  · split
    · split
      · rw [thread_bare]
        rfl
      · rfl
    · rfl
  · rfl

@[simp]
theorem stepPrint_bare (shown : List String) (args vs : Values) :
    (m.bare t).stepPrint u shown args vs = bareOf t (m.stepPrint u shown args vs) := by
  unfold stepPrint
  split
  · exact continuePrint_bare u args _ _
  · rw [errorHere_bare]
    rfl

/-- Work on a thread takes a signal alike, apart from interpreters. -/
theorem resumeWork_bare {a : Activation} (ha : a.IsSingle) (hinterpret : ∀ i, a ≠ .interpret i) (s : Signal) :
    (m.bare t).resumeWork a (m.bare t).stack s = bareOf t (m.resumeWork a m.stack s) := by
  cases a with
  | interpret i => exact absurd rfl (hinterpret i)
  | tick | groupSize | updateGroups => cases ha
  | endCall u floor previous held => exact stepEndCall_bare (m := m) u floor previous s
  | startedNative u held => exact stepStartedNative_bare (m := m) u s
  | endResume u floor held => exact stepEndResume_bare (m := m) u floor s
  | protect => rfl
  | resumed u previous wrapped target => exact stepResumed_bare (m := m) u previous wrapped s
  | forget | read => cases s <;> rfl
  | concat u left held =>
    cases s with
    | values vs => exact continueJoin_bare (m := m) u _ held
    | go | invoke | yielded | frameLimit | sleeping | error => rfl
  | print u shown args =>
    cases s with
    | values vs => exact stepPrint_bare (m := m) u shown args vs
    | go | invoke | yielded | frameLimit | sleeping | error => rfl

end Steps

/-- Alike work is the same, but for the limits of interpreters and the ends of resumes. -/
theorem bare_eq_cases {a b : Activation} (h : a.bare t = b.bare t) :
    (∃ i limit, a = .interpret i ∧ b = .interpret { i with limit }) ∨
      (∃ u floor floor' held held', a = .endResume u floor held ∧ b = .endResume u floor' held' ∧
        (u = t ∨ floor = floor')) ∨ b = a := by
  have hresume {c : Activation} {u : ThreadId} {floor : Nat} {held : Values}
      (h : c.bare t = (Activation.endResume u floor held).bare t) :
      ∃ floor' held', c = .endResume u floor' held' ∧ (u = t ∨ floor = floor') := by
    rw [Activation.bare_endResume] at h
    cases c with
    | endResume v floor' held' =>
      rw [Activation.bare_endResume] at h
      split at h <;> split at h <;> rw [Activation.endResume.injEq] at h <;> obtain ⟨rfl, hfloor, -⟩ := h
      · rename_i ht _
        exact ⟨floor', held', rfl, Or.inl ht⟩
      · rename_i ht hne
        exact absurd ht hne
      · rename_i hne ht
        exact absurd ht hne
      · exact ⟨floor', held', rfl, Or.inr hfloor.symm⟩
    | _ => split at h <;> cases h
  cases a with
  | interpret i =>
    cases b with
    | interpret j =>
      obtain ⟨u, floor, limit, stage⟩ := i
      obtain ⟨v, floor', limit', stage'⟩ := j
      cases h
      exact Or.inl ⟨_, limit', rfl, rfl⟩
    | endResume u floor held =>
      obtain ⟨_, _, hc, -⟩ := hresume h
      cases hc
    | _ => cases h
  | endResume u floor held =>
    obtain ⟨floor', held', rfl, hfloor⟩ := hresume h.symm
    exact Or.inr (Or.inl ⟨u, floor, floor', held, held', rfl, rfl, hfloor⟩)
  | _ =>
    refine Or.inr (Or.inr ?_)
    cases b with
    | interpret j => cases h
    | endResume u floor held =>
      obtain ⟨_, _, hc, -⟩ := hresume h
      cases hc
    | _ => exact h.symm

/-- A step of alike machines that neither meets a frame limit nor ends a resume of the thread gives alike machines. -/
theorem bareOf_step (h : m.bare t = n.bare t) (hfuse : m.limits.fuse = none) {s : Signal}
    (hlibrary : ∀ u id args, s = .invoke u id args →
      (m.native id).body.IsLibrary ∨ (m.native id).body = .host .nothing)
    (hsingle : ∀ a acts, m.stack = a :: acts → a.IsSingle)
    (hends : ∀ floor held acts, m.stack ≠ .endResume t floor held :: acts)
    (hm : (m.step s).2 ≠ .frameLimit) (hn : (n.step s).2 ≠ .frameLimit) :
    bareOf t (m.step s) = bareOf t (n.step s) := by
  by_cases hinvoke : ∃ u id args, s = .invoke u id args
  · obtain ⟨u, id, args, rfl⟩ := hinvoke
    exact bareOf_invoke u args h (hlibrary u id args rfl)
  have hnot (u : ThreadId) (id : NativeId) (args : Values) : s ≠ .invoke u id args :=
    fun heq => hinvoke ⟨u, id, args, heq⟩
  have hstacks : m.stack.map (Activation.bare t) = n.stack.map (Activation.bare t) := congrArg Machine.stack h
  cases hstack : m.stack with
  | nil =>
    rw [hstack] at hstacks
    rw [step_nil hstack hnot, step_nil (List.map_eq_nil_iff.mp hstacks.symm) hnot]
    exact congrArg (·, s) h
  | cons a acts =>
    rw [hstack] at hstacks
    obtain ⟨b, acts', hstack', hb, hacts⟩ := List.map_eq_cons_iff.mp hstacks.symm
    rw [step_cons hstack hnot] at hm ⊢
    rw [step_cons hstack' hnot] at hn ⊢
    have hclear : ({ m with inUse := [] } : Machine).bare t = ({ n with inUse := [] } : Machine).bare t :=
      congrArg (fun m : Machine => { m with inUse := [] }) h
    have hpopped : ({ m with inUse := [], stack := acts } : Machine).bare t =
        ({ n with inUse := [], stack := acts' } : Machine).bare t := by
      rw [bare, bare, Machine.mk.injEq] at h ⊢
      simp_all
    have hwork {a : Activation} (ha : a.IsSingle) (hinterpret : ∀ i, a ≠ .interpret i) :
        bareOf t (({ m with inUse := [] } : Machine).resumeWork a acts s) =
          bareOf t (({ n with inUse := [] } : Machine).resumeWork a acts' s) := by
      have hleft := bareOf_congr (f := fun m : Machine => m.resumeWork a m.stack s)
        (fun _ => resumeWork_bare ha hinterpret s) hpopped
      cases a with
      | interpret i => exact absurd rfl (hinterpret i)
      | _ => exact hleft
    obtain ⟨i, limit, rfl, rfl⟩ | ⟨u, floor, floor', held, held', rfl, rfl, hfloor⟩ | rfl := bare_eq_cases hb.symm
    · exact bareOf_interpret hclear hfuse limit hm hn
    · obtain rfl | rfl := hfloor
      · exact absurd hstack (hends floor held acts)
      · exact hwork (a := .endResume u floor held) trivial (by rintro _ ⟨⟩)
    · by_cases hinterpret : ∃ i, b = .interpret i
      · obtain ⟨i, rfl⟩ := hinterpret
        exact bareOf_interpret hclear hfuse i.limit hm hn
      · exact hwork (hsingle b acts hstack) fun i hi => hinterpret ⟨i, hi⟩

end Machine

end LuaMachine
