import LuaMachine.Proofs.Machine.Grounding

namespace LuaMachine

/-- The thread that a native function is about to run for when an instruction ends. -/
def Ending.serves? : Ending → Option ThreadId
  | .stop s => s.serves?
  | _ => none

theorem Ending.serves?_ofSignal (s : Signal) : (Ending.ofSignal s).serves? = s.serves? := by
  cases s <;> rfl

/-- What a host does when it hears of a failed tick. -/
structure ExceptionHandler where
  run : Report → Machine → Machine
  /-- The threads that it adds to a group. -/
  added : GroupId → Report → Machine → List ThreadId

namespace ExceptionHandler

/-- The host takes a note, which every machine does for it, and nothing else. -/
def silent : ExceptionHandler := ⟨fun _ m => m, fun _ _ _ => []⟩

/-- The host destroys a group when it hears of a failure. -/
def destroying (g : GroupId) : ExceptionHandler := ⟨fun _ m => m.destroyGroup g, fun _ _ _ => []⟩

/-- The host leaves the work in progress alone. It may add threads to the group, suspend it, destroy it, and do what it
likes with the threads in it and with those that are not dead. -/
def Lawful (handler : ExceptionHandler) (g : GroupId) : Prop :=
  ∀ r m, (handler.run r m).stack = m.stack ∧ (m.Enrols g → m.Carries g (handler.added g r m) (handler.run r m))

theorem lawful_silent (g : GroupId) : silent.Lawful g := fun _ _ => ⟨rfl, .refl⟩

theorem lawful_destroying (g other : GroupId) : (destroying other).Lawful g := fun _ m =>
  ⟨m.stack_destroyGroup other, fun henrols => (Machine.Carries.refl henrols).destroyGroup other⟩

end ExceptionHandler

namespace Machine

variable {handler : ExceptionHandler} {m m' n : Machine} {g : GroupId} {added : List ThreadId}
  {base rest : List Activation} {t : ThreadId} {who : Option ThreadId} {a : Activation} {i : Interpreter} {s : Signal}

section Signals

variable (m)

theorem serves?_attempted (w : Window) (r : Nat) (expected : Bool) (a : Attempt) :
    (m.storeAttempt w r a).2.serves? = none ∧ (m.branchAttempt w expected a).2.serves? = none ∧
      (m.assignAttempt w a).2.serves? = none := by
  cases a <;> exact ⟨rfl, rfl, rfl⟩

theorem serves?_jump (pc : Nat) (offset : Int) : (m.jump pc offset).2.serves? = none := by
  unfold jump
  split <;> rfl

theorem serves?_forPrep (w : Window) (r : Nat) (offset : Int) : (m.forPrep t w r offset).2.serves? = none := by
  unfold forPrep
  split
  · rfl
  · split
    · rfl
    · split
      · rfl
      · exact serves?_jump _ _ _

theorem serves?_forLoop (w : Window) (r : Nat) (offset : Int) : (m.forLoop w r offset).2.serves? = none := by
  unfold forLoop
  dsimp only
  split
  · split <;> rfl
  · rfl

theorem serves?_setList (file : FileId) (top r b block pc : Nat) :
    (m.setList t file top r b block pc).2.serves? = none := by
  unfold setList
  dsimp only
  split <;> rfl

theorem serves?_makeClosure (w : Window) (r bx : Nat) : (m.makeClosure t w r bx).2.serves? = none := by
  unfold makeClosure
  dsimp only
  split
  · rfl
  · split <;> rfl

theorem serves?_callFrom (i : Interpreter) (w : Window) (f : Value) (args : Values) (target : ReturnTarget) :
    (m.callFrom i w f args target).2.serves? = none := by
  unfold callFrom
  split
  · rfl
  · split
    · rfl
    · exact (Ending.serves?_ofSignal _).trans (serves?_pushFrame m i.thread _ _ target)
  · rfl

theorem serves?_tailCallFrom (i : Interpreter) (f : Value) (args : Values) :
    (m.tailCallFrom i f args).2.serves? = none := by
  unfold tailCallFrom
  split <;> rfl

theorem serves?_perform (i : Interpreter) (w : Window) (word : Instruction) (op : Opcode) :
    (m.perform i w word op).2.serves? = none := by
  have hreturned (vs : Values) :
      (Ending.ofSignal (m.finishReturn i.thread vs i.floor).2).serves? = none :=
    (Ending.serves?_ofSignal _).trans (serves?_finishReturn m i.thread vs i.floor)
  cases op with
  | move | loadK | loadBool | loadNil | getUpval | newTable | not | concat | test | close | varArg => rfl
  | getGlobal | getTable | self | add | sub | mul | div | mod | pow | unm | len =>
    exact (serves?_attempted _ _ _ true _).1
  | eq | lt | le => exact (serves?_attempted _ _ 0 _ _).2.1
  | setGlobal | setTable => exact (serves?_attempted _ _ 0 true _).2.2
  | setUpval =>
    unfold perform
    dsimp only
    split <;> rfl
  | jmp =>
    unfold perform
    dsimp only [jumpFrom]
    split <;> exact serves?_jump _ _ _
  | testSet =>
    unfold perform
    dsimp only
    split <;> rfl
  | call | tForLoop => exact serves?_callFrom _ _ _ _ _ _
  | tailCall => exact serves?_tailCallFrom _ _ _ _
  | ret => exact hreturned _
  | forLoop => exact serves?_forLoop _ _ _ _
  | forPrep => exact serves?_forPrep _ _ _ _
  | setList =>
    unfold perform
    dsimp only
    split
    · split
      · rfl
      · exact serves?_setList _ _ _ _ _ _ _
    · exact serves?_setList _ _ _ _ _ _ _
  | closure => exact serves?_makeClosure _ _ _ _

theorem serves?_execute (i : Interpreter) (w : Window) : (m.execute i w).2.serves? = none := by
  have hfetched : (m.fetch i w).2.serves? = none := by
    unfold fetch
    split
    · rfl
    · split
      · rfl
      · dsimp only
        split
        · rfl
        · exact serves?_perform _ _ _ _ _
  unfold execute
  dsimp only
  split
  · split
    · rfl
    · exact hfetched
  · exact hfetched

theorem serves?_settle (i : Interpreter) (w : Window) (vs : Values) (sequel : Sequel) :
    (m.settle i w vs sequel).2.serves? = none := by
  cases sequel with
  | discard | store | branch => rfl
  | deliver target held =>
    have hdelivered := serves?_deliver m i.thread target vs
    unfold settle
    dsimp only
    split
    · split <;> rfl
    · rename_i heq
      rw [heq] at hdelivered
      exact hdelivered
  | leave held => exact (Ending.serves?_ofSignal _).trans (serves?_finishReturn m i.thread vs i.floor)

theorem serves?_interrupted (i : Interpreter) (hs : s.serves? = none) (sequel : Sequel) :
    (m.interrupted i s sequel).2.serves? = none := by
  have hsuspended (pending : Frame → PendingCall) : (m.suspend i.thread pending).2.serves? = none := by
    unfold suspend
    split <;> rfl
  unfold interrupted
  split
  · split
    · exact hsuspended _
    · exact hs
  · split
    · exact hsuspended _
    · exact hs
  · exact hs

end Signals

section Natives

/-- The threads that a step adds to a group: a native function may start one. -/
def spawned (m : Machine) (g : GroupId) : Signal → List ThreadId
  | .invoke _ id args =>
    match (m.native id).body with
    | .spawn _ => if args ≠ [] ∧ defaultGroup = g ∧ (m.group g).destroyed = false then [⟨m.threads.size⟩] else []
    | _ => []
  | _ => []

/-- What a native function does is done for the thread at work, and leaves the group alone. -/
def Serves (base : List Activation) (g : GroupId) (n : Machine) (added : List ThreadId) (t : ThreadId)
    (effect : Effect) : Prop :=
  ∀ m : Machine, Attends base g n added (some t) m → Attends base g n added (effect m).2.serves? (effect m).1

theorem serves_baseEffect {args : Values} {effect : Effect} (heffect : BaseEffect t args effect) :
    Serves base g n added t effect := by
  intro m h
  cases heffect with
  | answer => exact h.idle
  | iterate | store | install => exact h.idle.of_eq rfl rfl rfl
  | protect f => exact (h.pushOther (a := .protect) rfl rfl).beginCall _ _ _
  | convert v => exact h.attempt _ args
  | print => exact h.continuePrint args [] args

theorem checked_serves_coroutine (m : Machine) (t : ThreadId) (f : CoroutineFunction) (args : Values) :
    Checked (Serves base g n added t) (m.coroutine t f args) := by
  cases f with
  | create =>
    refine (m.checked_requireFunction t args _).bind fun f _ m h => ?_
    exact (h.newThread f []).idle
  | resume =>
    refine (m.checked_requireThread t args 1 _).bind fun target _ m h => ?_
    exact h.beginResumeFrom target false _
  | yield => exact fun m h => (h.yieldNow args).of_none (m.serves?_yieldNow t args)
  | status =>
    refine (m.checked_requireThread t args 1 _).bind fun target _ m h => ?_
    exact h.idle
  | wrap =>
    refine (m.checked_requireFunction t args _).bind fun f _ m h => ?_
    exact (h.newThread f []).idle.of_eq rfl rfl rfl
  | running => exact fun m h => h.idle
  | wait =>
    refine (m.checked_optionalInteger t args 1 _ 1).bind fun ticks _ m h => ?_
    have hyielded := h.yieldNow []
    have hsignal := m.serves?_yieldNow t []
    dsimp only
    split
    · rename_i heq
      rw [heq] at hyielded
      exact (hyielded.confined (confined_modifyThread _ t _)).idle
    · exact hyielded.of_none hsignal

theorem serves_hostOperation (t : ThreadId) (op : HostOperation) (args : Values) :
    Serves base g n added t fun m => m.hostOperation t op args := by
  intro m h
  cases op with
  | echo | nothing | count | fail | failAt | failFatal | escapeYield | traceback | position | depth | threadNumber
  | status | references => exact h.idle
  | sleep => exact (h.confined (m.confined_modifyThread t _)).idle
  | yield => exact (h.yieldNow args).of_none (m.serves?_yieldNow t args)
  | call => exact h.beginCall _ _ []
  | destroy => exact (h.destroyThread t).idle
  | jump =>
    unfold hostOperation jumpThread
    dsimp only
    split
    · rename_i heq
      split at heq
      · cases heq
      · cases heq
        exact (h.confined ((m.confined_unwind t 0).trans (confined_modifyThread _ t _))).idle
    · exact h.idle
  | resume => exact (h.pushOther (a := .forget) rfl rfl).beginResume none args
  | index | equal | lessThan | lessEqual | length | tostring => exact h.attempt _ args
  | setIndex =>
    have hset := (Retains.refl m t).setIndex (Values.arg args 0) (Values.arg args 1) (Values.arg args 2)
    exact (h.confined hset.toConfined).attempt _ args
  | arith =>
    unfold hostOperation
    dsimp only
    split
    · split
      · exact h.attempt _ args
      · exact h.idle
    · exact h.idle
  | concat => exact h.continueJoin args.reverse []
  | metamethod =>
    unfold hostOperation
    dsimp only
    split <;> exact h.idle

theorem Attends.spawn (h : Attends base g n added (some t) m) (f : Value) (args : Values) :
    Attends base g n (added ++ if defaultGroup = g ∧ (m.group g).destroyed = false then [⟨m.threads.size⟩] else [])
      none ((m.newThread f args).1.addToGroup defaultGroup ⟨m.threads.size⟩) := by
  have hadded : (m.newThread f args).1.threads.size = m.threads.size + 1 := by
    simp [Machine.newThread, addThread, Machine.modifyThread, modifyAt]
  have hnew : ((m.newThread f args).1.thread ⟨m.threads.size⟩).status ≠ .dead := by
    unfold Machine.newThread
    dsimp only [addThread]
    rw [thread_modifyThread (by simp)]
    simp [thread]
  obtain ⟨acts, hstack, hgrounded, -⟩ := h.grounded
  refine .of_grounded (fun henrols => ((h.newThread f args).carries henrols).addToGroup defaultGroup ?_
    (isGone_of_status hnew)) ((stack_addToGroup _ _ _).trans hstack) hgrounded
  rw [hadded]
  exact Nat.lt_succ_self _

theorem Attends.invoke (h : Attends base g n added (some t) m) (id : NativeId) (args : Values) :
    Attends base g n (added ++ m.spawned g (.invoke t id args)) (m.invoke t id args).2.serves?
      (m.invoke t id args).1 := by
  have hheld : Attends base g n added (some t) ({ m with inUse := args } : Machine) := h.of_eq rfl rfl rfl
  have hnative : ({ m with inUse := args } : Machine).native id = m.native id := rfl
  have hserves {body : Builtin} (hbody : (m.native id).body = body)
      (hchecked : Checked (Serves base g n added t) (({ m with inUse := args } : Machine).effect t body args)) :
      Attends base g n added (m.invoke t id args).2.serves? (m.invoke t id args).1 := by
    unfold Machine.invoke
    dsimp only
    rw [hnative, hbody]
    split
    · rename_i effect heq
      rw [heq] at hchecked
      exact hchecked _ hheld
    · exact hheld.idle
  rw [spawned]
  cases hbody : (m.native id).body with
  | spawn name =>
    unfold Machine.invoke
    dsimp only
    rw [hnative, hbody]
    cases args with
    | nil =>
      rw [if_neg fun hboth => hboth.1 rfl, List.append_nil]
      exact hheld.idle
    | cons f args =>
      have hspawned := hheld.spawn f args
      simp only [ne_eq, List.cons_ne_nil, not_false_eq_true, true_and]
      exact hspawned
  | base f =>
    rw [List.append_nil]
    exact hserves hbody ((checked_base _ t f args).imp fun _ => serves_baseEffect)
  | coroutine f =>
    rw [List.append_nil]
    exact hserves hbody (checked_serves_coroutine _ t f args)
  | wrapped target =>
    rw [List.append_nil]
    exact hserves hbody fun m h => h.beginResumeFrom target true args
  | host op =>
    rw [List.append_nil]
    exact hserves hbody (serves_hostOperation t op args)
  | group other action =>
    rw [List.append_nil]
    exact hserves hbody fun m h => h.groupAction other action args

end Natives

section Steps

/-- The innermost work above `base` is taken from the stack. -/
theorem Attends.pop (h : Attends base g n added who m) (hstack : m.stack = a :: rest)
    (habove : base.length ≤ rest.length) : Attends base g n added a.serves? ({ m with stack := rest } : Machine) := by
  obtain ⟨acts, hacts, hgrounded, -⟩ := h.grounded
  rw [hstack] at hacts
  have hcarries (henrols : n.Enrols g) : n.Carries g added ({ m with stack := rest } : Machine) :=
    (h.carries henrols).of_eq rfl rfl fun u hu => by
      rw [Machine.isBusy] at hu
      rw [Machine.isBusy, hstack, List.any_cons, hu, Bool.or_true]
  cases hgrounded with
  | nil =>
    rw [List.nil_append] at hacts
    rw [← hacts, List.length_cons] at habove
    exact absurd habove (Nat.not_succ_le_self _)
  | cons ha hgrounded =>
    obtain ⟨rfl, hrest⟩ := List.cons.inj hacts
    exact ⟨hcarries, _, hrest, hgrounded, ha⟩

/-- An interpreter runs the thread at work. -/
theorem Attends.of_interpret (h : Attends base g n added who m) (hstack : m.stack = .interpret i :: rest)
    (habove : base.length ≤ rest.length) : Attends base g n added (some i.thread) m := by
  obtain ⟨acts, hbelow, hgrounded, hcurrent⟩ := (h.pop hstack habove).grounded
  refine ⟨h.carries, .interpret i :: acts, ?_, .cons hcurrent hgrounded, fun t ht => ?_⟩
  · rw [hstack]
    exact congrArg _ hbelow
  · rw [current?_cons_of_none rfl]
    exact hcurrent t ht

theorem Attends.conclude {j : Interpreter} (h : Attends base g n added who m) (hstack : m.stack = .interpret j :: rest)
    (habove : base.length ≤ rest.length) (hthread : j.thread = i.thread) (w : Window) {e : Ending}
    (he : e.serves? = none) :
    Attends base g n added (m.conclude i w e).2.serves? (m.conclude i w e).1 := by
  have hpopped : Attends base g n added (some i.thread) m.pop := by
    have hbelow := h.pop hstack habove
    rw [Activation.serves?, hthread] at hbelow
    exact hbelow.of_eq rfl rfl (by rw [Machine.pop, hstack, List.tail_cons])
  have hreplaced (stage : Stage) :
      Attends base g n added (some i.thread) (m.replaceTop (.interpret { i with stage })) :=
    hpopped.push (a := .interpret { i with stage }) (fun _ hu => hu) rfl
  cases e with
  | goOn | enter => exact (hreplaced _).idle
  | handle handler sequel => exact (hreplaced _).callHandler handler []
  | join reversed sequel => exact (hreplaced _).continueJoin reversed []
  | invoke => exact hreplaced _
  | stop s =>
    cases s with
    | error e => exact hpopped.idle
    | go | invoke | values | yielded | frameLimit | sleeping => exact hpopped.of_none he

theorem Attends.interprets (h : Attends base g n added who m) (hstack : m.stack = .interpret i :: rest)
    (habove : base.length ≤ rest.length) (hs : s.serves? = none) :
    Attends base g n added (m.interpret i s).2.serves? (m.interpret i s).1 := by
  have hended {who : Option ThreadId} {m m' : Machine} {j : Interpreter} {e : Ending}
      (h : Attends base g n added who m) (hstack : m.stack = .interpret j :: rest) (hthread : j.thread = i.thread)
      (hends : m.Ends i m' e) (he : e.serves? = none) (w : Window) :
      Attends base g n added (m'.conclude i w e).2.serves? (m'.conclude i w e).1 := by
    have hown := h.of_interpret hstack habove
    rw [hthread] at hown
    exact (hown.confined hends.confined).conclude (hends.confined.stack.trans hstack) habove hthread w he
  have hpopped : Attends base g n added (some i.thread) m.pop :=
    (h.pop hstack habove).of_eq rfl rfl (by rw [Machine.pop, hstack, List.tail_cons])
  unfold Machine.interpret
  split
  · unfold enter
    split
    · exact hpopped.idle
    · rename_i top _
      let j : Interpreter := { i with stage := .running ⟨top.closure, top.file, top.pc⟩ }
      have hreplaced : Attends base g n added (some i.thread) (m.replaceTop (.interpret j)) :=
        hpopped.push (a := .interpret j) (fun _ hu => hu) rfl
      have hstack : (m.replaceTop (.interpret j)).stack = .interpret j :: rest := by
        rw [replaceTop, hstack]
        rfl
      exact hended hreplaced hstack rfl (ends_execute _ i _) (serves?_execute _ i _) _
  · exact hended h hstack rfl (ends_execute m i _) (m.serves?_execute i _) _
  · exact hended h hstack rfl (ends_settle m i _ _ _) (m.serves?_settle i _ _ _) _
  · exact hended h hstack rfl (ends_interrupted m i _ _) (m.serves?_interrupted i hs _) _
  · exact hpopped.of_none hs

/-- A resume ends, and its thread may be dead or not from then on. -/
theorem Attends.endResume {floor : Nat} {held : Values} (h : Attends base g n added who m)
    (hstack : m.stack = .endResume t floor held :: rest) (habove : base.length ≤ rest.length)
    (hconfined : ({ m with stack := rest } : Machine).Confined m' t) : Attends base g n added none m' := by
  obtain ⟨acts, hbelow, hgrounded, -⟩ := (h.pop hstack habove).grounded
  have hbusy : m.isBusy t = true := by
    rw [Machine.isBusy, hstack, List.any_cons, Bool.or_eq_true]
    exact Or.inl (beq_iff_eq.mpr rfl)
  exact .of_grounded (fun henrols => (h.carries henrols).ended hstack (isGone_of_busy hbusy) hconfined)
    (hconfined.stack.trans hbelow) hgrounded

theorem serves?_stepEndCall (m : Machine) (t : ThreadId) (floor : Option Nat) (previous : Option Status)
    (hs : s.serves? = none) : (m.stepEndCall t floor previous s).2.serves? = none := by
  cases s with
  | invoke => cases hs
  | go | values | yielded | frameLimit | sleeping | error => rfl

theorem serves?_stepStartedNative (m : Machine) (t : ThreadId) (hs : s.serves? = none) :
    (m.stepStartedNative t s).2.serves? = none := by
  unfold stepStartedNative
  split
  · rfl
  · rfl
  · exact hs

theorem serves?_stepEndResume (m : Machine) (t : ThreadId) (floor : Nat) (hs : s.serves? = none) :
    (m.stepEndResume t floor s).2.serves? = none := by
  unfold stepEndResume
  split
  · rfl
  · rfl
  · rfl
  · rfl
  · exact hs

theorem serves?_stepProtect (hs : s.serves? = none) : (stepProtect s).serves? = none := by
  unfold stepProtect
  split
  · rfl
  · rfl
  · exact hs

theorem Attends.stepResumed (h : Attends base g n added (some t) m) (previous : Status) (wrapped : Bool) (s : Signal) :
    Attends base g n added (m.stepResumed t previous wrapped s).2.serves?
      (m.stepResumed t previous wrapped s).1 := by
  have hback : Attends base g n added none (m.setStatus t previous) := (h.confined (m.confined_modifyThread t _)).idle
  have hsuccess (vs : Values) : (Signal.values (if wrapped then vs else .bool true :: vs)).serves? = none := rfl
  unfold Machine.stepResumed
  dsimp only
  split
  · exact hback
  · exact hback
  · exact hback
  · split
    · split <;> exact hback
    · exact hback
  · exact hback

/-- Work other than a group's tick takes a signal. -/
theorem Attends.resumeWork (h : Attends base g n added who m) (hstack : m.stack = a :: rest)
    (habove : base.length ≤ rest.length) (hs : s.serves? = none)
    (htick : ∀ other members t todo, a ≠ .tick other members t todo) :
    Attends base g n added (m.resumeWork a rest s).2.serves? (m.resumeWork a rest s).1 := by
  have hpopped := h.pop hstack habove
  cases a with
  | interpret i => exact h.interprets hstack habove hs
  | endCall t floor previous held =>
    exact (hpopped.confined (confined_stepEndCall _ t floor previous s)).of_none
      (serves?_stepEndCall _ t floor previous hs)
  | startedNative t held =>
    exact (hpopped.confined (confined_stepStartedNative _ t s)).of_none (serves?_stepStartedNative _ t hs)
  | endResume t floor held =>
    exact (h.endResume hstack habove (confined_stepEndResume _ t floor s)).of_none (serves?_stepEndResume _ t floor hs)
  | protect => exact hpopped.of_none (serves?_stepProtect hs)
  | resumed t previous wrapped target => exact hpopped.stepResumed previous wrapped s
  | tick other members t todo => exact absurd rfl (htick other members t todo)
  | updateGroups groups =>
    cases s with
    | values vs => exact hpopped.continueUpdates groups
    | go | invoke | yielded | frameLimit | sleeping | error => exact hpopped.of_none hs
  | concat t left held =>
    cases s with
    | values vs => exact hpopped.continueJoin _ held
    | go | invoke | yielded | frameLimit | sleeping | error => exact hpopped.of_none hs
  | print t shown args =>
    cases s with
    | values vs =>
      show Attends base g n added (Machine.stepPrint _ _ _ _ _).2.serves? (Machine.stepPrint _ _ _ _ _).1
      unfold Machine.stepPrint
      split
      · exact hpopped.continuePrint args _ _
      · exact hpopped.idle
    | go | invoke | yielded | frameLimit | sleeping | error => exact hpopped.of_none hs
  | forget | read | groupSize =>
    cases s with
    | invoke => cases hs
    | go | values | yielded | frameLimit | sleeping | error => exact hpopped.of_none rfl

end Steps

section Handling

/-- What there is to report of a tick. -/
def report? (m : Machine) (g : GroupId) (t : ThreadId) : Signal → Option Report
  | .error e => some ⟨g, (m.thread t).number, e⟩
  | _ => none

/-- After a tick the host hears of an error, and a thread that it left unable to run is ended. -/
def afterTick (handler : ExceptionHandler) (m : Machine) (g : GroupId) (t : ThreadId) (s : Signal) : Machine :=
  match m.report? g t s with
  | some r =>
    let m := handler.run r { m with reports := r :: m.reports }
    if !m.isBusy t && !(m.thread t).status.isResumable && (m.thread t).status ≠ .dead then m.destroyThread t else m
  | none => m

/-- The threads that the host adds to the group `g` after a tick of the group `other`. -/
def addedAfterTick (handler : ExceptionHandler) (m : Machine) (g other : GroupId) (t : ThreadId) (s : Signal) :
    List ThreadId :=
  match m.report? other t s with
  | some r => handler.added g r { m with reports := r :: m.reports }
  | none => []

/-- A tick ends: the host hears of an error, and the pass goes on. -/
def stepTickWith (handler : ExceptionHandler) (m : Machine) (g : GroupId) (members : List ThreadId) (t : ThreadId)
    (rest : List ThreadId) (s : Signal) : Machine × Signal :=
  let m := m.afterTick handler g t s
  if (m.group g).destroyed then (m, .values []) else m.continueTicks g members rest

/-- One step with a host that hears of failed ticks. -/
def stepWith (handler : ExceptionHandler) (m : Machine) (s : Signal) : Machine × Signal :=
  match s with
  | .invoke t id args => m.invoke t id args
  | s =>
    match m.stack with
    | [] => (m, s)
    | .tick g members t todo :: rest =>
      ({ m with inUse := [], stack := rest } : Machine).stepTickWith handler g members t todo s
    | a :: rest => { m with inUse := [] }.resumeWork a rest s

/-- The threads that such a step adds to a group. -/
def joins (handler : ExceptionHandler) (m : Machine) (g : GroupId) (s : Signal) : List ThreadId :=
  match s with
  | .invoke t id args => m.spawned g (.invoke t id args)
  | s =>
    match m.stack with
    | .tick other _ t _ :: rest => ({ m with inUse := [], stack := rest } : Machine).addedAfterTick handler g other t s
    | _ => []

/-- A host that only takes a note is the machine's own. -/
theorem stepWith_silent (m : Machine) (s : Signal) : m.stepWith .silent s = m.step s := by
  unfold stepWith step
  cases s with
  | invoke => rfl
  | go | values | yielded | frameLimit | sleeping | error =>
    dsimp only
    cases m.stack with
    | nil => rfl
    | cons a rest => cases a <;> rfl

theorem stepWith_tick (handler : ExceptionHandler) (g : GroupId) {other : GroupId} {members todo : List ThreadId}
    {rest : List Activation} (hstack : m.stack = .tick other members t todo :: rest)
    (hinvoke : ∀ u id args, s ≠ .invoke u id args) :
    m.stepWith handler s =
        ({ m with inUse := [], stack := rest } : Machine).stepTickWith handler other members t todo s ∧
      m.joins handler g s =
        ({ m with inUse := [], stack := rest } : Machine).addedAfterTick handler g other t s := by
  cases m
  dsimp only at hstack
  subst hstack
  cases s with
  | invoke u id args => exact absurd rfl (hinvoke u id args)
  | go | values | yielded | frameLimit | sleeping | error => exact ⟨rfl, rfl⟩

/-- A host hears of nothing but ticks. -/
theorem stepWith_cons (handler : ExceptionHandler) (g : GroupId) {a : Activation} {rest : List Activation}
    (hstack : m.stack = a :: rest) (hinvoke : ∀ u id args, s ≠ .invoke u id args)
    (htick : ∀ other members t todo, a ≠ .tick other members t todo) :
    m.stepWith handler s = m.step s ∧ m.joins handler g s = [] := by
  cases m
  dsimp only at hstack
  subst hstack
  cases s with
  | invoke u id args => exact absurd rfl (hinvoke u id args)
  | go | values | yielded | frameLimit | sleeping | error =>
    cases a <;> first | exact ⟨rfl, rfl⟩ | exact absurd rfl (htick _ _ _ _)

/-- A step that no native function takes, above some work. -/
theorem exists_cons_of_working (hworks : m.isWorkingAbove base s = true)
    (hinvoke : ∀ u id args, s ≠ .invoke u id args) : ∃ a rest, m.stack = a :: rest ∧ base.length ≤ rest.length := by
  have hlength := ((isWorkingAbove_iff m base s).mp hworks).resolve_left
    (fun ⟨u, id, args, hs⟩ => hinvoke u id args hs)
  obtain ⟨a, rest, hstack⟩ := List.exists_cons_of_length_pos (Nat.zero_lt_of_lt hlength)
  rw [hstack, List.length_cons] at hlength
  exact ⟨a, rest, hstack, Nat.lt_succ_iff.mp hlength⟩

theorem stack_afterTick (hlawful : handler.Lawful g) (m : Machine) (other : GroupId) (t : ThreadId) (s : Signal) :
    (m.afterTick handler other t s).stack = m.stack := by
  unfold afterTick
  split
  · rename_i r _
    have hstack := (hlawful r { m with reports := r :: m.reports }).1
    dsimp only
    split
    · exact (confined_destroyThread _ t).stack.trans hstack
    · exact hstack
  · rfl

theorem Attends.afterTick (hlawful : handler.Lawful g) (h : Attends base g n added who m) (other : GroupId)
    (t : ThreadId) (s : Signal) :
    Attends base g n (added ++ m.addedAfterTick handler g other t s) none (m.afterTick handler other t s) := by
  unfold Machine.afterTick addedAfterTick
  cases m.report? other t s with
  | none =>
    rw [List.append_nil]
    exact h.idle
  | some r =>
    dsimp only
    have hnoted : Attends base g n added who { m with reports := r :: m.reports } := h.of_eq rfl rfl rfl
    obtain ⟨hstack, hcarries⟩ := hlawful r { m with reports := r :: m.reports }
    obtain ⟨acts, hacts, hgrounded, -⟩ := hnoted.grounded
    have hheard : Attends base g n (added ++ handler.added g r { m with reports := r :: m.reports }) none
        (handler.run r { m with reports := r :: m.reports }) :=
      .of_grounded (fun henrols => (hnoted.carries henrols).trans (hcarries (hnoted.carries henrols).enrols))
        (hstack.trans hacts) hgrounded
    split
    · exact hheard.destroyThread t
    · exact hheard

theorem Attends.stepTickWith (hlawful : handler.Lawful g) (h : Attends base g n added who m) (other : GroupId)
    (members : List ThreadId) (t : ThreadId) (rest : List ThreadId) (s : Signal) :
    Attends base g n (added ++ m.addedAfterTick handler g other t s)
      (m.stepTickWith handler other members t rest s).2.serves? (m.stepTickWith handler other members t rest s).1 := by
  have hafter := h.afterTick hlawful other t s
  unfold Machine.stepTickWith
  dsimp only
  split
  · exact hafter
  · exact hafter.continueTicks other members rest

/-- What a step above some work does is done for the threads that it belongs to, and leaves the group in order. -/
theorem Attends.stepWith (hlawful : handler.Lawful g) (h : Attends base g n added s.serves? m)
    (hworks : m.isWorkingAbove base s = true) :
    Attends base g n (added ++ m.joins handler g s) (m.stepWith handler s).2.serves? (m.stepWith handler s).1 := by
  by_cases hinvoke : ∃ t id args, s = .invoke t id args
  · obtain ⟨t, id, args, rfl⟩ := hinvoke
    exact h.invoke id args
  · have hnot (t : ThreadId) (id : NativeId) (args : Values) : s ≠ .invoke t id args :=
      fun heq => hinvoke ⟨t, id, args, heq⟩
    obtain ⟨a, rest, hstack, habove⟩ := exists_cons_of_working hworks hnot
    have hs := Signal.serves?_of_ne hnot
    have hcleared : Attends base g n added s.serves? ({ m with inUse := [] } : Machine) := h.of_eq rfl rfl rfl
    by_cases htick : ∃ other members t todo, a = .tick other members t todo
    · obtain ⟨other, members, t, todo, rfl⟩ := htick
      obtain ⟨hstep, hjoins⟩ := stepWith_tick handler g hstack hnot
      rw [hstep, hjoins]
      exact (hcleared.pop hstack habove).stepTickWith hlawful other members t todo s
    · have hplain (other : GroupId) (members : List ThreadId) (t : ThreadId) (todo : List ThreadId) :
          a ≠ .tick other members t todo := fun heq => htick ⟨other, members, t, todo, heq⟩
      obtain ⟨hstep, hjoins⟩ := stepWith_cons handler g hstack hnot hplain
      rw [hstep, hjoins, List.append_nil, step_cons hstack hnot]
      exact hcleared.resumeWork hstack habove hs hplain

end Handling

end Machine

end LuaMachine
