import LuaMachine.Proofs.Machine.ActiveChain
import LuaMachine.Proofs.Machine.Fatality

namespace LuaMachine

/-- Whether a native function ends the thread that runs it. -/
def Builtin.endsThread : Builtin → Bool
  | .host .destroy => true
  | _ => false

/-- Whether a native function ticks the threads of a group. -/
def Builtin.updatesGroup : Builtin → Bool
  | .group _ .update => true
  | _ => false

theorem Status.mem_of_isActive_eq_false {status : Status} (h : status.isActive = false) :
    status ∈ [.initial, .suspended, .endCall, .dead] := by
  revert h
  cases status <;> decide

namespace Machine

variable {m m' : Machine} {root t u : ThreadId} {ts : List ThreadId} {rest acts : List Activation} {a : Activation}
  {i : Interpreter} {s : Signal}

/-- Whether a native function with the property `p` is about to run. -/
def invokes (m : Machine) (p : Builtin → Bool) : Signal → Bool
  | .invoke _ id _ => p (m.native id).body
  | _ => false

section Natives

/-- What a native function does for a thread at work keeps the active threads in a chain. -/
def KeepsChain (root t : ThreadId) (ts : List ThreadId) (effect : Effect) : Prop :=
  ∀ m : Machine, m.AtWork root t ts → (effect m).1.Linked root (effect m).2

theorem keepsChain_baseEffect {args : Values} {effect : Effect} (heffect : BaseEffect t args effect) :
    KeepsChain root t ts effect := by
  intro m h
  cases heffect with
  | answer => exact h.linked rfl
  | iterate | store | install => exact (h.linked (s := .values _) rfl).steady (.of_eq rfl rfl rfl)
  | protect f => exact (h.push (a := .protect) trivial).beginCall _ _ _
  | convert v => exact h.attempt _ args
  | print => exact h.continuePrint args [] args

theorem checked_keepsChain_coroutine (m : Machine) (t : ThreadId) (f : CoroutineFunction) (args : Values) :
    Checked (KeepsChain root t ts) (m.coroutine t f args) := by
  cases f with
  | create =>
    refine (m.checked_requireFunction t args _).bind fun f _ m h => ?_
    exact (h.steady (m.steady_newThread f [])).linked rfl
  | resume =>
    refine (m.checked_requireThread t args 1 _).bind fun target _ m h => ?_
    exact h.beginResumeFrom target false _
  | yield => exact fun m h => (h.steady (m.steady_yieldNow t args)).linked (m.serves?_yieldNow t args)
  | status =>
    refine (m.checked_requireThread t args 1 _).bind fun target _ m h => ?_
    exact h.linked rfl
  | wrap =>
    refine (m.checked_requireFunction t args _).bind fun f _ m h => ?_
    exact ((h.steady (m.steady_newThread f [])).linked (s := .values _) rfl).steady (.of_eq rfl rfl rfl)
  | running => exact fun m h => h.linked rfl
  | wait =>
    refine (m.checked_optionalInteger t args 1 _ 1).bind fun ticks _ m h => ?_
    have hyielded := h.steady (m.steady_yieldNow t [])
    have hsignal := m.serves?_yieldNow t []
    dsimp only
    split
    · rename_i heq
      rw [heq] at hyielded
      exact (hyielded.steady (.modifyThread _ t (by intro; exact ⟨rfl, rfl⟩))).linked rfl
    · exact hyielded.linked hsignal

theorem keepsChain_hostOperation {op : HostOperation} (hop : op ≠ .destroy) (args : Values) :
    KeepsChain root t ts fun m => m.hostOperation t op args := by
  intro m h
  cases op with
  | echo | nothing | count | fail | failAt | failFatal | escapeYield | traceback | position | depth | threadNumber
  | status | references => exact h.linked rfl
  | sleep => exact (h.steady (.modifyThread m t (by intro; exact ⟨rfl, rfl⟩))).linked rfl
  | yield => exact (h.steady (m.steady_yieldNow t args)).linked (m.serves?_yieldNow t args)
  | call => exact h.beginCall _ _ []
  | destroy => exact absurd rfl hop
  | jump =>
    -- The thread at work is active, so that it cannot be made to start over.
    unfold hostOperation jumpThread
    dsimp only
    rw [h.running]
    exact h.linked rfl
  | resume =>
    -- The thread at work is active, so that it cannot be resumed.
    have hpushed := h.push (a := .forget) trivial
    refine linked_beginResume ts (fun s hs => hpushed.linked hs) (fun hidle => ?_) none args
    rw [hpushed.running] at hidle
    cases hidle
  | index | equal | lessThan | lessEqual | length | tostring => exact h.attempt _ args
  | setIndex =>
    have hset := (Retains.refl m t).setIndex (Values.arg args 0) (Values.arg args 1) (Values.arg args 2)
    exact (h.steady hset.steady).attempt _ args
  | arith =>
    unfold hostOperation
    dsimp only
    split
    · split
      · exact h.attempt _ args
      · exact h.linked rfl
    · exact h.linked rfl
  | concat => exact h.continueJoin args.reverse []
  | metamethod =>
    unfold hostOperation
    dsimp only
    split <;> exact h.linked rfl

theorem keepsChain_groupAction {action : GroupAction} (haction : action ≠ .update) (g : GroupId) (args : Values) :
    KeepsChain root t ts fun m => m.groupAction g action args := by
  intro m h
  cases action with
  | update => exact absurd rfl haction
  | suspend | resume => exact (h.linked (s := .values _) rfl).steady (.of_eq rfl rfl rfl)
  | destroy => exact (h.destroyGroup g).linked rfl

theorem checked_keepsChain_effect (m : Machine) (t : ThreadId) {body : Builtin} (hends : body.endsThread = false)
    (hupdates : body.updatesGroup = false) (args : Values) : Checked (KeepsChain root t ts) (m.effect t body args) := by
  cases body with
  | base f => exact (checked_base m t f args).imp fun _ => keepsChain_baseEffect
  | coroutine f => exact m.checked_keepsChain_coroutine t f args
  | wrapped target => exact fun m h => h.beginResumeFrom target true args
  | spawn name =>
    refine (m.checked_requireArg t args 1 name).bind fun f _ m h => ?_
    exact ((h.steady (m.steady_newThread f _)).addToGroup _ _).linked rfl
  | host op => exact keepsChain_hostOperation (fun hop => by rw [hop] at hends; cases hends) args
  | group g action =>
    exact keepsChain_groupAction (fun haction => by rw [haction] at hupdates; cases hupdates) g args

/-- A native function runs for the thread at work. -/
theorem AtWork.invoke (h : m.AtWork root t ts) {id : NativeId} (hends : (m.native id).body.endsThread = false)
    (hupdates : (m.native id).body.updatesGroup = false) (args : Values) :
    (m.invoke t id args).1.Linked root (m.invoke t id args).2 := by
  have hheld : ({ m with inUse := args } : Machine).AtWork root t ts := h.steady (.of_eq rfl rfl rfl)
  have hchecked : Checked (KeepsChain root t ts) (({ m with inUse := args } : Machine).effect t
      (({ m with inUse := args } : Machine).native id).body args) := checked_keepsChain_effect _ t hends hupdates args
  unfold Machine.invoke
  dsimp only
  split
  · rename_i effect heq
    rw [heq] at hchecked
    exact hchecked _ hheld
  · exact hheld.linked rfl

end Natives

section Interpreters

theorem AtWork.conclude {j : Interpreter} (h : m.AtWork root t ts) (hstack : m.stack = .interpret j :: rest)
    (hj : j.thread = t) (hi : i.thread = t) (w : Window) {e : Ending} (he : e.serves? = none) :
    (m.conclude i w e).1.Linked root (m.conclude i w e).2 := by
  subst hi
  have hpopped : m.pop.AtWork root i.thread ts :=
    (h.pop hstack hj).steady (.of_eq rfl (by rw [Machine.pop, hstack, List.tail_cons]) rfl)
  have hreplaced (stage : Stage) : (m.replaceTop (.interpret { i with stage })).AtWork root i.thread ts :=
    hpopped.push (a := .interpret { i with stage }) rfl
  cases e with
  | goOn | enter => exact (hreplaced _).linked rfl
  | handle handler sequel => exact (hreplaced _).callHandler handler []
  | join reversed sequel => exact (hreplaced _).continueJoin reversed []
  | invoke => exact .working (hreplaced _) fun u hu => (Option.some.inj hu).symm
  | stop s =>
    cases s with
    | error e => exact hpopped.linked rfl
    | go | invoke | values | yielded | frameLimit | sleeping => exact hpopped.linked he

/-- An interpreter takes a signal. -/
theorem AtWork.interprets (h : m.AtWork root t ts) (hstack : m.stack = .interpret i :: rest) (hi : i.thread = t)
    (hs : s.serves? = none) : (m.interpret i s).1.Linked root (m.interpret i s).2 := by
  have hended {m m' : Machine} {j : Interpreter} {e : Ending} (h : m.AtWork root t ts)
      (hstack : m.stack = .interpret j :: rest) (hj : j.thread = t) (hends : m.Ends i m' e) (he : e.serves? = none)
      (w : Window) : (m'.conclude i w e).1.Linked root (m'.conclude i w e).2 :=
    (h.steady hends.steady).conclude (hends.confined.stack.trans hstack) hj hi w he
  have hpopped : m.pop.AtWork root t ts :=
    (h.pop hstack hi).steady (.of_eq rfl (by rw [Machine.pop, hstack, List.tail_cons]) rfl)
  unfold Machine.interpret
  split
  · unfold enter
    split
    · exact hpopped.linked rfl
    · rename_i top _
      let j : Interpreter := { i with stage := .running ⟨top.closure, top.file, top.pc⟩ }
      have hreplaced : (m.replaceTop (.interpret j)).AtWork root t ts := hpopped.push (a := .interpret j) hi
      have hstack : (m.replaceTop (.interpret j)).stack = .interpret j :: rest := by
        rw [replaceTop, hstack]
        rfl
      exact hended hreplaced hstack hi (ends_execute _ i _) (serves?_execute _ i _) _
  · exact hended h hstack hi (ends_execute m i _) (m.serves?_execute i _) _
  · exact hended h hstack hi (ends_settle m i _ _ _) (m.serves?_settle i _ _ _) _
  · exact hended h hstack hi (ends_interrupted m i _ _) (m.serves?_interrupted i hs _) _
  · exact hpopped.linked hs

end Interpreters

section Ends

/-- When a resume is over its thread is not active any more. -/
theorem isActive_stepEndResume (hrange : t.index < m.threads.size) (floor : Nat) (s : Signal) :
    ((m.stepEndResume t floor s).1.thread t).status.isActive = false := by
  have hset (n depth : Nat) {status : Status} (hstatus : status.isActive = false) :
      (((m.unwind t depth).setStatus t status).thread t).status.isActive = false := by
    rw [status_setStatus (by rw [(m.confined_unwind t depth).size]; exact hrange)]
    exact hstatus
  have hleft {status : Status} (hstatus : status.isActive = false) :
      ((m.setStatus t status).thread t).status.isActive = false := by
    rw [status_setStatus hrange]
    exact hstatus
  unfold stepEndResume
  split
  · exact hset 0 0 rfl
  · exact hset 0 0 rfl
  · refine hset 0 floor ?_
    split <;> rfl
  · exact hleft rfl
  · exact hleft rfl

/-- When a call that the host made is over its thread has its old status back. -/
theorem status_stepEndCall (hrange : t.index < m.threads.size) (floor : Option Nat) (previous : Status) (s : Signal) :
    ((m.stepEndCall t floor (some previous) s).1.thread t).status = previous := by
  unfold stepEndCall
  extract_lets s' m'
  have hsize : m'.threads.size = m.threads.size := by
    dsimp only [m']
    generalize s' = outcome
    split
    · exact (m.confined_unwind t _).size
    · rfl
  exact congrArg Thread.status (thread_modifyThread (by rw [hsize]; exact hrange) _)

/-- A call that an active thread made leaves its status alone. -/
theorem steady_stepEndCall (m : Machine) (t : ThreadId) (floor : Option Nat) (s : Signal) :
    m.Steady (m.stepEndCall t floor none s).1 := by
  unfold stepEndCall
  extract_lets s' m'
  have hunwound : m.Steady m' := by
    dsimp only [m']
    generalize s' = outcome
    split
    · exact m.steady_unwind t _
    · exact .refl m
  exact hunwound.trans (.modifyThread m' t (by intro; exact ⟨rfl, rfl⟩))

theorem steady_stepStartedNative (m : Machine) (t : ThreadId) (s : Signal) :
    m.Steady (m.stepStartedNative t s).1 := by
  unfold stepStartedNative
  split
  · exact (Steady.modifyThread m t (by intro; exact ⟨rfl, rfl⟩)).trans (.modifyThread _ t (by intro; exact ⟨rfl, rfl⟩))
  · exact .refl m
  · exact .refl m

/-- A thread that resumed another one has its old status back, whatever the other one hands to it. -/
theorem stepResumed_eq (m : Machine) (t : ThreadId) (previous : Status) (wrapped : Bool) (s : Signal) :
    (m.stepResumed t previous wrapped s).1 = m.setStatus t previous ∧
      (m.stepResumed t previous wrapped s).2.serves? = none := by
  unfold stepResumed
  dsimp only
  split
  · exact ⟨rfl, rfl⟩
  · exact ⟨rfl, rfl⟩
  · exact ⟨rfl, rfl⟩
  · split
    · split <;> exact ⟨rfl, rfl⟩
    · exact ⟨rfl, rfl⟩
  · exact ⟨rfl, rfl⟩

end Ends

section Steps

/-- Work of the thread at work takes a signal. -/
theorem AtWork.resumeWork (h : m.AtWork root t ts) (hstack : m.stack = a :: rest) (ha : a.BelongsTo t)
    (hs : s.serves? = none) : (m.resumeWork a rest s).1.Linked root (m.resumeWork a rest s).2 := by
  have hpopped := h.pop hstack ha
  cases a with
  | interpret i => exact h.interprets hstack ha hs
  | endCall u floor previous held =>
    obtain ⟨rfl, rfl⟩ := ha
    exact (hpopped.steady (steady_stepEndCall _ u floor s)).linked (serves?_stepEndCall _ u floor none hs)
  | startedNative u held =>
    obtain rfl : u = t := ha
    exact (hpopped.steady (steady_stepStartedNative _ u s)).linked (serves?_stepStartedNative _ u hs)
  | protect => exact hpopped.linked (serves?_stepProtect hs)
  | concat u left held =>
    obtain rfl : u = t := ha
    cases s with
    | values vs => exact hpopped.continueJoin _ held
    | go | invoke | yielded | frameLimit | sleeping | error => exact hpopped.linked hs
  | print u shown args =>
    obtain rfl : u = t := ha
    cases s with
    | values vs =>
      show (Machine.stepPrint _ _ _ _ _).1.Linked root (Machine.stepPrint _ _ _ _ _).2
      unfold stepPrint
      split
      · exact hpopped.continuePrint args _ _
      · exact hpopped.linked rfl
    | go | invoke | yielded | frameLimit | sleeping | error => exact hpopped.linked hs
  | forget | read =>
    cases s with
    | invoke => cases hs
    | go | values | yielded | frameLimit | sleeping | error => exact hpopped.linked rfl
  | endResume | resumed | tick | groupSize | updateGroups => cases ha

/-- The resume or call that the host began is over, and with it the only thread of the chain stops. -/
theorem AtWork.ends (h : m.AtWork root t []) (hconfined : ({ m with stack := [] } : Machine).Confined m' t)
    (ht : (m'.thread t).status.isActive = false) (hs : s.serves? = none) : m'.Linked root s := by
  refine .done hconfined.stack (fun u => ?_) hs
  by_cases hut : u = t
  · rw [hut]
    exact ht
  · rw [hconfined.others u hut]
    exact h.others u fun hmem => hut (List.mem_singleton.mp hmem)

/-- A resume is over, and its thread stops. Control goes back to the thread that resumed it. -/
theorem AtWork.returns {wrapped : Bool} (h : m.AtWork root u (t :: ts)) (hchain : ActiveChain root (t :: ts) acts)
    (hconfined : ({ m with stack := .resumed t .running wrapped u :: acts } : Machine).Confined m' u)
    (hu : (m'.thread u).status.isActive = false) (hs : s.serves? = none) : m'.Linked root s := by
  obtain ⟨hnew, hnodup⟩ := List.nodup_cons.mp h.nodup
  have hsame (v : ThreadId) (hv : v ∈ t :: ts) : (m'.thread v).status = .normal := by
    rw [hconfined.others v fun heq => hnew (heq ▸ hv)]
    exact h.waiting v hv
  refine .back hconfined.stack hchain hnodup ?_ (fun v hv => hsame v (List.mem_cons_of_mem t hv)) (fun v hv => ?_) hs
  · rw [hsame t List.mem_cons_self]
    rfl
  · by_cases hvu : v = u
    · rw [hvu]
      exact hu
    · rw [hconfined.others v hvu]
      exact h.others v fun hmem => hv ((List.mem_cons.mp hmem).resolve_left hvu)

/-- Control is back at a thread that waited for another one: the thread is at work again. -/
theorem atWork_of_back (hchain : ActiveChain root (t :: ts) m.stack) (hnodup : (t :: ts).Nodup)
    (hactive : (m.thread t).status.isActive = true) (hwaiting : ∀ u ∈ ts, (m.thread u).status = .normal)
    (hothers : ∀ u, u ∉ t :: ts → (m.thread u).status.isActive = false) :
    (m.setStatus t .running).AtWork root t ts := by
  have hrange : t.index < m.threads.size := by
    refine index_lt_of_status fun hdead => ?_
    rw [hdead] at hactive
    cases hactive
  have hsame (v : ThreadId) (hv : v ≠ t) : (m.setStatus t .running).thread v = m.thread v :=
    m.thread_modifyThread_of_ne hv _
  refine ⟨hchain, hnodup, status_setStatus hrange .running, fun u hu => ?_, fun u hu => ?_⟩
  · rw [hsame u fun heq => (List.nodup_cons.mp hnodup).1 (heq ▸ hu)]
    exact hwaiting u hu
  · rw [hsame u fun heq => hu (heq ▸ List.mem_cons_self)]
    exact hothers u hu

/-- The innermost work takes a signal. It ends the resume or the call that the host began, is work of the thread at
work, or ends the resume of that thread. -/
theorem AtWork.takes (h : m.AtWork root t ts) (hnot : ∀ u id args, s ≠ .invoke u id args) :
    (m.step s).1.Linked root (m.step s).2 := by
  have hnone := Signal.serves?_of_ne hnot
  have hcleared : ({ m with inUse := [] } : Machine).AtWork root t ts := h.steady (.of_eq rfl rfl rfl)
  have hrange : t.index < m.threads.size := index_lt_of_status (by rw [h.running]; exact nofun)
  have hchain := h.chain
  generalize hstack : m.stack = stack at hchain
  cases hchain with
  | @resume floor held =>
    rw [step_cons hstack hnot]
    exact hcleared.ends (confined_stepEndResume _ root floor s)
      (isActive_stepEndResume (m := { m with inUse := [], stack := [] }) hrange floor s)
      (serves?_stepEndResume _ root floor hnone)
  | @call floor previous held hprevious =>
    rw [step_cons hstack hnot]
    have hstatus := status_stepEndCall (m := { m with inUse := [], stack := [] }) hrange floor previous s
    exact hcleared.ends (confined_stepEndCall _ root floor (some previous) s)
      ((congrArg Status.isActive hstatus).trans hprevious) (serves?_stepEndCall _ root floor (some previous) hnone)
  | work ha _ =>
    rw [step_cons hstack hnot]
    exact hcleared.resumeWork hstack ha hnone
  | @nested u _ _ floor held wrapped acts hchain =>
    rw [step_cons hstack hnot]
    exact hcleared.returns hchain (confined_stepEndResume _ t floor s)
      (isActive_stepEndResume (m := { m with inUse := [], stack := _ }) hrange floor s)
      (serves?_stepEndResume _ t floor hnone)

/-- A thread that waited for another one takes the outcome of that, and is at work again. -/
theorem step_of_back {target : ThreadId} {wrapped : Bool}
    (hstack : m.stack = .resumed t .running wrapped target :: acts) (hchain : ActiveChain root (t :: ts) acts)
    (hnodup : (t :: ts).Nodup) (hactive : (m.thread t).status.isActive = true)
    (hwaiting : ∀ u ∈ ts, (m.thread u).status = .normal)
    (hothers : ∀ u, u ∉ t :: ts → (m.thread u).status.isActive = false) (hs : s.serves? = none) :
    (m.step s).1.AtWork root t ts ∧ (m.step s).1.stack = acts ∧ (m.step s).2.serves? = none := by
  have hnot (u : ThreadId) (id : NativeId) (args : Values) : s ≠ .invoke u id args := by
    rintro rfl
    cases hs
  have hatWork := atWork_of_back (m := { m with inUse := [], stack := acts }) hchain hnodup hactive hwaiting hothers
  obtain ⟨hmachine, hsignal⟩ := stepResumed_eq { m with inUse := [], stack := acts } t .running wrapped s
  rw [step_cons hstack hnot]
  rw [← hmachine] at hatWork
  exact ⟨hatWork, congrArg Machine.stack hmachine, hsignal⟩

/-- A step keeps the active threads in a chain. -/
theorem Linked.step (h : m.Linked root s) (hends : m.invokes Builtin.endsThread s = false)
    (hupdates : m.invokes Builtin.updatesGroup s = false) : (m.step s).1.Linked root (m.step s).2 := by
  cases h with
  | working h hs =>
    by_cases hinvoke : ∃ u id args, s = .invoke u id args
    · obtain ⟨u, id, args, rfl⟩ := hinvoke
      obtain rfl := hs u rfl
      exact h.invoke hends hupdates args
    · exact h.takes fun u id args heq => hinvoke ⟨u, id, args, heq⟩
  | back hstack hchain hnodup hactive hwaiting hothers hs =>
    obtain ⟨hatWork, -, hsignal⟩ := step_of_back hstack hchain hnodup hactive hwaiting hothers hs
    exact hatWork.linked hsignal
  | done hstack hidle hs =>
    rw [step_nil hstack (by rintro u id args rfl; cases hs)]
    exact .done hstack hidle hs

theorem linked_after {r : Machine × Signal} {k : Nat} (h : r.1.Linked root r.2)
    (hends : ∀ i < k, (after i r).1.invokes Builtin.endsThread (after i r).2 = false)
    (hupdates : ∀ i < k, (after i r).1.invokes Builtin.updatesGroup (after i r).2 = false) :
    (after k r).1.Linked root (after k r).2 := by
  induction k with
  | zero => exact h
  | succ k ih =>
    rw [after_succ]
    exact (ih (fun i hi => hends i (Nat.lt_succ_of_lt hi)) fun i hi => hupdates i (Nat.lt_succ_of_lt hi)).step
      (hends k (Nat.lt_succ_self k)) (hupdates k (Nat.lt_succ_self k))

end Steps

section Runs

/-- The host begins to resume a thread, or to call a function on one that is there. -/
inductive Starts (m : Machine) (t : ThreadId) : Machine × Signal → Prop
  | resume (budget : Option Nat) (args : Values) : Starts m t (m.beginResume t budget args)
  | call (hrange : t.index < m.threads.size) (f : Value) (args held : Values) : Starts m t (m.beginCall t f args held)

/-- The thread that the next step works for: a native function runs for it, or the innermost work is done for it. -/
def worker? (m : Machine) (s : Signal) : Option ThreadId := s.serves?.or (m.stack.head?.bind Activation.serves?)

/-- The thread `t` waits no longer for one that it resumed: the next step hands the outcome `s` of that to its work and
lets it run. -/
def TakesBack (m : Machine) (s : Signal) (t : ThreadId) : Prop :=
  s.serves? = none ∧ ∃ wrapped target acts, m.stack = .resumed t .running wrapped target :: acts ∧
    (m.step s).1.stack = acts ∧ ((m.step s).1.thread t).status = .running

/-- The threads `ts` are those with an active resume or call, the innermost first. -/
structure IsChain (m : Machine) (s : Signal) (root : ThreadId) (ts : List ThreadId) : Prop where
  nodup : ts.Nodup
  busy : ∀ u, m.isBusy u = true ↔ u ∈ ts
  outermost : ∀ t ∈ ts.getLast?, t = root
  resumed : ∀ i u v, ts[i]? = some u → ts[i + 1]? = some v → ∃ floor held wrapped,
    [.endResume u floor held, .resumed v .running wrapped u] <:+: m.stack
  waiting : ∀ u ∈ ts.tail, (m.thread u).status = .normal
  innermost : ∀ t ∈ ts.head?, (m.thread t).status = .running ∨ m.TakesBack s t
  worker : ∀ u ∈ m.worker? s, ts.head? = some u
  others : ∀ u, u ∉ ts → (m.thread u).status ∈ [.initial, .suspended, .endCall, .dead]

/-- The native function `id` resumes the thread `target` when it is called with `args`, as a function that wraps the
thread or not. -/
inductive ResumesWith (m : Machine) (id : NativeId) (target : ThreadId) : Bool → Values → Prop
  | resume {args : Values} (hbody : (m.native id).body = .coroutine .resume) :
      ResumesWith m id target false (.thread target :: args)
  | wrapped {args : Values} (hbody : (m.native id).body = .wrapped target) : ResumesWith m id target true args

/-- What a program gets when the machine refuses to resume a thread that is active. -/
def refusal (m : Machine) (t : ThreadId) (wrapped : Bool) : Signal :=
  let text := "cannot resume non-suspended coroutine"
  if wrapped then .error (.ofText ((m.thread t).position 1 ++ text)) else .values [.bool false, .str text]

theorem Starts.linked {r : Machine × Signal} (h : m.Starts t r) (hstack : m.stack = [])
    (hidle : ∀ u, (m.thread u).status.isActive = false) : r.1.Linked t r.2 := by
  cases h with
  | resume budget args => exact linked_resume hstack hidle t budget args
  | call hrange f args held => exact linked_call hstack hidle hrange f args held

/-- A machine that works for its active threads, with the chain that they form. -/
theorem AtWork.isChain (h : m.AtWork root t ts) (hs : ∀ u ∈ s.serves?, u = t) : m.IsChain s root (t :: ts) where
  nodup := h.nodup
  busy _ := h.isBusy_iff
  outermost u hu := by
    rw [h.chain.getLast?_eq] at hu
    exact (Option.some.inj hu).symm
  resumed _ _ _ := h.chain.exists_infix
  waiting := h.waiting
  innermost u hu := by
    cases hu
    exact Or.inl h.running
  worker u hu := by
    rw [List.head?_cons]
    obtain hserves | ⟨-, hserves⟩ := Option.or_eq_some_iff.mp hu
    · rw [hs u hserves]
    · obtain ⟨a, htop, hserves⟩ := Option.bind_eq_some_iff.mp hserves
      obtain ⟨acts, hstack⟩ := List.head?_eq_some_iff.mp htop
      have hchain := h.chain
      rw [hstack] at hchain
      rw [hchain.eq_of_serves? hserves]
  others u hu := Status.mem_of_isActive_eq_false (h.others u hu)

theorem Linked.exists_isChain (h : m.Linked root s) : ∃ ts, m.IsChain s root ts := by
  cases h with
  | working h hs => exact ⟨_, h.isChain hs⟩
  | @back t target ts wrapped acts hstack hchain hnodup hactive hwaiting hothers hs =>
    refine ⟨t :: ts, hnodup, fun u => ?_, fun u hu => ?_, fun i u v hu hv => ?_, hwaiting, fun u hu => Or.inr ?_,
      fun u hu => ?_, fun u hu => Status.mem_of_isActive_eq_false (hothers u hu)⟩
    · rw [hchain.mem_iff, isBusy, hstack]
      rfl
    · rw [hchain.getLast?_eq] at hu
      exact (Option.some.inj hu).symm
    · obtain ⟨floor, held, wrapped, hinfix⟩ := hchain.exists_infix hu hv
      rw [hstack]
      exact ⟨floor, held, wrapped, hinfix.trans (List.suffix_cons _ acts).isInfix⟩
    · cases hu
      obtain ⟨hatWork, hleft, -⟩ := step_of_back hstack hchain hnodup hactive hwaiting hothers hs
      exact ⟨hs, wrapped, target, acts, hstack, hleft, hatWork.running⟩
    · rw [worker?, hs, hstack] at hu
      exact hu
  | done hstack hidle hs =>
    refine ⟨[], List.nodup_nil, fun u => ?_, fun u hu => ?_, fun i u v hu => ?_, fun u hu => ?_, fun u hu => ?_,
      fun u hu => ?_, fun u _ => Status.mem_of_isActive_eq_false (hidle u)⟩
    · rw [isBusy, hstack, List.any_nil]
      simp
    · cases hu
    · rw [List.getElem?_nil] at hu
      cases hu
    · cases hu
    · cases hu
    · rw [worker?, hs, hstack] at hu
      cases hu

/-- The thread that a native function is about to run for is at work. -/
theorem Linked.exists_atWork {id : NativeId} {args : Values} (h : m.Linked root (.invoke u id args)) :
    ∃ ts, m.AtWork root u ts := by
  cases h with
  | working h hs =>
    obtain rfl := hs u rfl
    exact ⟨_, h⟩
  | back _ _ _ _ _ _ hs => cases hs
  | done _ _ hs => cases hs

/-- Work that was a thread's at one moment of a run is still its when it is in progress again, and the thread has the
same status. -/
theorem AtWork.status_eq (h : m.AtWork root u ts) (h' : m'.Linked root s) (hstack : m'.stack = m.stack) :
    (m'.thread u).status = (m.thread u).status := by
  have hchain := h.chain
  rw [h.running]
  cases h' with
  | working h' =>
    have hsame := h'.chain.unique (hstack ▸ hchain)
    rw [← (List.cons.inj hsame).1]
    exact h'.running
  | back hback =>
    rw [← hstack, hback] at hchain
    cases hchain with
    | work ha => cases ha
  | done hdone =>
    rw [← hstack, hdone] at hchain
    cases hchain

/-- A thread that keeps its status does not change when it is given back. -/
theorem thread_setStatus_of_eq {status : Status} (hstatus : (m.thread t).status = status) (v : ThreadId) :
    (m.setStatus t status).thread v = m.thread v := by
  obtain hsame | hchanged := m.thread_modifyThread_cases t (fun th => { th with status }) v
  · exact hsame
  · by_cases hvt : v = t
    · subst hvt
      refine hchanged.trans ?_
      rw [← hstatus]
    · exact m.thread_modifyThread_of_ne hvt _

/-- A native function that resumes another thread begins to do so. -/
theorem ResumesWith.step_eq {id : NativeId} {target : ThreadId} {wrapped : Bool} {args : Values}
    (h : m.ResumesWith id target wrapped args) (u : ThreadId) : ∃ passed, m.step (.invoke u id args) =
      ({ m with inUse := args } : Machine).beginResumeFrom u target wrapped passed := by
  unfold Machine.step Machine.invoke
  dsimp only
  cases h with
  | @resume args hbody =>
    rw [show (({ m with inUse := .thread target :: args } : Machine).native id).body = _ from hbody]
    exact ⟨args, rfl⟩
  | wrapped hbody =>
    rw [show (({ m with inUse := args } : Machine).native id).body = _ from hbody]
    exact ⟨args, rfl⟩

/-- To resume a thread of the chain is refused. That changes no thread. -/
theorem AtWork.refuses (h : m.AtWork root u ts) {id : NativeId} {target : ThreadId} {wrapped : Bool} {args : Values}
    (hresumes : m.ResumesWith id target wrapped args) (htarget : target ∈ u :: ts) :
    let r := m.step (.invoke u id args)
    r.2 = .error (.ofText "cannot resume non-suspended coroutine") ∧ (∀ v, r.1.thread v = m.thread v) ∧
      (r.1.step r.2).1.stack = m.stack ∧ (r.1.step r.2).2 = m.refusal u wrapped ∧
      ∀ v, (r.1.step r.2).1.thread v = m.thread v := by
  obtain ⟨passed, hstep⟩ := hresumes.step_eq u
  have hbusy : ({ m with inUse := args } : Machine).isBusy target = true := h.isBusy_iff.mpr htarget
  have hrefused : ({ m with inUse := args } : Machine).beginResumeFrom u target wrapped passed =
      (({ m with inUse := args } : Machine).push (.resumed u .running wrapped target),
        .error (.ofText "cannot resume non-suspended coroutine")) := by
    unfold Machine.beginResumeFrom
    rw [show (({ m with inUse := args } : Machine).thread u).status = .running from h.running]
    exact if_pos (Or.inr hbusy)
  have hsame (v : ThreadId) : (m.setStatus u .running).thread v = m.thread v := thread_setStatus_of_eq h.running v
  intro r
  rw [show r = _ from hstep.trans hrefused]
  refine ⟨rfl, fun _ => rfl, ?_⟩
  rw [step_cons rfl (by rintro _ _ _ ⟨⟩)]
  cases wrapped with
  | false => exact ⟨rfl, rfl, hsame⟩
  | true =>
    refine ⟨rfl, ?_, hsame⟩
    rw [refusal, if_pos rfl, ← hsame u]
    rfl

/-- In a machine at rest the host begins to resume or to call a thread. As long as no native function ticks a group or
ends the thread that runs it, the active threads are in one chain at every moment. What each of them waits for was
resumed by it, and only the innermost one runs. To resume one of them is refused and changes no thread. Whenever control
is back at the work that a native function was called for, the thread has the status that it had then, whether a thread
which it resumed meanwhile has yielded or returned, or met an error, a fatal one included. -/
theorem active_threads_chain {r : Machine × Signal} {k : Nat} (hstack : m.stack = [])
    (hidle : ∀ u, (m.thread u).status.isActive = false) (hstarts : m.Starts root r)
    (hupdates : ∀ i < k, (after i r).1.invokes Builtin.updatesGroup (after i r).2 = false)
    (hends : ∀ i < k, (after i r).1.invokes Builtin.endsThread (after i r).2 = false) :
    ∃ ts, (after k r).1.IsChain (after k r).2 root ts ∧
      (∀ u id target wrapped args, (after k r).2 = .invoke u id args → target ∈ ts →
        (after k r).1.ResumesWith id target wrapped args →
          (after (k + 1) r).2 = .error (.ofText "cannot resume non-suspended coroutine") ∧
          (∀ v, (after (k + 1) r).1.thread v = (after k r).1.thread v) ∧
          (after (k + 2) r).1.stack = (after k r).1.stack ∧ (after (k + 2) r).2 = (after k r).1.refusal u wrapped ∧
          ∀ v, (after (k + 2) r).1.thread v = (after k r).1.thread v) ∧
      ∀ i < k, ∀ u id args, (after i r).2 = .invoke u id args → (after k r).1.stack = (after i r).1.stack →
        ((after k r).1.thread u).status = ((after i r).1.thread u).status := by
  have hlinked (j : Nat) (hj : j ≤ k) : (after j r).1.Linked root (after j r).2 :=
    linked_after (hstarts.linked hstack hidle) (fun i hi => hends i (Nat.lt_of_lt_of_le hi hj))
      fun i hi => hupdates i (Nat.lt_of_lt_of_le hi hj)
  have hnow := hlinked k (Nat.le_refl k)
  obtain ⟨ts, hts⟩ := hnow.exists_isChain
  refine ⟨ts, hts, fun u id target wrapped args hinvoke htarget hresumes => ?_, fun i hi u id args hinvoke hback => ?_⟩
  · rw [hinvoke] at hnow
    obtain ⟨us, hatWork⟩ := hnow.exists_atWork
    rw [after_succ (k + 1), after_succ k, hinvoke]
    exact hatWork.refuses hresumes (hatWork.isBusy_iff.mp ((hts.busy target).mpr htarget))
  · have hthen := hlinked i (Nat.le_of_lt hi)
    rw [hinvoke] at hthen
    obtain ⟨us, hatWork⟩ := hthen.exists_atWork
    exact hatWork.status_eq hnow hback

/-- Two threads that resume each other. -/
def crossed : Machine :=
  let natives := #[⟨"coroutine.resume", .coroutine .resume⟩]
  let (m, t) := ({ Machine.new {} with natives } : Machine).newThread (.native ⟨0⟩) [.thread ⟨1⟩]
  (m.newThread (.native ⟨0⟩) [.thread t]).1

/-- The host resumes the second thread. It resumes the first one, which is refused to resume the second one. -/
theorem active_threads_chain_crossed :
    let begun := crossed.beginResume ⟨1⟩ none []
    crossed.stack = [] ∧ (∀ u, (crossed.thread u).status.isActive = false) ∧ crossed.Starts ⟨1⟩ begun ∧
      (∀ i < 1, (after i begun).1.invokes Builtin.updatesGroup (after i begun).2 = false) ∧
      (∀ i < 1, (after i begun).1.invokes Builtin.endsThread (after i begun).2 = false) ∧
      ∃ ts, (after 1 begun).1.IsChain (after 1 begun).2 ⟨1⟩ ts ∧ [⟨0⟩, ⟨1⟩] ⊆ ts ∧
        (after 3 begun).2 = .values [.bool false, .str "cannot resume non-suspended coroutine"] ∧
        ∀ v, (after 3 begun).1.thread v = (after 1 begun).1.thread v := by
  intro begun
  have hidle : ∀ u, (crossed.thread u).status.isActive = false := by
    rintro ⟨_ | _ | u⟩ <;> rfl
  have hstarts : crossed.Starts ⟨1⟩ begun := .resume none []
  have hupdates : ∀ i < 1, (after i begun).1.invokes Builtin.updatesGroup (after i begun).2 = false := by decide +kernel
  have hends : ∀ i < 1, (after i begun).1.invokes Builtin.endsThread (after i begun).2 = false := by decide +kernel
  have hinvoke : (after 1 begun).2 = .invoke ⟨0⟩ ⟨0⟩ [.thread ⟨1⟩] := by decide +kernel
  have hbody : ((after 1 begun).1.native ⟨0⟩).body = .coroutine .resume := by decide +kernel
  have hbusy : ∀ u ∈ [(⟨0⟩ : ThreadId), ⟨1⟩], (after 1 begun).1.isBusy u = true := by decide +kernel
  obtain ⟨ts, hts, hrefused, -⟩ := active_threads_chain rfl hidle hstarts hupdates hends
  have hmembers : [⟨0⟩, ⟨1⟩] ⊆ ts := fun u hu => (hts.busy u).mp (hbusy u hu)
  obtain ⟨-, -, -, hsignal, hsame⟩ :=
    hrefused ⟨0⟩ ⟨0⟩ ⟨1⟩ false _ hinvoke (hmembers (by decide)) (.resume hbody)
  exact ⟨rfl, hidle, hstarts, hupdates, hends, ts, hts, hmembers, hsignal, hsame⟩

/-- A thread that makes a protected call of the native function with which the host ends it. -/
def ending : Machine :=
  let natives := #[⟨"pcall", .base .pcall⟩, ⟨"destroy", .host .destroy⟩]
  (({ Machine.new {} with natives } : Machine).newThread (.native ⟨0⟩) [.native ⟨1⟩]).1

/-- No group is updated, but the thread that the host resumes is dead before the resume is over. -/
theorem ended_thread_breaks_chain :
    let begun := ending.beginResume ⟨0⟩ none []
    ending.stack = [] ∧ (∀ u, (ending.thread u).status.isActive = false) ∧ ending.Starts ⟨0⟩ begun ∧
      (∀ i < 2, (after i begun).1.invokes Builtin.updatesGroup (after i begun).2 = false) ∧
      (after 2 begun).1.isBusy ⟨0⟩ = true ∧ ((after 2 begun).1.thread ⟨0⟩).status = .dead ∧
      ¬ ∃ ts, (after 2 begun).1.IsChain (after 2 begun).2 ⟨0⟩ ts := by
  intro begun
  have hidle : ∀ u, (ending.thread u).status.isActive = false := by
    rintro ⟨_ | u⟩ <;> rfl
  have hupdates : ∀ i < 2, (after i begun).1.invokes Builtin.updatesGroup (after i begun).2 = false := by decide +kernel
  have hbusy : (after 2 begun).1.isBusy ⟨0⟩ = true := by decide +kernel
  have hdead : ((after 2 begun).1.thread ⟨0⟩).status = .dead := by decide +kernel
  refine ⟨rfl, hidle, .resume none [], hupdates, hbusy, hdead, ?_⟩
  rintro ⟨ts, hts⟩
  have hmem := (hts.busy ⟨0⟩).mp hbusy
  have htop : (after 2 begun).1.stack.head?.bind Activation.thread? = some ⟨0⟩ := by decide +kernel
  clear_value begun
  cases ts with
  | nil => cases hmem
  | cons t ts =>
    obtain rfl | hmem := List.mem_cons.mp hmem
    · obtain hrunning | ⟨-, wrapped, target, acts, hstack, -⟩ := hts.innermost _ rfl
      · rw [hdead] at hrunning
        cases hrunning
      · rw [hstack] at htop
        cases htop
    · have hwaiting := hts.waiting _ hmem
      rw [hdead] at hwaiting
      cases hwaiting

end Runs

end Machine

end LuaMachine
