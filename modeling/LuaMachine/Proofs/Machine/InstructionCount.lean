import LuaMachine.Proofs.Machine.ActiveChainSteps

namespace LuaMachine

/-- Work that leaves the thread `c` active when it ends, if the thread was active when the work began. -/
def Activation.LeavesActive (c : ThreadId) : Activation → Prop
  | .endCall u _ previous _ => u = c → previous = none
  | .endResume u .. => u ≠ c
  | .resumed u previous .. => u = c → previous.isActive = true
  | _ => True

namespace Machine

variable {limits : Limits} {below rest acts : List Activation} {c t u : ThreadId} {k : Nat} {m m' : Machine}
  {a : Activation} {i : Interpreter} {w : Window} {s : Signal} {r : Machine × Signal}

/-- The thread `c` is being resumed above the work `below`. It is active and has counted at least `k` instructions. -/
structure Counting (limits : Limits) (below : List Activation) (c : ThreadId) (k : Nat) (m : Machine) : Prop where
  above : ∃ acts floor held, m.stack = acts ++ .endResume c floor held :: below ∧ ∀ a ∈ acts, a.LeavesActive c
  active : (m.thread c).status.isActive = true
  count : k ≤ (m.thread c).instructions
  limits : m.limits = limits

namespace Counting

section Changes

variable (h : Counting limits below c k m)
include h

theorem range : c.index < m.threads.size :=
  index_lt_of_status fun hdead => by
    have hactive := h.active
    rw [hdead] at hactive
    cases hactive

theorem steady (hsteady : m.Steady m') : Counting limits below c k m' := by
  obtain ⟨acts, floor, held, hstack, hacts⟩ := h.above
  exact ⟨⟨acts, floor, held, hsteady.stack.trans hstack, hacts⟩, by rw [hsteady.active c h.active, h.active],
    Nat.le_trans h.count (hsteady.count c h.active), hsteady.limits.trans h.limits⟩

theorem of_eq (hthreads : m'.threads = m.threads) (hstack : m'.stack = m.stack) (hlimits : m'.limits = m.limits) :
    Counting limits below c k m' :=
  h.steady (.of_eq hthreads hstack hlimits)

/-- Another thread changes. -/
theorem others (hu : u ≠ c) (hconfined : m.Confined m' u) : Counting limits below c k m' := by
  obtain ⟨acts, floor, held, hstack, hacts⟩ := h.above
  have hsame := hconfined.others c hu.symm
  exact ⟨⟨acts, floor, held, hconfined.stack.trans hstack, hacts⟩, by rw [hsame, h.active],
    by rw [hsame]; exact h.count, hconfined.limits.trans h.limits⟩

/-- All that the thread has counted counts. -/
theorem recount : Counting limits below c (m.thread c).instructions m := ⟨h.above, h.active, Nat.le_refl _, h.limits⟩

theorem push (ha : a.LeavesActive c) : Counting limits below c k (m.push a) := by
  obtain ⟨acts, floor, held, hstack, hacts⟩ := h.above
  refine ⟨⟨a :: acts, floor, held, ?_, List.forall_mem_cons.mpr ⟨ha, hacts⟩⟩, h.active, h.count, h.limits⟩
  rw [Machine.push, hstack]
  rfl

/-- The innermost work is taken from the stack, and it is not the end of the resume. -/
theorem pop (hstack : m.stack = a :: rest) (habove : below.length < rest.length) :
    Counting limits below c k { m with stack := rest } ∧ a.LeavesActive c := by
  obtain ⟨acts, floor, held, hacts, hleaves⟩ := h.above
  rw [hstack] at hacts
  cases acts with
  | nil =>
    obtain ⟨-, rfl⟩ := List.cons.inj hacts
    exact absurd habove (Nat.lt_irrefl _)
  | cons b acts =>
    obtain ⟨rfl, hrest⟩ := List.cons.inj hacts
    obtain ⟨ha, hleaves⟩ := List.forall_mem_cons.mp hleaves
    exact ⟨⟨⟨acts, floor, held, hrest, hleaves⟩, h.active, h.count, h.limits⟩, ha⟩

theorem setStatus {status : Status} (hstatus : t = c → status.isActive = true) :
    Counting limits below c k (m.setStatus t status) := by
  by_cases htc : t = c
  · subst htc
    obtain ⟨acts, floor, held, hstack, hacts⟩ := h.above
    have hset : ((m.setStatus t status).thread t) = { m.thread t with status } := thread_modifyThread h.range _
    exact ⟨⟨acts, floor, held, hstack, hacts⟩, by rw [hset]; exact hstatus rfl, by rw [hset]; exact h.count, h.limits⟩
  · exact h.others htc (m.confined_modifyThread t _)

theorem isBusy : m.isBusy c = true := by
  obtain ⟨acts, floor, held, hstack, -⟩ := h.above
  rw [Machine.isBusy, hstack]
  exact List.any_eq_true.mpr ⟨_, List.mem_append_right acts List.mem_cons_self, beq_iff_eq.mpr rfl⟩

/-- A thread that nobody is in the middle of a resume or call of ends. -/
theorem destroyFree (hfree : ¬m.isBusy u = true) : Counting limits below c k (m.destroyThread u) :=
  h.others (by rintro rfl; exact hfree h.isBusy) (m.confined_destroyThread u)

end Changes

section Beginnings

theorem interpret (h : Counting limits below c k m) (i : Interpreter) :
    Counting limits below c k (m.push (.interpret i)) := h.push trivial

theorem beginCall (h : Counting limits below c k m) (t : ThreadId) (f : Value) (args held : Values) :
    Counting limits below c k (m.beginCall t f args held).1 := by
  unfold Machine.beginCall
  extract_lets th idle previous begun floor pushed
  have hidle (htc : t = c) : idle = false := by
    simp only [idle, th]
    rw [htc, h.active]
    rfl
  have hbegun : Counting limits below c k begun := by
    by_cases htc : t = c
    · refine h.steady (.modifyThread m t fun th => ?_)
      rw [hidle htc]
      exact ⟨rfl, rfl⟩
    · exact h.others htc (m.confined_modifyThread t _)
  have hcalled (floor : Option Nat) (held : Values) :
      Counting limits below c k (begun.push (.endCall t floor previous held)) := by
    refine hbegun.push fun htc => ?_
    simp only [previous]
    rw [hidle htc]
    rfl
  split
  · exact h
  · split
    · exact h
    · rename_i callee args' _
      cases callee with
      | native id => exact hcalled none _
      | closure id =>
        have hpushed := (hcalled (some floor) (f :: held)).steady (pushed.steady_pushFrame t id args' .host)
        dsimp only
        split
        · rename_i heq
          rw [heq] at hpushed
          exact hpushed.interpret _
        · exact hpushed

theorem callHandler (h : Counting limits below c k m) (t : ThreadId) (handler : Handler) (held : Values) :
    Counting limits below c k (m.callHandler t handler held).1 :=
  (h.push (a := .read handler.reading) trivial).beginCall t _ _ _

theorem attempt (h : Counting limits below c k m) (t : ThreadId) (a : Attempt) (held : Values) :
    Counting limits below c k (m.attempt t a held).1 := by
  cases a with
  | done | fail => exact h
  | handler handler => exact h.callHandler t handler held

theorem continueJoin (h : Counting limits below c k m) (t : ThreadId) (reversed held : Values) :
    Counting limits below c k (m.continueJoin t reversed held).1 := by
  unfold Machine.continueJoin
  split
  · exact h
  · exact h
  · exact (h.push (a := .concat t _ held) trivial).callHandler t _ _

theorem continuePrint (h : Counting limits below c k m) (t : ThreadId) (args : Values) (shown : List String)
    (rest : Values) : Counting limits below c k (m.continuePrint t args shown rest).1 := by
  induction rest generalizing shown with
  | nil => exact h.of_eq rfl rfl rfl
  | cons v rest ih =>
    unfold Machine.continuePrint
    split
    · exact (h.push (a := .print t shown args) trivial).callHandler t _ _
    · exact h
    · exact ih _

theorem beginStart (h : Counting limits below c k m) (t : ThreadId) (limit : Option Nat) (f : Value) (args : Values) :
    Counting limits below c k (m.beginStart t limit f args).1 := by
  unfold Machine.beginStart
  split
  · exact h
  · rename_i id args' _
    have hpushed := h.steady (m.steady_pushFrame t id args' .host)
    split
    · rename_i heq
      rw [heq] at hpushed
      exact hpushed.interpret _
    · exact hpushed
  · exact h.push trivial

/-- A thread goes on, `c` or another one, with the end of its resume on the stack. -/
theorem beginResumed {floor : Nat} (h : ∀ held, Counting limits below c k (m.push (.endResume t floor held)))
    (limit : Option Nat) (args : Values) : Counting limits below c k (m.beginResumed t floor limit args).1 := by
  unfold Machine.beginResumed
  dsimp only
  split
  · exact ((h []).steady (.modifyThread _ t (by intro; exact ⟨rfl, rfl⟩))).beginStart t limit _ _
  · split
    · exact (h []).steady (.modifyThread _ t (by intro; exact ⟨rfl, rfl⟩))
    · split
      · exact h []
      · split
        · exact (h args).interpret _
        · have hcompleted := (h []).steady (steady_completePending _ t args 0)
          split
          · rename_i heq
            rw [heq] at hcompleted
            exact hcompleted.interpret _
          · exact hcompleted

/-- The thread `c` cannot be resumed again, so that another one is, if any. -/
theorem beginResume (h : Counting limits below c k m) (t : ThreadId) (budget : Option Nat) (args : Values) :
    Counting limits below c k (m.beginResume t budget args).1 := by
  unfold Machine.beginResume
  dsimp only
  split
  · exact h.steady (.modifyThread m t (by intro; exact ⟨rfl, rfl⟩))
  · split
    · exact h
    · rename_i hidle
      split
      · exact h
      · have htc : t ≠ c := by
          rintro rfl
          exact hidle h.active
        exact beginResumed (fun held => (h.others htc (m.confined_modifyThread t _)).push htc) _ args

theorem beginResumeFrom (h : Counting limits below c k m) (t target : ThreadId) (wrapped : Bool) (args : Values) :
    Counting limits below c k (m.beginResumeFrom t target wrapped args).1 := by
  have hpushed : Counting limits below c k (m.push (.resumed t (m.thread t).status wrapped target)) := by
    refine h.push fun htc => ?_
    rw [htc]
    exact h.active
  unfold Machine.beginResumeFrom
  dsimp only
  split
  · exact hpushed
  · exact (hpushed.setStatus fun _ => rfl).beginResume target none args

/-- A resume that is not refused begins to count. -/
theorem of_beginResume {budget : Option Nat} {args : Values} (hbegun : m.beginResume c budget args = r)
    (hworks : r.1.isWorkingAbove m.stack r.2 = true) : Counting m.limits m.stack c 0 r.1 := by
  have hnot {m' : Machine} {s : Signal} (hr : (m', s) = r) (hstack : m'.stack = m.stack)
      (hinvoke : ∀ u id args, s ≠ .invoke u id args) : False := by
    rw [← hr, isWorkingAbove_eq_false hstack hinvoke] at hworks
    cases hworks
  unfold Machine.beginResume at hbegun
  dsimp only at hbegun
  split at hbegun
  · exact (hnot hbegun rfl (by rintro _ _ _ ⟨⟩)).elim
  · split at hbegun
    · exact (hnot hbegun rfl (by rintro _ _ _ ⟨⟩)).elim
    · split at hbegun
      · exact (hnot hbegun rfl (by rintro _ _ _ ⟨⟩)).elim
      · rename_i hresumable
        rw [Bool.not_eq_true', Bool.not_eq_false] at hresumable
        let begun := m.modifyThread c fun th => { th with status := .running, instructions := 0 }
        have hactive := congrArg Status.isActive (running_of_isResumable hresumable)
        have hpushed (held : Values) :
            Counting m.limits m.stack c 0 (begun.push (.endResume c (m.thread c).depth held)) :=
          ⟨⟨[], _, held, rfl, fun a ha => nomatch ha⟩, hactive, Nat.zero_le _, rfl⟩
        rw [← hbegun]
        exact beginResumed hpushed _ args

end Beginnings

section Groups

variable (h : Counting limits below c k m)
include h

theorem destroyGroup (g : GroupId) : Counting limits below c k (m.destroyGroup g) := by
  have hemptied : Counting limits below c k
      (m.modifyGroup g fun group => { group with destroyed := true, threads := [] }) := h.of_eq rfl rfl rfl
  refine List.foldlRecOn (motive := fun m : Machine => Counting limits below c k m) _ _ hemptied fun m h u _ => ?_
  split
  · exact h
  · rename_i hfree
    exact h.destroyFree hfree

theorem addToGroup (g : GroupId) (u : ThreadId) : Counting limits below c k (m.addToGroup g u) := by
  unfold Machine.addToGroup
  split
  · split
    · exact h
    · rename_i hfree
      exact h.destroyFree hfree
  · exact h.of_eq rfl rfl rfl

theorem continueTicks (g : GroupId) (members rest : List ThreadId) :
    Counting limits below c k (m.continueTicks g members rest).1 := by
  induction rest with
  | nil => exact h.of_eq rfl rfl rfl
  | cons t rest ih =>
    unfold Machine.continueTicks
    split
    · exact ih
    · exact (h.push (a := .tick g members t rest) trivial).beginResume t _ _

theorem beginUpdate (g : GroupId) : Counting limits below c k (m.beginUpdate g).1 := by
  unfold Machine.beginUpdate
  dsimp only
  split
  · exact h
  · exact h.continueTicks g _ _

theorem continueUpdates (groups : List GroupId) : Counting limits below c k (m.continueUpdates groups).1 := by
  cases groups with
  | nil => exact h
  | cons g rest => exact (h.push (a := .updateGroups rest) trivial).beginUpdate g

theorem stepTick (g : GroupId) (members : List ThreadId) (t : ThreadId) (rest : List ThreadId) (s : Signal) :
    Counting limits below c k (m.stepTick g members t rest s).1 := by
  have hgoesOn {n : Machine} (hn : Counting limits below c k n) : Counting limits below c k
      (if (n.group g).destroyed then (n, Signal.values []) else n.continueTicks g members rest).1 := by
    split
    · exact hn
    · exact hn.continueTicks g members rest
  unfold Machine.stepTick
  cases s with
  | error e =>
    have hnoted : Counting limits below c k { m with reports := ⟨g, (m.thread t).number, e⟩ :: m.reports } :=
      h.of_eq rfl rfl rfl
    refine hgoesOn ?_
    dsimp only
    split
    · rename_i hfree
      exact hnoted.destroyFree fun hbusy => by simp [hbusy] at hfree
    · exact hnoted
  | go | invoke | values | yielded | frameLimit | sleeping => exact hgoesOn h

end Groups

section Natives

/-- What a native function does leaves the resume of `c` in progress, and its count is not taken back. -/
def Keeps (limits : Limits) (below : List Activation) (c : ThreadId) (k : Nat) (effect : Effect) : Prop :=
  ∀ m : Machine, Counting limits below c k m → Counting limits below c k (effect m).1

theorem keeps_baseEffect {args : Values} {effect : Effect} (heffect : BaseEffect t args effect) :
    Keeps limits below c k effect := by
  intro m h
  cases heffect with
  | answer => exact h
  | iterate | store | install => exact h.of_eq rfl rfl rfl
  | protect f => exact (h.push (a := .protect) trivial).beginCall t _ _ _
  | convert v => exact h.attempt t _ args
  | print => exact h.continuePrint t args [] args

theorem checked_keeps_coroutine (m : Machine) (t : ThreadId) (f : CoroutineFunction) (args : Values) :
    Checked (Keeps limits below c k) (m.coroutine t f args) := by
  cases f with
  | create =>
    refine (m.checked_requireFunction t args _).bind fun f _ m h => ?_
    exact h.steady (m.steady_newThread f [])
  | resume =>
    refine (m.checked_requireThread t args 1 _).bind fun target _ m h => ?_
    exact h.beginResumeFrom t target false _
  | yield => exact fun m h => h.steady (m.steady_yieldNow t args)
  | status =>
    refine (m.checked_requireThread t args 1 _).bind fun target _ m h => ?_
    exact h
  | wrap =>
    refine (m.checked_requireFunction t args _).bind fun f _ m h => ?_
    exact (h.steady (m.steady_newThread f [])).of_eq rfl rfl rfl
  | running => exact fun m h => h
  | wait =>
    refine (m.checked_optionalInteger t args 1 _ 1).bind fun ticks _ m h => ?_
    have hyielded := h.steady (m.steady_yieldNow t [])
    dsimp only
    split
    · rename_i heq
      rw [heq] at hyielded
      exact hyielded.steady (.modifyThread _ t (by intro; exact ⟨rfl, rfl⟩))
    · exact hyielded

theorem keeps_hostOperation {op : HostOperation} (hop : t = c → op ≠ .destroy) (args : Values) :
    Keeps limits below c k fun m => m.hostOperation t op args := by
  intro m h
  cases op with
  | echo | nothing | count | fail | failAt | failFatal | escapeYield | traceback | position | depth | threadNumber
  | status | references => exact h
  | sleep => exact h.steady (.modifyThread m t (by intro; exact ⟨rfl, rfl⟩))
  | yield => exact h.steady (m.steady_yieldNow t args)
  | call => exact h.beginCall t _ _ []
  | destroy => exact h.others (fun htc => hop htc rfl) (m.confined_destroyThread t)
  | jump =>
    unfold hostOperation jumpThread
    dsimp only
    split
    · rename_i heq
      split at heq
      · cases heq
      · rename_i hidle
        cases heq
        refine h.others ?_ ((m.confined_unwind t 0).trans (confined_modifyThread _ t _))
        rintro rfl
        exact hidle h.active
    · exact h
  | resume => exact (h.push (a := .forget) trivial).beginResume t none args
  | index | equal | lessThan | lessEqual | length | tostring => exact h.attempt t _ args
  | setIndex =>
    have hset := (Retains.refl m t).setIndex (Values.arg args 0) (Values.arg args 1) (Values.arg args 2)
    exact (h.steady hset.steady).attempt t _ args
  | arith =>
    unfold hostOperation
    dsimp only
    split
    · split
      · exact h.attempt t _ args
      · exact h
    · exact h
  | concat => exact h.continueJoin t args.reverse []
  | metamethod =>
    unfold hostOperation
    dsimp only
    split <;> exact h

theorem keeps_groupAction (g : GroupId) (action : GroupAction) (args : Values) :
    Keeps limits below c k fun m => m.groupAction g action args := by
  intro m h
  cases action with
  | update => exact (h.push (a := .groupSize g args) trivial).beginUpdate g
  | suspend | resume => exact h.of_eq rfl rfl rfl
  | destroy => exact h.destroyGroup g

theorem checked_keeps_effect (m : Machine) {body : Builtin} (hends : t = c → body.endsThread = false) (args : Values) :
    Checked (Keeps limits below c k) (m.effect t body args) := by
  cases body with
  | base f => exact (checked_base m t f args).imp fun _ => keeps_baseEffect
  | coroutine f => exact checked_keeps_coroutine m t f args
  | wrapped target => exact fun m h => h.beginResumeFrom t target true args
  | spawn name =>
    refine (m.checked_requireArg t args 1 name).bind fun f _ m h => ?_
    exact (h.steady (m.steady_newThread f _)).addToGroup _ _
  | host op =>
    refine keeps_hostOperation (fun htc hop => ?_) args
    have hnot := hends htc
    rw [hop] at hnot
    cases hnot
  | group g action => exact keeps_groupAction g action args

/-- A native function that does not end `c` runs. -/
theorem invoke (h : Counting limits below c k m) {id : NativeId}
    (hends : t = c → (m.native id).body.endsThread = false) (args : Values) :
    Counting limits below c k (m.invoke t id args).1 := by
  have hheld : Counting limits below c k ({ m with inUse := args } : Machine) := h.of_eq rfl rfl rfl
  have hchecked : Checked (Keeps limits below c k) (({ m with inUse := args } : Machine).effect t
      (({ m with inUse := args } : Machine).native id).body args) := checked_keeps_effect _ hends args
  unfold Machine.invoke
  dsimp only
  split
  · rename_i effect heq
    rw [heq] at hchecked
    exact hchecked _ hheld
  · exact hheld

end Natives

section Interpreters

/-- The thread counts an instruction. -/
theorem counts (h : Counting limits below c k m) {f : Thread → Thread}
    (hf : ∀ th : Thread, (f th).status = th.status ∧ (f th).instructions = th.instructions + 1) :
    Counting limits below c (k + 1) (m.modifyThread c f) := by
  have hthread := thread_modifyThread h.range f
  obtain ⟨hstatus, hcounted⟩ := hf (m.thread c)
  exact ⟨h.above, by rw [hthread, hstatus, h.active], by rw [hthread, hcounted]; exact Nat.succ_le_succ h.count,
    h.limits⟩

/-- An instruction of `c` is counted, whether it runs or is refused. -/
theorem execute (h : Counting limits below i.thread k m) (w : Window) :
    Counting limits below i.thread (k + 1) (m.execute i w).1 := by
  have hcounted : Counting limits below i.thread (k + 1) (m.modifyThread i.thread (·.counted)) :=
    h.counts fun _ => ⟨rfl, rfl⟩
  have hmoved (pc : Nat) : Counting limits below i.thread (k + 1) (m.modifyThread i.thread (·.movedTo pc)) :=
    h.counts (by rintro ⟨number, status, _ | ⟨top, rest⟩⟩ <;> exact ⟨rfl, rfl⟩)
  have hfetch : Counting limits below i.thread (k + 1) (m.fetch i w).1 := by
    unfold fetch
    split
    · exact hcounted
    · split
      · exact hcounted
      · dsimp only
        split
        · exact hmoved _
        · exact (hmoved _).steady ((Retains.refl _ _).ends_perform _ _ _).steady
  unfold Machine.execute
  dsimp only
  split
  · split
    · exact hcounted
    · exact hfetch
  · exact hfetch

/-- The interpreter `j` on the stack makes way for another one, or for none. -/
theorem popTop {j : Interpreter} (h : Counting limits below c k m) (hstack : m.stack = .interpret j :: rest)
    (habove : below.length < rest.length) : Counting limits below c k m.pop :=
  (h.pop hstack habove).1.of_eq rfl (by rw [Machine.pop, hstack, List.tail_cons]) rfl

theorem conclude {j : Interpreter} (h : Counting limits below c k m) (hstack : m.stack = .interpret j :: rest)
    (habove : below.length < rest.length) (i : Interpreter) (w : Window) (e : Ending) :
    Counting limits below c k (m.conclude i w e).1 := by
  have hpopped := h.popTop hstack habove
  have hreplaced (stage : Stage) : Counting limits below c k (m.replaceTop (.interpret { i with stage })) :=
    hpopped.interpret _
  cases e with
  | goOn | enter => exact hreplaced _
  | handle handler sequel => exact (hreplaced _).callHandler i.thread handler []
  | join reversed sequel => exact (hreplaced _).continueJoin i.thread reversed []
  | invoke => exact hreplaced _
  | stop s => cases s <;> exact hpopped

/-- An interpreter takes a signal. -/
theorem interprets (h : Counting limits below c k m) (hstack : m.stack = .interpret i :: rest)
    (habove : below.length < rest.length) (s : Signal) : Counting limits below c k (m.interpret i s).1 := by
  have hended {m m' : Machine} {j : Interpreter} {e : Ending} (h : Counting limits below c k m)
      (hstack : m.stack = .interpret j :: rest) (hends : m.Ends i m' e) (w : Window) :
      Counting limits below c k (m'.conclude i w e).1 :=
    (h.steady hends.steady).conclude (hends.confined.stack.trans hstack) habove i w e
  have hpopped := h.popTop hstack habove
  unfold Machine.interpret
  split
  · unfold enter
    split
    · exact hpopped
    · rename_i top _
      let j : Interpreter := { i with stage := .running ⟨top.closure, top.file, top.pc⟩ }
      have hreplaced : Counting limits below c k (m.replaceTop (.interpret j)) := hpopped.interpret j
      have hstack : (m.replaceTop (.interpret j)).stack = .interpret j :: rest := by
        rw [replaceTop, hstack]
        rfl
      exact hended hreplaced hstack (ends_execute _ i _) _
  · exact hended h hstack (ends_execute m i _) _
  · exact hended h hstack (ends_settle m i _ _ _) _
  · exact hended h hstack (ends_interrupted m i _ _) _
  · exact hpopped

end Interpreters

section Steps

/-- Work above the resume takes a signal. -/
theorem resumeWork (h : Counting limits below c k m) (hstack : m.stack = a :: rest)
    (habove : below.length < rest.length) (s : Signal) : Counting limits below c k (m.resumeWork a rest s).1 := by
  obtain ⟨hpopped, ha⟩ := h.pop hstack habove
  cases a with
  | interpret i => exact h.interprets hstack habove s
  | endCall u floor previous held =>
    by_cases huc : u = c
    · rw [show previous = none from ha huc]
      exact hpopped.steady (steady_stepEndCall _ u floor s)
    · exact hpopped.others huc (confined_stepEndCall _ u floor previous s)
  | startedNative u held => exact hpopped.steady (steady_stepStartedNative _ u s)
  | endResume u floor held => exact hpopped.others ha (confined_stepEndResume _ u floor s)
  | protect => exact hpopped
  | resumed u previous wrapped target =>
    show Counting limits below c k (Machine.stepResumed _ u previous wrapped s).1
    rw [(stepResumed_eq _ u previous wrapped s).1]
    exact hpopped.setStatus ha
  | tick g members u todo => exact hpopped.stepTick g members u todo s
  | updateGroups groups =>
    cases s with
    | values vs => exact hpopped.continueUpdates groups
    | go | invoke | yielded | frameLimit | sleeping | error => exact hpopped
  | concat u left held =>
    cases s with
    | values vs => exact hpopped.continueJoin u _ held
    | go | invoke | yielded | frameLimit | sleeping | error => exact hpopped
  | print u shown args =>
    cases s with
    | values vs =>
      show Counting limits below c k (Machine.stepPrint _ _ _ _ _).1
      unfold Machine.stepPrint
      split
      · exact hpopped.continuePrint u args _ _
      · exact hpopped
    | go | invoke | yielded | frameLimit | sleeping | error => exact hpopped
  | forget | read | groupSize => cases s <;> exact hpopped

end Steps

end Counting

end Machine

end LuaMachine
