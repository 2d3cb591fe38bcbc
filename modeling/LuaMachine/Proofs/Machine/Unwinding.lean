import LuaMachine.Proofs.Machine.Neutrality

namespace LuaMachine.Machine

variable {m m' n : Machine} {base : List Activation} {s s' : Signal} {t : ThreadId} {fuel : Nat}

section Beginnings

theorem suffix_of_eq (h : m'.stack = m.stack) : m.stack <:+ m'.stack := ⟨[], h.symm⟩

theorem suffix_push (m : Machine) (a : Activation) : m.stack <:+ (m.push a).stack := List.suffix_cons a m.stack

theorem stack_pushFrame (m : Machine) (t : ThreadId) (id : ClosureId) (args : Values) (target : ReturnTarget) :
    (m.pushFrame t id args target).1.stack = m.stack := by
  cases hpushed : m.pushFrame t id args target with | mk m' s =>
  obtain ⟨-, hconfined, -⟩ | ⟨-, hretains, -⟩ := (Retains.refl m t).pushFrame hpushed
  · exact hconfined.stack
  · exact hretains.stack

variable (m) (t)

theorem suffix_beginCall (f : Value) (args held : Values) : m.stack <:+ (m.beginCall t f args held).1.stack := by
  unfold beginCall
  extract_lets th idle previous begun floor pushed
  split
  · exact List.suffix_refl _
  · split
    · exact List.suffix_refl _
    · rename_i callee args' _
      cases callee with
      | native id => exact begun.suffix_push _
      | closure id =>
        have hpushed : m.stack <:+ (pushed.pushFrame t id args' .host).1.stack :=
          (begun.suffix_push _).trans (suffix_of_eq (stack_pushFrame ..))
        dsimp only
        split
        · rename_i heq
          rw [heq] at hpushed
          exact hpushed.trans (suffix_push _ _)
        · exact hpushed

theorem suffix_callHandler (h : Handler) (held : Values) : m.stack <:+ (m.callHandler t h held).1.stack :=
  (m.suffix_push _).trans (suffix_beginCall _ t _ _ _)

theorem suffix_attempt (a : Attempt) (held : Values) : m.stack <:+ (m.attempt t a held).1.stack := by
  cases a with
  | done | fail => exact List.suffix_refl _
  | handler h => exact m.suffix_callHandler t h held

theorem suffix_continueJoin (reversed held : Values) : m.stack <:+ (m.continueJoin t reversed held).1.stack := by
  unfold continueJoin
  split
  · exact List.suffix_refl _
  · exact List.suffix_refl _
  · exact (m.suffix_push _).trans (suffix_callHandler _ t _ held)

theorem suffix_continuePrint (args : Values) (shown : List String) (rest : Values) :
    m.stack <:+ (m.continuePrint t args shown rest).1.stack := by
  induction rest generalizing shown with
  | nil => exact List.suffix_refl _
  | cons v rest ih =>
    unfold continuePrint
    split
    · exact (m.suffix_push _).trans (suffix_callHandler _ t _ [])
    · exact List.suffix_refl _
    · exact ih _

theorem stack_yieldNow (vs : Values) : (m.yieldNow t vs).1.stack = m.stack := by
  unfold yieldNow
  dsimp only
  split
  · rfl
  · split <;> rfl

theorem suffix_beginStart (limit : Option Nat) (f : Value) (args : Values) :
    m.stack <:+ (m.beginStart t limit f args).1.stack := by
  unfold beginStart
  split
  · exact List.suffix_refl _
  · rename_i id args' _
    have hpushed : m.stack <:+ (m.pushFrame t id args' .host).1.stack := suffix_of_eq (stack_pushFrame ..)
    split
    · rename_i heq
      rw [heq] at hpushed
      exact hpushed.trans (suffix_push _ _)
    · exact hpushed
  · exact m.suffix_push _

/-- A thread that is resumed has the end of the resume below all its work. -/
theorem suffix_beginResumed (floor : Nat) (limit : Option Nat) (args : Values) :
    ∃ held, .endResume t floor held :: m.stack <:+ (m.beginResumed t floor limit args).1.stack := by
  unfold beginResumed
  dsimp only
  split
  · exact ⟨[], suffix_beginStart ((m.push (.endResume t floor [])).modifyThread t _) t limit _ _⟩
  · split
    · exact ⟨[], List.suffix_refl _⟩
    · split
      · exact ⟨[], List.suffix_refl _⟩
      · split
        · exact ⟨args, suffix_push (m.push (.endResume t floor args)) _⟩
        · refine ⟨[], ?_⟩
          have hcompleted : .endResume t floor [] :: m.stack <:+
              ((m.push (.endResume t floor [])).completePending t args 0).1.stack :=
            suffix_of_eq (confined_completePending (m.push (.endResume t floor [])) t args 0).stack
          split
          · rename_i heq
            rw [heq] at hcompleted
            exact hcompleted.trans (suffix_push _ _)
          · exact hcompleted

/-- A resume is slept through, refused, or begins above its end. -/
theorem beginResume_cases (budget : Option Nat) (args : Values) :
    (m.beginResume t budget args).2 = .sleeping ∧ (m.beginResume t budget args).1.stack = m.stack ∨
      (∃ e, m.beginResume t budget args = (m, .error e)) ∨
      ∃ held, .endResume t (m.thread t).depth held :: m.stack <:+ (m.beginResume t budget args).1.stack := by
  unfold beginResume
  dsimp only
  split
  · exact Or.inl ⟨rfl, rfl⟩
  · split
    · exact Or.inr (Or.inl ⟨_, rfl⟩)
    · split
      · exact Or.inr (Or.inl ⟨_, rfl⟩)
      · exact Or.inr (Or.inr (suffix_beginResumed (m.modifyThread t _) t (m.thread t).depth _ args))

theorem suffix_beginResume (budget : Option Nat) (args : Values) :
    m.stack <:+ (m.beginResume t budget args).1.stack := by
  obtain ⟨-, hsame⟩ | ⟨e, hrefused⟩ | ⟨held, hends⟩ := m.beginResume_cases t budget args
  · exact suffix_of_eq hsame
  · exact suffix_of_eq (congrArg (fun r => r.1.stack) hrefused)
  · exact (List.suffix_cons _ _).trans hends

theorem suffix_beginResumeFrom (target : ThreadId) (wrapped : Bool) (args : Values) :
    m.stack <:+ (m.beginResumeFrom t target wrapped args).1.stack := by
  unfold beginResumeFrom
  dsimp only
  split
  · exact m.suffix_push _
  · exact (m.suffix_push _).trans (suffix_beginResume ((m.push _).setStatus t .normal) target none args)

end Beginnings

section Groups

variable (m)

theorem stack_destroyGroup (g : GroupId) : (m.destroyGroup g).stack = m.stack := by
  have hended (threads : List ThreadId) (n : Machine) :
      (threads.foldl (fun n t => if n.isBusy t then n else n.destroyThread t) n).stack = n.stack := by
    induction threads generalizing n with
    | nil => rfl
    | cons t threads ih =>
      rw [List.foldl_cons, ih]
      split
      · rfl
      · exact (n.confined_destroyThread t).stack
  exact hended _ _

theorem stack_addToGroup (g : GroupId) (t : ThreadId) : (m.addToGroup g t).stack = m.stack := by
  unfold addToGroup
  split
  · split
    · rfl
    · exact (m.confined_destroyThread t).stack
  · rfl

theorem suffix_continueTicks (g : GroupId) (members rest : List ThreadId) :
    m.stack <:+ (m.continueTicks g members rest).1.stack := by
  induction rest with
  | nil => exact List.suffix_refl _
  | cons t rest ih =>
    unfold continueTicks
    split
    · exact ih
    · exact (m.suffix_push _).trans (suffix_beginResume _ t _ [])

theorem suffix_beginUpdate (g : GroupId) : m.stack <:+ (m.beginUpdate g).1.stack := by
  unfold beginUpdate
  dsimp only
  split
  · exact List.suffix_refl _
  · exact m.suffix_continueTicks g _ _

theorem suffix_continueUpdates (groups : List GroupId) : m.stack <:+ (m.continueUpdates groups).1.stack := by
  cases groups with
  | nil => exact List.suffix_refl _
  | cons g rest => exact (m.suffix_push _).trans (suffix_beginUpdate _ g)

theorem suffix_groupAction (g : GroupId) (action : GroupAction) (args : Values) :
    m.stack <:+ (m.groupAction g action args).1.stack := by
  cases action with
  | update => exact (m.suffix_push _).trans (suffix_beginUpdate _ g)
  | suspend | resume => exact List.suffix_refl _
  | destroy => exact suffix_of_eq (m.stack_destroyGroup g)

end Groups

section Natives

/-- What a native function does leaves the work below it alone. -/
def Adding (effect : Effect) : Prop := ∀ m : Machine, m.stack <:+ (effect m).1.stack

theorem adding_baseEffect {args : Values} {effect : Effect} (h : BaseEffect t args effect) : Adding effect := by
  intro m
  cases h with
  | answer | iterate | store | install => exact List.suffix_refl _
  | protect f => exact (m.suffix_push _).trans (suffix_beginCall _ t _ _ _)
  | convert v => exact m.suffix_attempt t _ args
  | print => exact m.suffix_continuePrint t args [] args

theorem checked_adding_coroutine (m : Machine) (t : ThreadId) (f : CoroutineFunction) (args : Values) :
    Checked Adding (m.coroutine t f args) := by
  cases f with
  | create =>
    refine (m.checked_requireFunction t args _).bind fun f _ m => ?_
    exact List.suffix_refl _
  | resume =>
    refine (m.checked_requireThread t args 1 _).bind fun target _ m => ?_
    exact m.suffix_beginResumeFrom t target false _
  | yield => exact fun m => suffix_of_eq (m.stack_yieldNow t args)
  | status =>
    refine (m.checked_requireThread t args 1 _).bind fun target _ m => ?_
    exact List.suffix_refl _
  | wrap =>
    refine (m.checked_requireFunction t args _).bind fun f _ m => ?_
    exact List.suffix_refl _
  | running => exact fun m => List.suffix_refl _
  | wait =>
    refine (m.checked_optionalInteger t args 1 _ 1).bind fun ticks _ m => ?_
    have hyielded := suffix_of_eq (m.stack_yieldNow t [])
    dsimp only
    split
    · rename_i heq
      rw [heq] at hyielded
      exact hyielded
    · exact hyielded

theorem adding_hostOperation (t : ThreadId) (op : HostOperation) (args : Values) :
    Adding fun m => m.hostOperation t op args := by
  intro m
  cases op with
  | echo | nothing | count | fail | failAt | failFatal | escapeYield | traceback | position | depth | threadNumber
  | status | sleep | references => exact List.suffix_refl _
  | yield => exact suffix_of_eq (m.stack_yieldNow t args)
  | call => exact m.suffix_beginCall t _ _ []
  | destroy => exact suffix_of_eq (m.confined_destroyThread t).stack
  | jump =>
    unfold hostOperation jumpThread
    dsimp only
    split
    · rename_i heq
      split at heq
      · cases heq
      · cases heq
        exact suffix_of_eq (m.confined_unwind t 0).stack
    · exact List.suffix_refl _
  | resume => exact (m.suffix_push _).trans (suffix_beginResume _ t none args)
  | index | equal | lessThan | lessEqual | length | tostring => exact m.suffix_attempt t _ args
  | setIndex =>
    have hset := ((Retains.refl m t).setIndex (Values.arg args 0) (Values.arg args 1) (Values.arg args 2)).stack
    exact (suffix_of_eq hset).trans (suffix_attempt (m.setIndex t _ _ _).1 t (m.setIndex t _ _ _).2 args)
  | arith =>
    unfold hostOperation
    dsimp only
    split
    · split
      · exact m.suffix_attempt t _ args
      · exact List.suffix_refl _
    · exact List.suffix_refl _
  | concat => exact m.suffix_continueJoin t args.reverse []
  | metamethod =>
    unfold hostOperation
    dsimp only
    split <;> exact List.suffix_refl _

theorem checked_adding_effect (m : Machine) (t : ThreadId) (body : Builtin) (args : Values) :
    Checked Adding (m.effect t body args) := by
  cases body with
  | base f => exact (m.checked_base t f args).imp fun _ => adding_baseEffect
  | coroutine f => exact m.checked_adding_coroutine t f args
  | wrapped target => exact fun m => m.suffix_beginResumeFrom t target true args
  | spawn name =>
    refine (m.checked_requireArg t args 1 name).bind fun f _ m => ?_
    exact suffix_of_eq (stack_addToGroup (m.newThread f (args.drop 1)).1 _ _)
  | host op => exact adding_hostOperation t op args
  | group g action => exact fun m => m.suffix_groupAction g action args

theorem suffix_invoke (m : Machine) (t : ThreadId) (id : NativeId) (args : Values) :
    m.stack <:+ (m.invoke t id args).1.stack := by
  have heffect := checked_adding_effect { m with inUse := args } t (m.native id).body args
  unfold invoke
  dsimp only
  rw [show ({ m with inUse := args } : Machine).native id = m.native id from rfl]
  split
  · rename_i effect heq
    rw [heq] at heffect
    exact heffect { m with inUse := args }
  · exact List.suffix_refl _

end Natives

section Steps

/-- The end of an instruction takes at most the interpreter off the stack. -/
theorem suffix_conclude (m : Machine) (i : Interpreter) (w : Window) (e : Ending) :
    m.stack.tail <:+ (m.conclude i w e).1.stack := by
  have hreplaced (a : Activation) : m.stack.tail <:+ (m.replaceTop a).stack := List.suffix_cons a _
  unfold conclude
  split
  · exact hreplaced _
  · exact hreplaced _
  · exact (hreplaced _).trans (suffix_callHandler _ i.thread _ [])
  · exact (hreplaced _).trans (suffix_continueJoin _ i.thread _ [])
  · exact hreplaced _
  · exact List.suffix_refl _
  · exact List.suffix_refl _

theorem Ends.suffix_conclude {i : Interpreter} {e : Ending} (h : m.Ends i n e) (w : Window) :
    m.stack.tail <:+ (n.conclude i w e).1.stack :=
  h.confined.stack ▸ n.suffix_conclude i w e

theorem suffix_interpret (m : Machine) (i : Interpreter) (s : Signal) : m.stack.tail <:+ (m.interpret i s).1.stack := by
  have hadvanced (m : Machine) (w : Window) : m.stack.tail <:+ (m.advance i w).1.stack :=
    (ends_execute m i w).suffix_conclude _
  unfold interpret
  split
  · unfold enter
    split
    · exact List.suffix_refl _
    · exact hadvanced (m.replaceTop _) _
  · exact hadvanced m _
  · exact (ends_settle m i _ _ _).suffix_conclude _
  · exact (ends_interrupted m i _ _).suffix_conclude _
  · exact List.suffix_refl _

theorem stack_stepResumed (m : Machine) (t : ThreadId) (previous : Status) (wrapped : Bool) (s : Signal) :
    (m.stepResumed t previous wrapped s).1.stack = m.stack := by
  unfold stepResumed
  dsimp only
  split
  · rfl
  · rfl
  · rfl
  · split
    · split <;> rfl
    · rfl
  · rfl

theorem suffix_stepTick (m : Machine) (g : GroupId) (members : List ThreadId) (t : ThreadId) (rest : List ThreadId)
    (s : Signal) : m.stack <:+ (m.stepTick g members t rest s).1.stack := by
  unfold stepTick
  extract_lets th reported
  have hreported : m.stack <:+ reported.stack := by
    dsimp only [reported]
    split
    · split
      · exact suffix_of_eq (confined_destroyThread _ t).stack
      · exact List.suffix_refl _
    · exact List.suffix_refl _
  split
  · exact hreported
  · exact hreported.trans (reported.suffix_continueTicks g members rest)

/-- Work that takes a signal leaves what is below it alone. -/
theorem suffix_resumeWork (m : Machine) {a : Activation} {acts : List Activation} (hstack : m.stack = a :: acts)
    (s : Signal) : acts <:+ (m.resumeWork a acts s).1.stack := by
  let popped : Machine := { m with stack := acts }
  cases a with
  | interpret i =>
    have hinterpreted := m.suffix_interpret i s
    rw [hstack] at hinterpreted
    exact hinterpreted
  | endCall t floor previous held => exact suffix_of_eq (confined_stepEndCall popped t floor previous s).stack
  | startedNative t held => exact suffix_of_eq (confined_stepStartedNative popped t s).stack
  | endResume t floor held => exact suffix_of_eq (confined_stepEndResume popped t floor s).stack
  | protect => exact List.suffix_refl _
  | resumed t previous wrapped target => exact suffix_of_eq (stack_stepResumed popped t previous wrapped s)
  | tick g members t rest => exact suffix_stepTick popped g members t rest s
  | forget | read | groupSize => cases s <;> exact List.suffix_refl _
  | updateGroups groups =>
    cases s with
    | values vs => exact suffix_continueUpdates popped groups
    | go | invoke | yielded | frameLimit | sleeping | error => exact List.suffix_refl _
  | concat t left held =>
    cases s with
    | values vs => exact suffix_continueJoin popped t _ held
    | go | invoke | yielded | frameLimit | sleeping | error => exact List.suffix_refl _
  | print t shown args =>
    cases s with
    | values vs =>
      show _ <:+ (Machine.stepPrint _ _ _ _ _).1.stack
      unfold stepPrint
      split
      · exact suffix_continuePrint popped t args _ _
      · exact List.suffix_refl _
    | go | invoke | yielded | frameLimit | sleeping | error => exact List.suffix_refl _

/-- A step above the work `base` leaves it alone. -/
theorem suffix_step (h : base <:+ m.stack) (hworks : m.isWorkingAbove base s = true) :
    base <:+ (m.step s).1.stack := by
  by_cases hinvoke : ∃ u id args, s = .invoke u id args
  · obtain ⟨u, id, args, rfl⟩ := hinvoke
    exact h.trans (m.suffix_invoke u id args)
  · have hnot (u : ThreadId) (id : NativeId) (args : Values) : s ≠ .invoke u id args :=
      fun heq => hinvoke ⟨u, id, args, heq⟩
    have hlength := ((isWorkingAbove_iff m base s).mp hworks).resolve_left hinvoke
    cases hstack : m.stack with
    | nil =>
      rw [hstack] at hlength
      cases hlength
    | cons a acts =>
      rw [hstack, List.length_cons] at hlength
      rw [hstack] at h
      rw [step_cons hstack hnot]
      have hbelow : base <:+ acts := by
        obtain hall | hbelow := List.suffix_cons_iff.mp h
        · rw [hall, List.length_cons] at hlength
          exact absurd hlength (Nat.lt_irrefl _)
        · exact hbelow
      exact hbelow.trans (suffix_resumeWork { m with inUse := [] } hstack s)

/-- What is above the work `base` is done first, and leaves it alone. -/
theorem stack_runAbove (h : base <:+ m.stack) (hrun : runAbove base fuel m s = some (m', s')) :
    m'.stack = base ∧ ∀ u id args, s' ≠ .invoke u id args := by
  refine runAbove_induction (P := fun n _ => base <:+ n.stack → m'.stack = base ∧ ∀ u id args, s' ≠ .invoke u id args)
    hrun (fun hdone h => ?_) (fun hworks ih h => ih (suffix_step h hworks)) h
  rw [Bool.eq_false_iff, ne_eq, isWorkingAbove_iff, not_or] at hdone
  exact ⟨(h.eq_of_length_le (Nat.not_lt.mp hdone.2)).symm, fun u id args hs => hdone.1 ⟨u, id, args, hs⟩⟩

end Steps

section Resumes

/-- Unwinding leaves the outermost frames, at most `depth` of them. -/
theorem frames_unwind (hcount : m.Counts t) (depth : Nat) : ((m.unwind t depth).thread t).frames =
    (m.thread t).frames.drop ((m.thread t).frames.length - depth) := by
  by_cases hrange : t.index < m.threads.size
  · by_cases hfew : depth ≤ (m.thread t).frames.length
    · have hlength : ((m.thread t).frames.drop ((m.thread t).frames.length - depth)).length = depth := by
        rw [List.length_drop]
        omega
      have hunwound := thread_unwind hrange hcount (List.drop_suffix ((m.thread t).frames.length - depth) _)
      rw [hlength] at hunwound
      rw [hunwound]
    · have hall : (m.thread t).depth ≤ depth := by
        rw [hcount]
        exact Nat.le_of_not_le hfew
      rw [unwind, unwindFrames, if_pos hall, Nat.sub_eq_zero_of_le (Nat.le_of_not_le hfew), List.drop_zero]
  · have hnone := Nat.not_lt.mp hrange
    rw [thread_of_le hnone, thread_of_le (by rw [(m.confined_unwind t depth).size]; exact hnone)]
    exact List.drop_nil.symm

theorem Reached.runAbove (h : m.Reached s) (hrun : runAbove base fuel m s = some (m', s')) : m'.Reached s' :=
  runAbove_induction (P := fun n u => n.Reached u → m'.Reached s') hrun (fun _ h => h) (fun _ ih h => ih h.step) h

theorem ne_invoke_stepEndResume (m : Machine) (t : ThreadId) (floor : Nat) (hs : ∀ u id args, s ≠ .invoke u id args)
    (u : ThreadId) (id : NativeId) (args : Values) : (m.stepEndResume t floor s).2 ≠ .invoke u id args := by
  unfold stepEndResume
  split
  · rintro ⟨⟩
  · rintro ⟨⟩
  · rintro ⟨⟩
  · rintro ⟨⟩
  · exact hs u id args

/-- A host's resume is slept through or refused, or all other work is done before its end takes the outcome. -/
theorem operate_resume_cases {budget : Option Nat} {args : Values} (hstack : m.stack = [])
    (hresult : m.operate fuel (.resume t budget args) = some (m', s')) :
    s' = .sleeping ∨ m' = m ∨ ∃ held k n u,
      runAbove [.endResume t (m.thread t).depth held] k (m.beginResume t budget args).1
        (m.beginResume t budget args).2 =
        some (n, u) ∧
      (m', s') = ({ n with inUse := [], stack := [] } : Machine).stepEndResume t (m.thread t).depth u := by
  have hrun : run fuel (m.beginResume t budget args).1 (m.beginResume t budget args).2 = some (m', s') := hresult
  rw [← runAbove_nil] at hrun
  obtain ⟨hsleeps, hsame⟩ | ⟨e, hrefused⟩ | ⟨held, hends⟩ := m.beginResume_cases t budget args
  · have hover := eq_of_runAbove hrun (hsame.trans hstack) (by rw [hsleeps]; rintro _ _ _ ⟨⟩)
    exact Or.inl ((congrArg Prod.snd hover).trans hsleeps)
  · rw [hrefused] at hrun
    have hover := eq_of_runAbove hrun hstack (by rintro _ _ _ ⟨⟩)
    exact Or.inr (Or.inl (congrArg Prod.fst hover))
  · rw [hstack] at hends
    obtain ⟨k, l, n, u, -, hinside, -, hrest⟩ := runAbove_split (Nat.zero_le _) hrun
    refine Or.inr (Or.inr ⟨held, k, n, u, hinside, ?_⟩)
    obtain ⟨hbottom, hinvoke⟩ := stack_runAbove hends hinside
    obtain ⟨j, -, hlast⟩ := runAbove_of_working (isWorkingAbove_of_cons hbottom u) hrest
    rw [step_cons hbottom hinvoke] at hlast
    exact eq_of_runAbove hlast (confined_stepEndResume _ t _ u).stack (ne_invoke_stepEndResume _ t _ hinvoke)

/-- Of all outcomes a raised error alone ends a resume with one, and cuts the frames back. -/
theorem eq_raised_of_stepEndResume {floor : Nat} {e : Raised}
    (hends : (m', .error (.raised e)) = m.stepEndResume t floor s) : s = .error (.raised e) ∧
      (m'.thread t).frames = ((m.unwind t floor).thread t).frames := by
  cases s with
  | error e' =>
    cases e' with
    | raised e' =>
      cases hends
      exact ⟨rfl, frames_setStatus _ t t _⟩
    | yield | fatal => cases hends
  | go | invoke | values | yielded | frameLimit | sleeping => cases hends

/-- A host's resume that fails leaves the outermost frames that its thread had then: as many as when the resume began,
whichever they are, or all if there are fewer. -/
theorem Hosted.frames_of_failed_resume (h : m.Hosted) (hrange : t.index < m.threads.size) {budget : Option Nat}
    {args : Values} {e : Raised} (hresult : m.operate fuel (.resume t budget args) = some (m', .error (.raised e))) :
    m' = m ∨ ∃ held k n,
      runAbove [.endResume t (m.thread t).frames.length held] k (m.beginResume t budget args).1
        (m.beginResume t budget args).2 = some (n, .error (.raised e)) ∧
      (m'.thread t).frames =
        (n.thread t).frames.drop ((n.thread t).frames.length - (m.thread t).frames.length) := by
  have hdepth : (m.thread t).depth = (m.thread t).frames.length :=
    counts_of_sound (h.atRest.sound .host (s := .values []) trivial) t
  obtain hsleeps | hrefused | ⟨held, k, n, u, hinside, hends⟩ := operate_resume_cases h.atRest.stack hresult
  · cases hsleeps
  · exact Or.inl hrefused
  · obtain ⟨rfl, hframes⟩ := eq_raised_of_stepEndResume hends
    have hreached := (Reached.resume h hrange budget args).runAbove hinside
    rw [hdepth] at hinside hframes
    refine Or.inr ⟨held, k, n, hinside, hframes.trans ?_⟩
    exact frames_unwind (m := { n with inUse := [], stack := [] }) (counts_of_sound hreached.sound t) _

end Resumes

end LuaMachine.Machine
