import LuaMachine.Proofs.Machine.Driving

namespace LuaMachine

/-- A thread that was just made, with its number. -/
def Thread.fresh (number : Nat) (f : Value) (args : Values) : Thread := { number, start := some (f, args) }

namespace Machine

variable {m m' n : Machine} {t : ThreadId} {f : Value} {args : Values} {budget : Option Nat} {r : Machine × Signal}
  {idle : Values} {inputs : List Values} {budgets : Nat → Option Nat} {outcomes : List (Machine × Signal)}

/-- The machine in which a new thread takes the place of one whose frames are left. -/
def renew (m : Machine) (t : ThreadId) (f : Value) (args : Values) : Machine :=
  (m.unwind t 0).modifyThread t fun th => .fresh th.number f args

section Jumping

/-- Changes that agree on a thread are the same. -/
theorem modifyThread_eq_of_thread {g h : Thread → Thread} (hsame : g (m.thread t) = h (m.thread t)) :
    m.modifyThread t g = m.modifyThread t h := by
  have hmodified : modifyAt m.threads t.index g = modifyAt m.threads t.index h := by
    apply Array.ext_getElem?
    intro k
    simp only [modifyAt, Array.getElem?_modify]
    split
    · rename_i hk
      subst hk
      cases hget : m.threads[t.index]? with
      | none => rfl
      | some th =>
        rw [thread, hget] at hsame
        exact congrArg some hsame
    · rfl
  exact congrArg (fun threads => { m with threads }) hmodified

theorem modifyThread_of_eq {g : Thread → Thread} (hsame : g (m.thread t) = m.thread t) : m.modifyThread t g = m := by
  have hmodified : modifyAt m.threads t.index id = m.threads := by
    apply Array.ext_getElem?
    intro k
    simp [modifyAt, Array.getElem?_modify]
  exact (modifyThread_eq_of_thread (h := id) hsame).trans (congrArg (fun threads => { m with threads }) hmodified)

/-- Unwinding a thread at rest leaves it no frame. -/
theorem thread_unwind_zero {callDepth : Nat} (hrange : t.index < m.threads.size)
    (hth : (m.thread t).WellFormed callDepth) :
    (m.unwind t 0).thread t = { m.thread t with frames := [], depth := 0 } := by
  have hempty : [] <:+ (m.thread t).frames := List.nil_suffix
  have hunwound := thread_unwind hrange hth.depth hempty
  rwa [List.length_nil] at hunwound

/-- A thread that jumps is a new one, but for its sleep and its count of instructions. -/
theorem jumpThread_eq {callDepth : Nat} (hrange : t.index < m.threads.size)
    (hth : (m.thread t).WellFormed callDepth) (f : Value) (args : Values) :
    m.jumpThread t f args = .ok ((m.renew t f args).modifyThread t fun th =>
      { th with sleep := (m.thread t).sleep, instructions := (m.thread t).instructions }) := by
  rw [jumpThread, hth.inactive, if_neg Bool.false_ne_true, renew, modifyThread_modifyThread]
  refine congrArg Except.ok (modifyThread_eq_of_thread ?_)
  rw [thread_unwind_zero hrange hth, Function.comp, Thread.fresh, hth.native]

end Jumping

section Sleeping

/-- The machine after a resume that the thread has slept through. -/
def nap (m : Machine) (t : ThreadId) : Machine := m.modifyThread t fun th => { th with sleep := th.sleep - 1 }

/-- The outcomes of resumes that the thread sleeps through. -/
def naps (t : ThreadId) : Nat → Machine → List (Machine × Signal)
  | 0, _ => []
  | k + 1, m => (m.nap t, .sleeping) :: naps t k (m.nap t)

theorem resumes_of_asleep (hstack : m.stack = []) (hsleep : 0 < (m.thread t).sleep) :
    m.Resumes t budget args r ↔ r = (m.nap t, .sleeping) := by
  have hdone : (m.nap t).isWorking .sleeping = false := congrArg (fun acts : List Activation => !acts.isEmpty) hstack
  have hbegins : m.beginResume t budget args = (m.nap t, .sleeping) := if_pos hsleep
  rw [resumes_iff_finishes, hbegins]
  constructor
  · exact fun h => h.eq_of_done hdone
  · rintro rfl
    exact .done hdone

/-- The first resume of a sleeping thread is slept through, and the others follow. -/
theorem drives_of_asleep (hstack : m.stack = []) (hsleep : 0 < (m.thread t).sleep) :
    Drives t idle budgets m (args :: inputs) outcomes ↔
      ∃ rest, outcomes = (m.nap t, .sleeping) :: rest ∧
        Drives t idle (fun k => budgets (k + 1)) (m.nap t) inputs rest := by
  constructor
  · intro h
    cases h with
    | resume hresumes hrest =>
      obtain rfl := (resumes_of_asleep hstack hsleep).mp hresumes
      exact ⟨_, rfl, hrest⟩
  · rintro ⟨rest, rfl, hrest⟩
    exact .resume ((resumes_of_asleep hstack hsleep).mpr rfl) hrest

/-- A thread sleeps through as many resumes as it has to, and then goes on as if it had not slept. -/
theorem drives_iff_naps (hrange : t.index < m.threads.size) (hstack : m.stack = []) {skipped : List Values}
    (hskipped : skipped.length = (m.thread t).sleep) :
    Drives t idle budgets m (skipped ++ inputs) outcomes ↔
      ∃ awake, outcomes = naps t skipped.length m ++ awake ∧
        Drives t idle (fun k => budgets (k + skipped.length)) (m.modifyThread t fun th => { th with sleep := 0 }) inputs
          awake := by
  induction skipped generalizing m budgets outcomes with
  | nil =>
    have hsame (th : Thread) (hsleep : th.sleep = 0) : { th with sleep := 0 } = th := by
      cases th
      cases hsleep
      rfl
    rw [modifyThread_of_eq (hsame _ hskipped.symm)]
    simp [naps]
  | cons args skipped ih =>
    rw [List.length_cons] at hskipped
    have hnap : ((m.nap t).thread t).sleep = (m.thread t).sleep - 1 := by rw [nap, thread_modifyThread hrange]
    have hrange' : t.index < (m.nap t).threads.size := by simpa [nap, modifyThread, modifyAt] using hrange
    have hawake : ((m.nap t).modifyThread t fun th => { th with sleep := 0 }) =
        m.modifyThread t fun th => { th with sleep := 0 } := modifyThread_modifyThread m t _ _
    rw [List.cons_append, drives_of_asleep hstack (by omega)]
    simp only [ih hrange' hstack (by rw [hnap]; omega), hawake]
    constructor
    · rintro ⟨_, rfl, awake, rfl, hawake⟩
      exact ⟨awake, rfl, by simpa [Nat.add_assoc] using hawake⟩
    · rintro ⟨awake, rfl, hawake⟩
      exact ⟨_, rfl, awake, rfl, by simpa [Nat.add_assoc] using hawake⟩

end Sleeping

section Counting

/-- The first resume of a thread that does not sleep. -/
theorem beginResume_of_initial (hsleep : (m.thread t).sleep = 0) (hstatus : (m.thread t).status = .initial)
    (budget : Option Nat) (args : Values) : m.beginResume t budget args =
      (m.modifyThread t fun th => { th with status := .running, instructions := 0 }).beginResumed t (m.thread t).depth
        (frameLimit (m.thread t).depth budget) args := by
  unfold beginResume
  dsimp only
  rw [hsleep, hstatus]
  rfl

/-- It begins the count of instructions anew. -/
theorem beginResume_counted (hrange : t.index < m.threads.size) (hsleep : (m.thread t).sleep = 0)
    (hstatus : (m.thread t).status = .initial) (count : Nat) (budget : Option Nat) (args : Values) :
    (m.modifyThread t fun th => { th with instructions := count }).beginResume t budget args =
      m.beginResume t budget args := by
  have hthread := thread_modifyThread hrange fun th => { th with instructions := count }
  rw [beginResume_of_initial (by rw [hthread]; exact hsleep) (by rw [hthread]; exact hstatus), hthread,
    modifyThread_modifyThread, beginResume_of_initial hsleep hstatus]
  rfl

/-- Resumes that begin alike have the same outcomes. -/
theorem drives_congr (h : ∀ budget args, m.beginResume t budget args = n.beginResume t budget args) :
    Drives t idle budgets m inputs outcomes ↔ Drives t idle budgets n inputs outcomes := by
  have hresumes (budget : Option Nat) (args : Values) (r : Machine × Signal) :
      m.Resumes t budget args r ↔ n.Resumes t budget args r := by
    rw [resumes_iff_finishes, resumes_iff_finishes, h]
  constructor
  · intro hdrives
    cases hdrives with
    | done => exact .done
    | resume hfirst hrest => exact .resume ((hresumes _ _ _).mp hfirst) hrest
  · intro hdrives
    cases hdrives with
    | done => exact .done
    | resume hfirst hrest => exact .resume ((hresumes _ _ _).mpr hfirst) hrest

end Counting

/-- **What a jump restarts.** A thread at rest that jumps sleeps through as many resumes as it had to before. Then its
resumes have the same outcomes and the same effects as those of a new thread in its place, whatever it was about. -/
theorem drives_jumpThread (h : m.Hosted) (hrange : t.index < m.threads.size) (hjumped : m.jumpThread t f args = .ok m')
    (idle : Values) (budgets : Nat → Option Nat) {skipped : List Values}
    (hskipped : skipped.length = (m.thread t).sleep) (inputs : List Values) (outcomes : List (Machine × Signal)) :
    Drives t idle budgets m' (skipped ++ inputs) outcomes ↔
      ∃ awake, outcomes = naps t skipped.length m' ++ awake ∧
        Drives t idle (fun k => budgets (k + skipped.length)) (m.renew t f args) inputs awake := by
  have hth : (m.thread t).WellFormed m.limits.callDepth := .of_idle (by simpa using h.atRest.idle t)
  have hsize : (m.renew t f args).threads.size = m.threads.size := by
    simp [renew, modifyThread, modifyAt, (m.confined_unwind t 0).size]
  have hrenewed : t.index < (m.renew t f args).threads.size := hsize ▸ hrange
  have hfresh : (m.renew t f args).thread t = .fresh (m.thread t).number f args := by
    rw [renew, thread_modifyThread (by rwa [(m.confined_unwind t 0).size]), thread_unwind_zero hrange hth]
  have hstack : (m.renew t f args).stack = [] := (m.confined_unwind t 0).stack.trans h.atRest.stack
  rw [jumpThread_eq hrange hth, Except.ok.injEq] at hjumped
  subst hjumped
  have hsleeps := congrArg Thread.sleep (thread_modifyThread hrenewed fun th =>
    { th with sleep := (m.thread t).sleep, instructions := (m.thread t).instructions })
  refine (drives_iff_naps (by simpa [modifyThread, modifyAt] using hrenewed) (by exact hstack)
    (hskipped.trans hsleeps.symm)).trans ?_
  rw [modifyThread_modifyThread]
  -- awake, the thread differs from a new one in its count only
  have hawake : (m.renew t f args).modifyThread t
      ((fun th => { th with sleep := 0 }) ∘ fun th =>
        { th with sleep := (m.thread t).sleep, instructions := (m.thread t).instructions }) =
      (m.renew t f args).modifyThread t fun th => { th with instructions := (m.thread t).instructions } :=
    modifyThread_eq_of_thread (by rw [hfresh]; rfl)
  rw [hawake]
  refine exists_congr fun awake => and_congr_right fun _ => drives_congr fun budget args => ?_
  exact beginResume_counted hrenewed (by rw [hfresh]; rfl) (by rw [hfresh]; rfl) _ _ _

end Machine

end LuaMachine
