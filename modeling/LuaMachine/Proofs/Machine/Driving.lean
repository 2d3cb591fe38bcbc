import LuaMachine.Proofs.Machine.Abreast
import LuaMachine.Proofs.Machine.Transparency
import Mathlib.Data.List.Forall2

namespace LuaMachine

/-- The inputs that are left for the resumes after one with this outcome. A resume that met its frame limit is followed
by one with the input `idle`, a returned value or an error by none. -/
def Signal.inputsLeft (idle : Values) (inputs : List Values) : Signal → List Values
  | .frameLimit => idle :: inputs
  | .yielded _ => inputs
  | .sleeping => inputs
  | _ => []

/-- After an outcome that is no frame limit a host goes on with its inputs, or is done. -/
theorem Signal.inputsLeft_eq_nil {s : Signal} (hlimit : s ≠ .frameLimit)
    (hgoes : ¬(s = .sleeping ∨ ∃ vs, s = .yielded vs))
    (idle : Values) (inputs : List Values) : s.inputsLeft idle inputs = [] := by
  cases s with
  | frameLimit => exact absurd rfl hlimit
  | sleeping => exact absurd (Or.inl rfl) hgoes
  | yielded vs => exact absurd (Or.inr ⟨vs, rfl⟩) hgoes
  | go | invoke | values | error => rfl

namespace Machine

variable {m m' n n' : Machine} {t : ThreadId} {limit : Option Nat} {s : Signal} {r r' : Machine × Signal}
  {idle : Values} {inputs : List Values} {budgets : Nat → Option Nat} {outcomes outcomes' : List (Machine × Signal)}

/-- A resume of the thread ends, with this outcome. -/
def Resumes (m : Machine) (t : ThreadId) (budget : Option Nat) (args : Values) (r : Machine × Signal) : Prop :=
  ∃ fuel, m.operate fuel (.resume t budget args) = some r

/-- Resumes with the inputs, one after another, each with its budget, have these outcomes. A resume that met its frame
limit is followed by one that goes on. -/
inductive Drives (t : ThreadId) (idle : Values) :
    (Nat → Option Nat) → Machine → List Values → List (Machine × Signal) → Prop
  | done {budgets : Nat → Option Nat} {m : Machine} : Drives t idle budgets m [] []
  | resume {budgets : Nat → Option Nat} {m : Machine} {args : Values} {inputs : List Values} {r : Machine × Signal}
      {outcomes : List (Machine × Signal)} (h : m.Resumes t (budgets 0) args r)
      (hrest : Drives t idle (fun k => budgets (k + 1)) r.1 (r.2.inputsLeft idle inputs) outcomes) :
      Drives t idle budgets m (args :: inputs) (r :: outcomes)

/-- Outcomes are the same, and have the same effects, if frame limits are ignored. -/
def SameOutcomes (t : ThreadId) (outcomes outcomes' : List (Machine × Signal)) : Prop :=
  List.Forall₂ (fun r r' => r'.2 = r.2 ∧ SameEffects t r.1 r'.1) outcomes
    (outcomes'.filter fun r => r.2 ≠ .frameLimit)

/-- Whatever its budget, the next resume of the thread makes a frame with its first instruction, or ends in an error. -/
def Progresses (m : Machine) (t : ThreadId) : Prop :=
  ∀ budget args, Values.objects args = [] → ∃ m', m.beginResume t budget args = (m', .go) ∧
    ((m'.step .go).2 = .go ∧ ((m'.step .go).1.thread t).depth = (m.thread t).depth + 1 ∨
      ∃ m'' e, m.Resumes t budget args (m'', .error e))

section Runs

/-- Work that is done step by step has this outcome. -/
inductive Finishes : Machine → Signal → Machine × Signal → Prop
  | done {m : Machine} {s : Signal} (h : m.isWorking s = false) : Finishes m s (m, s)
  | step {m : Machine} {s : Signal} {r : Machine × Signal} (h : m.isWorking s = true)
      (hrest : Finishes (m.step s).1 (m.step s).2 r) : Finishes m s r

theorem Finishes.eq_of_done (h : Finishes m s r) (hdone : m.isWorking s = false) : r = (m, s) := by
  cases h with
  | done => rfl
  | step hworks =>
    rw [hdone] at hworks
    cases hworks

theorem Finishes.of_step (h : Finishes m s r) (hworks : m.isWorking s = true) :
    Finishes (m.step s).1 (m.step s).2 r := by
  cases h with
  | done hdone =>
    rw [hdone] at hworks
    cases hworks
  | step _ hrest => exact hrest

/-- Some fuel is enough for work that comes to an end. -/
theorem finishes_iff_run : Finishes m s r ↔ ∃ fuel, run fuel m s = some r := by
  constructor
  · intro h
    induction h with
    | done hdone => exact ⟨0, by rw [run, hdone]; rfl⟩
    | step hworks _ ih =>
      obtain ⟨fuel, hrun⟩ := ih
      exact ⟨fuel + 1, by rw [run, if_pos hworks]; exact hrun⟩
  · rintro ⟨fuel, hrun⟩
    induction fuel generalizing m s with
    | zero =>
      rw [run] at hrun
      split at hrun
      · cases hrun
      · rename_i hdone
        cases hrun
        exact .done (Bool.eq_false_iff.mpr hdone)
    | succ fuel ih =>
      rw [run] at hrun
      split at hrun
      · rename_i hworks
        exact .step hworks (ih hrun)
      · rename_i hdone
        cases hrun
        exact .done (Bool.eq_false_iff.mpr hdone)

theorem resumes_iff_finishes {budget : Option Nat} {args : Values} : m.Resumes t budget args r ↔
    Finishes (m.beginResume t budget args).1 (m.beginResume t budget args).2 r :=
  finishes_iff_run.symm

end Runs

section Halting

/-- A thread that was stopped progresses. -/
theorem Halted.progresses (h : Halted t m n) : m.Progresses t := by
  intro budget args hplain
  obtain ⟨m', limit, hbegins, hworks, -, habreast, hprogress⟩ := h.goesOn budget args hplain
  refine ⟨m', hbegins, hprogress.imp_right ?_⟩
  rintro ⟨⟨e, he⟩, floor, held, hstack⟩
  rw [he] at habreast
  obtain ⟨hstep, -, hrested⟩ := habreast.left.ends hstack
  obtain ⟨e', he'⟩ : ∃ e', ((m'.step .go).1.step (.error e)).2 = .error e' := by
    rw [hstep]
    cases e <;> exact ⟨_, rfl⟩
  refine ⟨((m'.step .go).1.step (.error e)).1, e', resumes_iff_finishes.mpr ?_⟩
  rw [hbegins]
  refine .step hworks ?_
  rw [he]
  refine .step habreast.left.isWorking ?_
  rw [he']
  exact .done (congrArg (fun acts : List Activation => !acts.isEmpty) hrested.rest.stack)

/-- What a run on the machine `n` without a limit comes to, after a resume with a limit had this outcome: its own end,
or the instruction that the limit has stopped. -/
inductive Follows (t : ThreadId) (r : Machine × Signal) (n : Machine) (s : Signal) : Prop
  | ends {r' : Machine × Signal} (hsignal : r.2 ≠ .frameLimit) (hruns : Finishes n s r') (h : EndsAlike t r r')
  | halts {n' : Machine} (hsignal : r.2 = .frameLimit) (h : Halted t r.1 n')
      (hruns : ∀ r', Finishes n' .go r' → Finishes n s r')

theorem Follows.step (h : Follows t r (n.step s).1 (n.step s).2) (hworks : n.isWorking s = true) : Follows t r n s := by
  cases h with
  | ends hsignal hruns h => exact .ends hsignal (.step hworks hruns) h
  | halts hsignal h hruns => exact .halts hsignal h fun r' hr' => .step hworks (hruns r' hr')

/-- A run with a limit is followed by one without. -/
theorem Abreast.follows (h : Abreast m n t limit s) (hruns : Finishes m s r) : Follows t r n s := by
  induction hruns generalizing n limit with
  | done hdone =>
    rw [h.left.isWorking] at hdone
    cases hdone
  | @step m s r hworks hrest ih =>
    by_cases hends : ∃ floor held acts, m.stack = .endResume t floor held :: acts
    · obtain ⟨floor, held, acts, hstack⟩ := hends
      obtain ⟨hdone, hdone', hsignal, halike⟩ := h.ends hstack
      obtain rfl := hrest.eq_of_done hdone
      exact .ends hsignal (.step h.right.isWorking (.done hdone')) halike
    have hstack (floor : Nat) (held : Values) (acts : List Activation) : m.stack ≠ .endResume t floor held :: acts :=
      fun hstack => hends ⟨floor, held, acts, hstack⟩
    by_cases hmeets : (m.step s).2 = .frameLimit
    · obtain ⟨rfl, hworks', m', hstops, hdone, hhalted⟩ := h.halts hstack hmeets
      rw [hmeets] at hrest
      have hstopped := hrest.of_step hworks'
      rw [hstops] at hstopped
      obtain rfl := hstopped.eq_of_done hdone
      exact .halts rfl hhalted fun _ hruns => hruns
    · obtain ⟨hsignal, hnext⟩ := h.step hstack hmeets
      refine Follows.step ?_ h.right.isWorking
      rw [hsignal]
      exact ih hnext

/-- A resume with a limit is followed by one without. -/
theorem Paired.follows (h : Paired m n t) {budget : Option Nat} {args : Values} (hresumes : m.Resumes t budget args r) :
    Follows t r (n.beginResume t none args).1 (n.beginResume t none args).2 := by
  have hruns := resumes_iff_finishes.mp hresumes
  obtain ⟨hsignal, ⟨hdone, hdone', hne, halike⟩ | ⟨limit, habreast⟩⟩ := h.beginResume budget args
  · obtain rfl := hruns.eq_of_done hdone
    exact .ends hne (.done hdone') halike
  · rw [← hsignal]
    exact habreast.follows hruns

/-- So is a resume that goes on after a frame limit. -/
theorem Halted.follows (h : Halted t m n) (hidle : Values.objects idle = []) {budget : Option Nat}
    (hresumes : m.Resumes t budget idle r) : Follows t r n .go := by
  have hruns := resumes_iff_finishes.mp hresumes
  obtain ⟨m', limit, hbegins, hworks, hsignal, habreast, -⟩ := h.goesOn budget idle hidle
  rw [hbegins] at hruns
  refine Follows.step ?_ h.working
  rw [hsignal]
  exact habreast.follows (hruns.of_step hworks)

end Halting

section Outcomes

theorem Drives.eq_nil (h : Drives t idle budgets m [] outcomes) : outcomes = [] := by
  cases h
  rfl

/-- Outcomes alike come first in outcomes that are the same. -/
theorem SameOutcomes.cons (h : SameOutcomes t outcomes outcomes') (hsignal : r'.2 ≠ .frameLimit)
    (halike : EndsAlike t r' r) :
    SameOutcomes t (r :: outcomes) (r' :: outcomes') := by
  rw [SameOutcomes, List.filter_cons_of_pos (by rw [decide_eq_true_eq]; exact hsignal)]
  exact .cons ⟨halike.signal, halike.effects.symm⟩ h

/-- A frame limit is ignored. -/
theorem SameOutcomes.cons_frameLimit (h : SameOutcomes t outcomes outcomes') (hsignal : r'.2 = .frameLimit) :
    SameOutcomes t outcomes (r' :: outcomes') := by
  rw [SameOutcomes, List.filter_cons_of_neg (by rw [decide_eq_true_eq]; exact Classical.not_not.mpr hsignal)]
  exact h

/-- After each frame limit, the thread progresses. -/
def AllProgress (t : ThreadId) (outcomes : List (Machine × Signal)) : Prop :=
  ∀ r ∈ outcomes, r.2 = .frameLimit → r.1.Progresses t

theorem AllProgress.cons (h : AllProgress t outcomes) (hprogress : r.2 = .frameLimit → r.1.Progresses t) :
    AllProgress t (r :: outcomes) := by
  intro r' hr'
  obtain rfl | hr' := List.mem_cons.mp hr'
  · exact hprogress
  · exact h r' hr'

end Outcomes

section Unlimited

/-- Without a limit, the work that goes on and the resumes after it have the same outcomes as those with limits, which
progress. -/
def Matches (t : ThreadId) (idle : Values) (n : Machine) (s : Signal) (inputs : List Values)
    (outcomes : List (Machine × Signal)) : Prop :=
  (∃ r' outcomes', Finishes n s r' ∧ Drives t idle (fun _ => none) r'.1 (r'.2.inputsLeft idle inputs) outcomes' ∧
    SameOutcomes t (r' :: outcomes') outcomes) ∧ AllProgress t outcomes

/-- A resume with a limit, and all those after it, have the same outcomes as if there were no limits. -/
theorem Follows.matches (h : Follows t r n s) (hrest : Drives t idle budgets r.1 (r.2.inputsLeft idle inputs) outcomes)
    (hpaired : ∀ n, Paired r.1 n t →
      (∃ outcomes', Drives t idle (fun _ => none) n (r.2.inputsLeft idle inputs) outcomes' ∧
      SameOutcomes t outcomes' outcomes) ∧ AllProgress t outcomes)
    (hhalted : ∀ n inputs', Halted t r.1 n → r.2.inputsLeft idle inputs = idle :: inputs' →
      Matches t idle n .go inputs' outcomes) : Matches t idle n s inputs (r :: outcomes) := by
  cases h with
  | @ends r' hsignal hruns halike =>
    by_cases hgoes : r.2 = .sleeping ∨ ∃ vs, r.2 = .yielded vs
    · obtain ⟨⟨outcomes', hdrives, hsame⟩, hprogress⟩ := hpaired r'.1 (halike.goesOn hgoes)
      rw [halike.signal] at hdrives
      exact ⟨⟨r', outcomes', hruns, hdrives, hsame.cons hsignal halike⟩, hprogress.cons fun hs => absurd hs hsignal⟩
    · have hnil := Signal.inputsLeft_eq_nil hsignal hgoes idle inputs
      rw [hnil] at hrest
      obtain rfl := hrest.eq_nil
      refine ⟨⟨r', [], hruns, ?_, SameOutcomes.cons .nil hsignal halike⟩,
        AllProgress.cons ?_ fun hs => absurd hs hsignal⟩
      · rw [← halike.signal, hnil]
        exact .done
      · rintro _ ⟨⟩
  | halts hsignal hhalts hruns =>
    obtain ⟨⟨r', outcomes', hruns', hdrives, hsame⟩, hprogress⟩ := hhalted _ inputs hhalts (by rw [hsignal]; rfl)
    exact ⟨⟨r', outcomes', hruns r' hruns', hdrives, hsame.cons_frameLimit hsignal⟩,
      hprogress.cons fun _ => hhalts.progresses⟩

/-- What resumes with limits come to, they come to without limits. -/
theorem Drives.unlimited (h : Drives t idle budgets m inputs outcomes) (hidle : Values.objects idle = []) :
    (∀ n, Paired m n t → (∃ outcomes', Drives t idle (fun _ => none) n inputs outcomes' ∧
        SameOutcomes t outcomes' outcomes) ∧ AllProgress t outcomes) ∧
      ∀ n inputs', Halted t m n → inputs = idle :: inputs' → Matches t idle n .go inputs' outcomes := by
  induction h with
  | done => exact ⟨fun n _ => ⟨⟨[], .done, .nil⟩, by rintro _ ⟨⟩⟩, by rintro _ _ _ ⟨⟩⟩
  | resume hresumes hrest ih =>
    refine ⟨fun n hn => ?_, fun n inputs' hn hinputs => ?_⟩
    · obtain ⟨⟨r', outcomes', hruns, hdrives, hsame⟩, hprogress⟩ := (hn.follows hresumes).matches hrest ih.1 ih.2
      exact ⟨⟨_, .resume (resumes_iff_finishes.mpr hruns) hdrives, hsame⟩, hprogress⟩
    · obtain ⟨rfl, rfl⟩ := List.cons.inj hinputs
      exact (hn.follows hidle hresumes).matches hrest ih.1 ih.2

end Unlimited

section Limited

/-- What follows a resume that has ended alike without a limit. -/
theorem EndsAlike.drives (h : EndsAlike t r' r) (hsignal : r'.2 ≠ .frameLimit) {unlimited : Nat → Option Nat}
    (hrest : Drives t idle unlimited r.1 (r.2.inputsLeft idle inputs) outcomes)
    (hpaired : Paired r'.1 r.1 t → ∃ outcomes', Drives t idle budgets r'.1 (r.2.inputsLeft idle inputs) outcomes' ∧
      SameOutcomes t outcomes outcomes') :
    ∃ outcomes', Drives t idle budgets r'.1 (r'.2.inputsLeft idle inputs) outcomes' ∧
      SameOutcomes t (r :: outcomes) (r' :: outcomes') := by
  rw [← h.signal] at hrest hpaired
  by_cases hgoes : r'.2 = .sleeping ∨ ∃ vs, r'.2 = .yielded vs
  · obtain ⟨outcomes', hdrives, hsame⟩ := hpaired (h.goesOn hgoes)
    exact ⟨outcomes', hdrives, hsame.cons hsignal h⟩
  · rw [Signal.inputsLeft_eq_nil hsignal hgoes] at hrest ⊢
    obtain rfl := hrest.eq_nil
    exact ⟨[], .done, SameOutcomes.cons .nil hsignal h⟩

/-- A run without a limit is matched by one with a limit, which may stop at some instructions and go on in further
resumes. -/
theorem Abreast.drives (hruns : Finishes n s r) (h : Abreast m n t limit s) (hidle : Values.objects idle = [])
    (hrest : ∀ r' budgets, r'.2 ≠ .frameLimit → EndsAlike t r' r → ∃ outcomes',
      Drives t idle budgets r'.1 (r'.2.inputsLeft idle inputs) outcomes' ∧
        SameOutcomes t (r :: outcomes) (r' :: outcomes'))
    (budgets : Nat → Option Nat) : ∃ r' outcomes', Finishes m s r' ∧
      Drives t idle budgets r'.1 (r'.2.inputsLeft idle inputs) outcomes' ∧
      SameOutcomes t (r :: outcomes) (r' :: outcomes') := by
  induction hruns generalizing m limit budgets with
  | done hdone =>
    rw [h.right.isWorking] at hdone
    cases hdone
  | @step n s r hworks hruns ih =>
    by_cases hends : ∃ floor held acts, m.stack = .endResume t floor held :: acts
    · obtain ⟨floor, held, acts, hstack⟩ := hends
      obtain ⟨hdone, hdone', hsignal, halike⟩ := h.ends hstack
      obtain rfl := hruns.eq_of_done hdone'
      obtain ⟨outcomes', hdrives, hsame⟩ := hrest (m.step s) budgets hsignal halike
      exact ⟨_, outcomes', .step h.left.isWorking (.done hdone), hdrives, hsame⟩
    have hstack (floor : Nat) (held : Values) (acts : List Activation) : m.stack ≠ .endResume t floor held :: acts :=
      fun hstack => hends ⟨floor, held, acts, hstack⟩
    by_cases hmeets : (m.step s).2 = .frameLimit
    · obtain ⟨rfl, hworks', m', hstops, hdone, hhalted⟩ := h.halts hstack hmeets
      obtain ⟨m'', limit', hbegins, hworks'', hsignal, habreast, -⟩ := hhalted.goesOn (budgets 0) idle hidle
      rw [← hsignal] at habreast
      obtain ⟨r', outcomes', hruns', hdrives, hsame⟩ := ih habreast hrest fun k => budgets (k + 1)
      rw [hsignal] at hruns'
      refine ⟨(m', .frameLimit), r' :: outcomes', .step h.left.isWorking ?_,
        .resume (resumes_iff_finishes.mpr ?_) hdrives,
        hsame.cons_frameLimit rfl⟩
      · rw [hmeets]
        refine .step hworks' ?_
        rw [hstops]
        exact .done hdone
      · rw [hbegins]
        exact .step hworks'' hruns'
    · obtain ⟨hsignal, hnext⟩ := h.step hstack hmeets
      rw [← hsignal] at hnext
      obtain ⟨r', outcomes', hruns', hdrives, hsame⟩ := ih hnext hrest budgets
      rw [hsignal] at hruns'
      exact ⟨r', outcomes', .step h.left.isWorking hruns', hdrives, hsame⟩

/-- What resumes without limits come to, they come to with limits. -/
theorem Drives.limited {unlimited : Nat → Option Nat} (h : Drives t idle unlimited n inputs outcomes)
    (hnone : ∀ k, unlimited k = none) (hidle : Values.objects idle = []) (hpaired : Paired m n t)
    (budgets : Nat → Option Nat) :
    ∃ outcomes', Drives t idle budgets m inputs outcomes' ∧ SameOutcomes t outcomes outcomes' := by
  induction h generalizing m budgets with
  | done => exact ⟨[], .done, .nil⟩
  | @resume unlimited n args inputs r outcomes hresumes hdrives ih =>
    rw [hnone, resumes_iff_finishes] at hresumes
    have hrest (r' : Machine × Signal) (budgets : Nat → Option Nat) (hsignal : r'.2 ≠ .frameLimit)
        (halike : EndsAlike t r' r) : ∃ outcomes', Drives t idle budgets r'.1 (r'.2.inputsLeft idle inputs) outcomes' ∧
          SameOutcomes t (r :: outcomes) (r' :: outcomes') :=
      halike.drives hsignal hdrives fun hpaired => ih (fun k => hnone (k + 1)) hpaired budgets
    obtain ⟨hsignal, ⟨hdone, hdone', hne, halike⟩ | ⟨limit, habreast⟩⟩ := hpaired.beginResume (budgets 0) args
    · obtain rfl := hresumes.eq_of_done hdone'
      obtain ⟨outcomes', hdrives, hsame⟩ := hrest _ (fun k => budgets (k + 1)) hne halike
      exact ⟨_, .resume (resumes_iff_finishes.mpr (.done hdone)) hdrives, hsame⟩
    · rw [hsignal] at habreast
      obtain ⟨r', outcomes', hruns, hdrives, hsame⟩ := habreast.drives hresumes hidle hrest fun k => budgets (k + 1)
      rw [← hsignal] at hruns
      exact ⟨_, .resume (resumes_iff_finishes.mpr hruns) hdrives, hsame⟩

end Limited

/-- A host that drives a thread with budgets, and ignores the frame limits, meets the same outcomes with the same
effects as without budgets. Whenever a resume meets its limit, the next one makes a frame or ends in an error. -/
theorem Hosted.drives_alike (h : m.Hosted) (hfuse : m.limits.fuse = none) (hlibrary : ∀ n ∈ m.natives, n.body.IsLibrary)
    (hrange : t.index < m.threads.size) (htakes : (m.thread t).Takes) (hidle : Values.objects idle = [])
    (budgets : Nat → Option Nat) (inputs : List Values) :
    (∀ outcomes, Drives t idle (fun _ => none) m inputs outcomes →
      ∃ outcomes', Drives t idle budgets m inputs outcomes' ∧ SameOutcomes t outcomes outcomes') ∧
    ∀ outcomes', Drives t idle budgets m inputs outcomes' →
      (∃ outcomes, Drives t idle (fun _ => none) m inputs outcomes ∧ SameOutcomes t outcomes outcomes') ∧
        ∀ r ∈ outcomes', r.2 = .frameLimit → r.1.Progresses t := by
  have hrested : m.Rested t := ⟨h.atRest, hfuse, hlibrary, hrange⟩
  have hpaired : Paired m m t := ⟨hrested, hrested, rfl, htakes⟩
  exact ⟨fun outcomes hdrives => hdrives.limited (fun _ => rfl) hidle hpaired budgets,
    fun outcomes' hdrives => (hdrives.unlimited hidle).1 m hpaired⟩

/-- A thread that is to call a function from a function. -/
def relaying : Machine :=
  ({ Machine.new { fuse := none } with
      closures := #[⟨applyPrototype, [], ⟨0⟩⟩, ⟨identityPrototype, [], ⟨0⟩⟩] }.newThread (.closure ⟨0⟩)
    [.closure ⟨1⟩, .int 7]).1

theorem hosted_relaying : relaying.Hosted := by
  have hloaded : Hosted { Machine.new { fuse := none } with
      closures := #[⟨applyPrototype, [], ⟨0⟩⟩, ⟨identityPrototype, [], ⟨0⟩⟩] } :=
    .change (.new { fuse := none }) rfl rfl rfl (Nat.le_refl _)
      (by rintro n hn; exact absurd hn (Array.not_mem_empty n))
  exact @Hosted.operate _ _ (.newThread (.closure ⟨0⟩) [.closure ⟨1⟩, .int 7]) 0 _ hloaded (fun t ht => nomatch ht) rfl

/-- With one frame for each resume, the call meets the limit. The next resume makes its frame, and the value that it
returns is the one that a resume without a budget gives. -/
theorem drives_alike_of_call : ∃ stopped ended ended',
    Drives ⟨0⟩ [] (fun _ => some 1) relaying [[]] [(stopped, .frameLimit), (ended, .values [.int 7])] ∧
      stopped.Progresses ⟨0⟩ ∧ Drives ⟨0⟩ [] (fun _ => none) relaying [[]] [(ended', .values [.int 7])] ∧
      SameEffects ⟨0⟩ ended' ended := by
  have hstops : (relaying.operate 10 (.resume ⟨0⟩ (some 1) [])).map Prod.snd = some .frameLimit := by decide +kernel
  have hends : ((relaying.operate 10 (.resume ⟨0⟩ (some 1) [])).bind fun r =>
      r.1.operate 10 (.resume ⟨0⟩ (some 1) [])).map Prod.snd = some (.values [.int 7]) := by decide +kernel
  obtain ⟨⟨stopped, s⟩, hstopped, rfl⟩ := Option.map_eq_some_iff.mp hstops
  rw [hstopped] at hends
  obtain ⟨⟨ended, s⟩, hended, rfl⟩ := Option.map_eq_some_iff.mp hends
  have hdrives : Drives ⟨0⟩ [] (fun _ => some 1) relaying [[]] [(stopped, .frameLimit), (ended, .values [.int 7])] :=
    .resume ⟨10, hstopped⟩ (.resume ⟨10, hended⟩ .done)
  have hrange : (⟨0⟩ : ThreadId).index < relaying.threads.size := Nat.zero_lt_one
  have htakes : (relaying.thread ⟨0⟩).Takes := by
    have hframes : (relaying.thread ⟨0⟩).frames = [] := rfl
    rw [Thread.Takes, hframes]
    rintro _ ⟨⟩
  have hplain : Values.objects [] = [] := rfl
  have hnatives : ∀ n ∈ relaying.natives, n.body.IsLibrary := fun n hn => absurd hn (Array.not_mem_empty n)
  obtain ⟨⟨outcomes, hunlimited, hsame⟩, hprogress⟩ :=
    (hosted_relaying.drives_alike rfl hnatives hrange htakes hplain (fun _ => some 1) [[]]).2 _ hdrives
  -- The frame limit is ignored, so there is one outcome.
  obtain ⟨⟨ended', s⟩, rest, ⟨hsignal, heffects⟩, hrest, rfl⟩ := List.forall₂_cons_right_iff.mp hsame
  obtain rfl := List.forall₂_nil_right_iff.mp hrest
  dsimp only at hsignal
  subst hsignal
  exact ⟨stopped, ended, ended', hdrives, hprogress _ List.mem_cons_self rfl, hunlimited, heffects⟩

end Machine

end LuaMachine
