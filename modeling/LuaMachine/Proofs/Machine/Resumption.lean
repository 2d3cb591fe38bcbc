import LuaMachine.Proofs.Machine.Pausing
import LuaMachine.Proofs.Machine.Operation

namespace LuaMachine

/-- The place of the stack where a host's resume of the thread `t` ends. Nothing but plain values is kept there. -/
structure Site.IsResume (c : Site) (t : ThreadId) (limit : Option Nat) : Prop where
  thread : c.thread = t
  limit : c.limit = limit
  bottom : ∃ floor held, Values.objects held = [] ∧
    (c.bottom = [.endResume t floor held] ∨ ∃ f, c.bottom = [.startedNative t f, .endResume t floor held])
  natives : ∀ n ∈ c.natives, n.body.IsLibrary

/-- A native function that may yield is called by a thread whose resume is all that is below. -/
theorem Segment.of_takesYield {scope : Scope} {limits : Limits} {t : ThreadId} {starts hostReturn : Bool}
    {fs : List FrameOutline} {acts : List Activation} (h : Segment scope limits t starts hostReturn fs 0 acts)
    (htakes : TakesYield acts) : ∃ a floor held, acts = [a, .endResume t floor held] := by
  obtain ⟨a, below, rfl⟩ := List.exists_cons_of_ne_nil (show acts ≠ [] by rintro rfl; cases htakes)
  cases a with
  | startedNative =>
    obtain ⟨rfl, -, -, ⟨floor, held, rfl⟩, -⟩ := Segment.of_startedNative h
    exact ⟨_, floor, held, rfl⟩
  | interpret i =>
    obtain ⟨w, sequel, band, fs, -, -, -, -, hstands, hbelow, -⟩ := Segment.of_interpret h
    cases hstands with
    | onResume =>
      obtain ⟨-, -, -, -, -, rfl⟩ := Segment.of_endResume hbelow
      exact ⟨_, _, _, rfl⟩
    | onCall => exact absurd rfl (Segment.native_ne_zero hbelow)
  | _ => cases htakes

namespace Site.Levels

variable {c : Site} {t : ThreadId} {limit : Option Nat} {fs : List Frame} {n : Nat} {acts : List Activation}

/-- The end of the resume is the last work there is. -/
theorem of_endResume (hc : c.IsResume t limit) {floor : Nat} {held : Values}
    (h : c.Levels fs n (.endResume t floor held :: acts)) : acts = [] ∧ Values.objects held = [] := by
  by_cases hbottom : .endResume t floor held :: acts = c.bottom
  · obtain ⟨floor', held', hheld, hends | ⟨f, hstarted⟩⟩ := hc.bottom
    · rw [hends] at hbottom
      cases hbottom
      exact ⟨rfl, hheld⟩
    · rw [hstarted] at hbottom
      cases hbottom
  · obtain ⟨ha, -⟩ | ⟨_, _, _, _, hends, -⟩ | ⟨_, _, _, _, _, _, hends, -⟩ := Machine.levels_cons h hbottom
    · exact absurd hc.thread.symm ha
    · cases hends
    · cases hends

theorem of_cons_endResume (hc : c.IsResume t limit) {a : Activation} {floor : Nat} {held : Values}
    (h : c.Levels fs n (a :: .endResume t floor held :: acts)) : acts = [] := by
  by_cases hbottom : a :: .endResume t floor held :: acts = c.bottom
  · obtain ⟨floor', held', -, hends | ⟨f, hstarted⟩⟩ := hc.bottom
    · rw [hends] at hbottom
      cases hbottom
    · rw [hstarted] at hbottom
      cases hbottom
      rfl
  · obtain ⟨-, hbelow⟩ | ⟨_, _, _, _, -, -, -, hbelow⟩ | ⟨_, _, _, _, _, _, -, -, -, -, -, -, -, -, -, hbelow⟩ :=
      Machine.levels_cons h hbottom
    · exact (hbelow.of_endResume hc).1
    · exact (hbelow.of_endResume hc).1
    · exact (hbelow.of_endResume hc).1

end Site.Levels

namespace Machine

variable {m n : Machine} {c : Site} {t u : ThreadId} {limit : Option Nat} {s : Signal}

/-- The work that some frames of the thread are for. -/
theorem Nests.exists_leveledAt (h : m.Nests c s) : ∃ fs acts, m.LeveledAt c fs acts := by
  cases h with
  | level h => exact ⟨_, _, h⟩
  | runs h => exact ⟨_, _, h.below⟩
  | leaves _ _ _ h => exact ⟨_, _, h⟩

theorem Nests.range (h : m.Nests c s) : c.thread.index < m.threads.size := by
  obtain ⟨_, _, hat⟩ := h.exists_leveledAt
  exact hat.range

theorem Nests.isLibrary (h : m.Nests c s) (hc : c.IsResume t limit) : ∀ n ∈ m.natives, n.body.IsLibrary := by
  obtain ⟨_, _, hat⟩ := h.exists_leveledAt
  exact fun n hn => (hat.natives n hn).elim (hc.natives n) id

theorem Nests.busy (h : m.Nests c s) : m.isBusy c.thread = true := by
  obtain ⟨a, ha, hbusy⟩ := List.any_eq_true.mp c.busy
  exact List.any_eq_true.mpr ⟨a, h.suffix.mem ha, hbusy⟩

/-- Unless an interpreter of the thread goes on, some frames of it are those that the innermost work expects. -/
theorem Nests.levels (h : m.Nests c s) {a : Activation} {acts : List Activation} (hstack : m.stack = a :: acts)
    (hinterpret : ∀ i, a ≠ .interpret i) : ∃ fs, c.Levels fs (m.thread c.thread).nativeDepth m.stack := by
  cases h with
  | level h => exact ⟨_, LeveledAt.levels h⟩
  | runs h =>
    rw [h.stack] at hstack
    cases hstack
    exact absurd rfl (hinterpret _)
  | leaves _ _ _ h => exact ⟨_, h.levels⟩

/-- The machine works on a resume of the thread `t` by its host, whose interpreter has the frame limit `limit`. The
thread sleeps only when it is about to yield, and it has then a native call to wait for. -/
structure InResume (m : Machine) (t : ThreadId) (limit : Option Nat) (s : Signal) : Prop where
  sound : m.outline.Sound .host s
  fuse : m.limits.fuse = none
  library : ∀ n ∈ m.natives, n.body.IsLibrary
  range : t.index < m.threads.size
  place : (∃ c : Site, c.IsResume t limit ∧ m.Nests c s) ∨
    ∃ floor held, Values.objects held = [] ∧ m.stack = [.endResume t floor held]
  awake : (m.thread t).sleep = 0 ∨ s = .error .yield ∧ m.stack.length ≤ 2 ∨ m.stack.length ≤ 1
  takes : ∀ vs floor held acts, s = .yielded vs → m.stack = .endResume t floor held :: acts → (m.thread t).Takes
  unstopped : s ≠ .frameLimit

namespace InResume

variable {floor : Nat} {held : Values} {acts : List Activation}

/-- Work on the resume is not over before its end is the only work left. -/
theorem of_endResume (h : m.InResume t limit s) (hstack : m.stack = .endResume t floor held :: acts) :
    acts = [] ∧ Values.objects held = [] := by
  obtain ⟨c, hc, hnests⟩ | ⟨floor', held', hheld, hends⟩ := h.place
  · obtain ⟨fs, hlevels⟩ := hnests.levels hstack (by rintro _ ⟨⟩)
    rw [hstack] at hlevels
    exact hlevels.of_endResume hc
  · rw [hends] at hstack
    cases hstack
    exact ⟨rfl, hheld⟩

theorem isLibrary (h : m.InResume t limit s) (u : ThreadId) (id : NativeId) (args : Values)
    (_ : s = .invoke u id args) : (m.native id).body.IsLibrary ∨ (m.native id).body = .host .nothing :=
  isLibrary_native h.library id

theorem busy (h : m.InResume t limit s) : m.isBusy t = true := by
  obtain ⟨c, hc, hnests⟩ | ⟨floor, held, -, hends⟩ := h.place
  · rw [← hc.thread]
    exact hnests.busy
  · rw [isBusy, hends]
    simp [Activation.thread?]

/-- Until its end is the only work left, the resume has a place on the stack. -/
theorem exists_nests (h : m.InResume t limit s)
    (hworks : ∀ floor held acts, m.stack ≠ .endResume t floor held :: acts) :
    ∃ c : Site, c.IsResume t limit ∧ m.Nests c s := by
  obtain hnests | ⟨floor, held, -, hends⟩ := h.place
  · exact hnests
  · exact absurd hends (hworks _ _ _)

theorem two_le_length (h : m.InResume t limit s)
    (hworks : ∀ floor held acts, m.stack ≠ .endResume t floor held :: acts) :
    2 ≤ m.stack.length := by
  obtain ⟨c, hc, hnests⟩ := h.exists_nests hworks
  obtain ⟨floor, held, -, hends | ⟨f, hstarted⟩⟩ := hc.bottom
  · obtain ⟨above, hstack⟩ := hnests.suffix
    rw [hends] at hstack
    cases above with
    | nil => exact absurd hstack.symm (hworks _ _ _)
    | cons a above =>
      rw [← hstack]
      simp
  · have hlength := hnests.suffix.length_le
    rw [hstarted] at hlength
    exact hlength

/-- A thread that waits was called by an instruction of its own resume, or is its start function. -/
theorem length_of_waits {m' : Machine} {s' : Signal} {id : NativeId} {args : Values}
    (h : m.InResume t limit (.invoke u id args)) (hwaits : m.Waits m' t u s') : m.stack.length ≤ 2 := by
  obtain rfl := hwaits.thread
  have hnative : (m.outline.thread u).nativeDepth = 0 := by
    rw [outline_thread]
    exact hwaits.native
  cases h.sound with
  | atRest _ _ _ hs => cases hs
  | back _ _ _ hs => cases hs
  | @working v own below ts hown hsetting hstatus hready =>
    rw [outline_stack] at hown
    cases hready with
    | pause hs => obtain hnot | ⟨vs, hnot⟩ := hs <;> cases hnot
    | invoke hunder htakes =>
      have htakes := htakes hnative
      rw [ThreadOutline.Under, hnative] at hunder
      obtain ⟨a, floor, held, rfl⟩ := hunder.of_takesYield htakes
      obtain ⟨c, hc, hnests⟩ | ⟨floor', held', -, hends⟩ := h.place
      · have hlevels : c.Levels (m.thread c.thread).frames (m.thread c.thread).nativeDepth m.stack := by
          cases hnests with
          | level h => exact LeveledAt.levels h
          | leaves _ _ hs => cases hs
        rw [hown] at hlevels ⊢
        rw [show below = [] from hlevels.of_cons_endResume hc]
        exact Nat.le_refl 2
      · rw [hends]
        exact Nat.le_succ 1

/-- A resume that has come as far as its native start function goes on to its end, or has work above that. -/
theorem place_step (h : m.InResume t limit s) (hworks : ∀ floor held acts, m.stack ≠ .endResume t floor held :: acts) :
    t.index < (m.step s).1.threads.size ∧ (∀ n ∈ (m.step s).1.natives, n.body.IsLibrary) ∧
      ((∃ c : Site, c.IsResume t limit ∧ (m.step s).1.Nests c (m.step s).2) ∨
        ∃ floor held, Values.objects held = [] ∧ (m.step s).1.stack = [.endResume t floor held]) := by
  obtain ⟨c, hc, hnests⟩ := h.exists_nests hworks
  by_cases hgoes : m.stack ≠ c.bottom ∨ ∃ u id args, s = .invoke u id args
  · have hlater := hnests.step h.sound c.length_pos hgoes h.isLibrary
    exact ⟨hc.thread ▸ hlater.range, hlater.isLibrary hc, Or.inl ⟨c, hc, hlater⟩⟩
  · rw [not_or, Classical.not_not] at hgoes
    obtain ⟨hbottom, hinvoke⟩ := hgoes
    have hnot (u : ThreadId) (id : NativeId) (args : Values) : s ≠ .invoke u id args :=
      fun heq => hinvoke ⟨u, id, args, heq⟩
    obtain ⟨floor, held, hheld, hends | ⟨f, hstarted⟩⟩ := hc.bottom
    · rw [hends] at hbottom
      exact absurd hbottom (hworks _ _ _)
    · rw [hstarted] at hbottom
      rw [step_cons hbottom hnot]
      have hconfined := confined_stepStartedNative { m with inUse := [], stack := [.endResume t floor held] } t s
      have hnatives := hconfined.natives
      exact ⟨Nat.lt_of_lt_of_eq h.range hconfined.size.symm, fun n hn => h.library n (hnatives ▸ hn),
        Or.inr ⟨floor, held, hheld, hconfined.stack⟩⟩

end InResume

/-- An error that meets a piece of work ends it. -/
theorem stack_step_error {e : Error} (hsound : m.outline.Sound .host (.error e)) :
    (m.step (.error e)).1.stack = m.stack.tail := by
  have hnot (u : ThreadId) (id : NativeId) (args : Values) : Signal.error e ≠ .invoke u id args := by rintro ⟨⟩
  have hstops (m : Machine) (i : Interpreter) (w : Window) (sequel : Sequel) :
      ((m.interrupted i (.error e) sequel).1.conclude i w (m.interrupted i (.error e) sequel).2).1.stack =
        m.stack.tail := by
    have hkept := (ends_interrupted m i (.error e) sequel).confined.stack
    have hdone : ∃ s, (m.interrupted i (.error e) sequel).2 = .stop s := by
      unfold interrupted suspend
      split
      · split
        · split <;> exact ⟨_, rfl⟩
        · exact ⟨_, rfl⟩
      · split
        · split <;> exact ⟨_, rfl⟩
        · exact ⟨_, rfl⟩
      · exact ⟨_, rfl⟩
    obtain ⟨s, hs⟩ := hdone
    rw [hs, ← hkept]
    cases s <;> rfl
  cases hstack : m.stack with
  | nil =>
    rw [step_nil hstack hnot, hstack]
    rfl
  | cons a acts =>
    have hsingle := isSingle_of_sound hsound hnot hstack
    rw [step_cons hstack hnot]
    have hconfined {u : ThreadId} {m' : Machine} (h : ({ m with inUse := [], stack := acts } : Machine).Confined m' u) :
        m'.stack = acts := h.stack
    cases a with
    | tick | groupSize | updateGroups => cases hsingle
    | interpret i =>
      have htail : ({ m with inUse := [] } : Machine).stack.tail = acts := by
        show m.stack.tail = acts
        rw [hstack]
        rfl
      obtain ⟨u, floor, limit, stage⟩ := i
      cases stage with
      | entering | running => exact htail
      | waiting w sequel => exact (hstops _ _ w sequel).trans htail
    | endCall u floor previous held => exact hconfined (confined_stepEndCall _ u floor previous _)
    | startedNative u held => exact hconfined (confined_stepStartedNative _ u _)
    | endResume u floor held => exact hconfined (confined_stepEndResume _ u floor _)
    | resumed u previous wrapped target =>
      show (Prod.fst (stepResumed _ _ _ _ _)).stack = acts
      unfold stepResumed
      dsimp only
      split
      · rfl
      · rfl
      · rfl
      · split
        · split <;> rfl
        · rfl
      · rfl
    | protect | forget | read | concat | print => rfl

namespace InResume

/-- A step in the midst of a resume. -/
theorem step (h : m.InResume t limit s) (hworks : ∀ floor held acts, m.stack ≠ .endResume t floor held :: acts)
    (hunstopped : (m.step s).2 ≠ .frameLimit) : (m.step s).1.InResume t limit (m.step s).2 := by
  have hpace := pace_step h.sound h.range h.busy h.isLibrary
  obtain ⟨hrange, hlibrary, hplace⟩ := h.place_step hworks
  refine ⟨step_sound .host h.sound, ?_, hlibrary, hrange, hplace, ?_, ?_, hunstopped⟩
  · rw [← h.fuse]
    obtain hsame | ⟨u, id, args, -, hwaits⟩ := hpace
    · exact congrArg (·.1.fuse) hsame
    · exact congrArg (·.limits.fuse) hwaits.outline
  · obtain hawake | ⟨rfl, hlength⟩ | hlength := h.awake
    · obtain hsame | ⟨u, id, args, rfl, hwaits⟩ := hpace
      · exact Or.inl ((congrArg Prod.snd hsame).trans hawake)
      · refine Or.inr (Or.inl ⟨hwaits.signal, ?_⟩)
        rw [show (m.step (.invoke u id args)).1.stack = m.stack from congrArg Outline.stack hwaits.outline]
        exact h.length_of_waits hwaits
    · refine Or.inr (Or.inr ?_)
      rw [stack_step_error h.sound, List.length_tail]
      omega
    · have htwo := h.two_le_length hworks
      omega
  · intro vs floor held acts hs hstack
    obtain ⟨i, w, acts', rfl, hreads, hstops⟩ | ⟨vs', -, htakes⟩ :=
      step_pauses h.sound h.fuse h.isLibrary h.unstopped (by rw [hs]; trivial)
    · rw [hreads.step_eq_of_pauses h.fuse hstops] at hs
      cases hs
    · exact htakes t floor held acts hstack

end InResume

section Beginning

/-- Nothing but threads, their registers and the work in progress has changed. -/
structure Begins (m m' : Machine) : Prop where
  natives : m'.natives = m.natives
  size : m'.threads.size = m.threads.size

/-- A thread with a start function is refused, or the function is entered or invoked. -/
theorem beginStart_cases (m : Machine) (t : ThreadId) (limit : Option Nat) (f : Value) (args : Values) :
    m.Begins (m.beginStart t limit f args).1 ∧
      (((m.beginStart t limit f args).1.stack = m.stack ∧ (m.beginStart t limit f args).2 ≠ .go) ∨
        (∃ held id args', (m.beginStart t limit f args).1.stack = .startedNative t held :: m.stack ∧
          (m.beginStart t limit f args).2 = .invoke t id args') ∨
        (m.beginStart t limit f args).1.stack = .interpret ⟨t, 0, limit, .entering⟩ :: m.stack ∧
          (m.beginStart t limit f args).2 = .go) := by
  unfold beginStart
  split
  · exact ⟨⟨rfl, rfl⟩, Or.inl ⟨rfl, by rintro ⟨⟩⟩⟩
  · rename_i id args' _
    cases hpushed : m.pushFrame t id args' .host with | mk m' s =>
    obtain ⟨rfl, hconfined, -⟩ | ⟨⟨e, rfl⟩, hkept, -⟩ := (Retains.refl m t).pushFrame hpushed
    · refine ⟨⟨hconfined.natives, hconfined.size⟩, Or.inr (Or.inr ⟨?_, rfl⟩)⟩
      show _ :: m'.stack = _
      rw [hconfined.stack]
    · exact ⟨⟨hkept.natives, hkept.size⟩, Or.inl ⟨hkept.stack, by rintro ⟨⟩⟩⟩
  · exact ⟨⟨rfl, rfl⟩, Or.inr (Or.inl ⟨_, _, _, rfl, rfl⟩)⟩

/-- What a resumed thread does first is to put the end of the resume on the stack. An interpreter may go on above it,
or a native start function. -/
theorem beginResumed_cases (m : Machine) {t : ThreadId} (floor : Nat) (limit : Option Nat) {args : Values}
    (hheld : (m.thread t).Takes ∨ Values.objects args = []) :
    m.Begins (m.beginResumed t floor limit args).1 ∧ ∃ held, Values.objects held = [] ∧
      (((m.beginResumed t floor limit args).1.stack = .endResume t floor held :: m.stack ∧
          (m.beginResumed t floor limit args).2 ≠ .go) ∨
        (∃ f id args', (m.beginResumed t floor limit args).1.stack =
            .startedNative t f :: .endResume t floor held :: m.stack ∧
          (m.beginResumed t floor limit args).2 = .invoke t id args') ∨
        (m.beginResumed t floor limit args).1.stack =
            .interpret ⟨t, 0, limit, .entering⟩ :: .endResume t floor held :: m.stack ∧
          (m.beginResumed t floor limit args).2 = .go) := by
  have hsize (m : Machine) (f : Thread → Thread) : (m.modifyThread t f).threads.size = m.threads.size :=
    (m.confined_modifyThread t f).size
  unfold beginResumed
  extract_lets th begun interpreter
  split
  · rename_i f startArgs _
    obtain ⟨hbegins, hcases⟩ := beginStart_cases (begun.modifyThread t fun th => { th with start := none }) t limit f
      (startArgs ++ args)
    exact ⟨⟨hbegins.natives, hbegins.size.trans (hsize begun _)⟩, [], rfl, hcases⟩
  · split
    · exact ⟨⟨rfl, hsize begun _⟩, [], rfl, Or.inl ⟨rfl, by rintro ⟨⟩⟩⟩
    · split
      · exact ⟨⟨rfl, rfl⟩, [], rfl, Or.inl ⟨rfl, by rintro ⟨⟩⟩⟩
      · rename_i top htop
        split
        · rename_i hnone
          have hplain : Values.objects args = [] :=
            hheld.resolve_left fun htakes => htakes top htop (Option.isNone_iff_eq_none.mp hnone)
          exact ⟨⟨rfl, rfl⟩, args, hplain, Or.inr (Or.inr ⟨rfl, rfl⟩)⟩
        · have hconfined := confined_completePending begun t args 0
          split
          · rename_i m' heq
            rw [heq] at hconfined
            refine ⟨⟨hconfined.natives, hconfined.size⟩, [], rfl, Or.inr (Or.inr ⟨?_, rfl⟩)⟩
            show interpreter :: m'.stack = _
            rw [hconfined.stack]
            rfl
          · rename_i hnot
            exact ⟨⟨hconfined.natives, hconfined.size⟩, [], rfl,
              Or.inl ⟨hconfined.stack, fun hgo => hnot _ (Prod.ext rfl hgo)⟩⟩

/-- A native start function is about to run at the end of a resume. -/
theorem nests_startedNative {floor : Nat} {f held : Values}
    (hstack : m.stack = [.startedNative t f, .endResume t floor held])
    (hlibrary : ∀ n ∈ m.natives, n.body.IsLibrary) (hrange : t.index < m.threads.size)
    (hheld : Values.objects held = []) (limit : Option Nat) (s : Signal) :
    ∃ c : Site, c.IsResume t limit ∧ m.Nests c s := by
  have hbusy : (m.stack.any fun a => a.thread? == some t) = true := by
    rw [hstack]
    simp [Activation.thread?]
  exact ⟨⟨t, m.thread t, m.stack, m.natives, limit, hbusy⟩,
    ⟨rfl, rfl, ⟨floor, held, hheld, Or.inr ⟨f, hstack⟩⟩, hlibrary⟩,
    .level ⟨.bottom rfl rfl rfl, hrange, fun _ => ⟨rfl, rfl, rfl, rfl, rfl⟩, fun n hn => Or.inl hn⟩⟩

/-- An interpreter is about to run all frames of the thread at the end of a resume. -/
theorem nests_interpret {floor : Nat} {held : Values}
    (hstack : m.stack = [.interpret ⟨t, 0, limit, .entering⟩, .endResume t floor held])
    (hsome : (m.thread t).frames ≠ [])
    (hlibrary : ∀ n ∈ m.natives, n.body.IsLibrary) (hrange : t.index < m.threads.size)
    (hheld : Values.objects held = []) : ∃ c : Site, c.IsResume t limit ∧ m.Nests c .go := by
  obtain ⟨f, rest, hframes⟩ := List.exists_cons_of_ne_nil hsome
  let c : Site := ⟨t, { m.thread t with frames := [] }, [.endResume t floor held], m.natives, limit,
    by simp [Activation.thread?]⟩
  have hbelow : m.LeveledAt c [] [.endResume t floor held] :=
    ⟨.bottom rfl rfl rfl, hrange, fun _ => ⟨rfl, rfl, rfl, rfl, rfl⟩, fun n hn => Or.inl hn⟩
  exact ⟨c, ⟨rfl, rfl, ⟨floor, held, hheld, Or.inl rfl⟩, hlibrary⟩,
    .runs ⟨hstack, rfl, hframes, List.nil_suffix, Or.inr rfl, rfl, .resume, hbelow⟩ (by rintro _ _ ⟨⟩) (by rintro _ ⟨⟩)⟩

/-- A resume of a thread that nobody runs is skipped or refused, or the machine works on it. -/
theorem AtRest.beginResume_cases (h : m.AtRest .host) (hfuse : m.limits.fuse = none)
    (hlibrary : ∀ n ∈ m.natives, n.body.IsLibrary) (hrange : t.index < m.threads.size) (args : Values)
    (hheld : (m.thread t).Takes ∨ Values.objects args = []) (budget : Option Nat) :
    m.beginResume t budget args = (m.modifyThread t fun th => { th with sleep := th.sleep - 1 }, .sleeping) ∨
      (∃ e, m.beginResume t budget args = (m, .error e)) ∨
      (m.beginResume t budget args).1.InResume t (frameLimit (m.thread t).depth budget)
        (m.beginResume t budget args).2 := by
  have hsound := h.resume .host hrange budget args
  have hpauses := not_pauses_beginResume m t budget args
  set limit := frameLimit (m.thread t).depth budget with hlimit
  set started := m.modifyThread t fun th => { th with status := .running, instructions := 0 } with hbegun
  by_cases hawake : 0 < (m.thread t).sleep
  · exact Or.inl (if_pos hawake)
  by_cases hactive : (m.thread t).status.isActive = true
  · exact Or.inr (Or.inl ⟨_, (if_neg hawake).trans (if_pos hactive)⟩)
  by_cases hresumable : (!(m.thread t).status.isResumable) = true
  · exact Or.inr (Or.inl ⟨_, (if_neg hawake).trans ((if_neg hactive).trans (if_pos hresumable))⟩)
  have hresumed : m.beginResume t budget args = started.beginResumed t (m.thread t).depth limit args :=
    (if_neg hawake).trans ((if_neg hactive).trans (if_neg hresumable))
  rw [hresumed] at hsound hpauses ⊢
  refine Or.inr (Or.inr ?_)
  have hstarted : started.thread t = { m.thread t with status := .running, instructions := 0 } :=
    thread_modifyThread hrange _
  have htakes : (started.thread t).Takes ∨ Values.objects args = [] := by
    rw [hstarted]
    exact hheld
  obtain ⟨hbegins, held, hplain, hcases⟩ := beginResumed_cases started (m.thread t).depth limit htakes
  have hpace := pace_beginResumed (m := started) (t := t) (u := t) (m.thread t).depth limit args
  have hlibrary' : ∀ n ∈ (started.beginResumed t (m.thread t).depth limit args).1.natives, n.body.IsLibrary := by
    rw [hbegins.natives]
    exact hlibrary
  have hrange' : t.index < (started.beginResumed t (m.thread t).depth limit args).1.threads.size := by
    rw [hbegins.size, (m.confined_modifyThread t _).size]
    exact hrange
  rw [show started.stack = [] from h.stack] at hcases
  refine ⟨hsound, ?_, hlibrary', hrange', ?_, Or.inl ?_, ?_, ?_⟩
  · rw [← hfuse]
    exact congrArg (·.1.fuse) hpace
  · obtain ⟨hends, -⟩ | ⟨f, id, args', hstack, -⟩ | ⟨hstack, hgo⟩ := hcases
    · exact Or.inr ⟨_, held, hplain, hends⟩
    · exact Or.inl (nests_startedNative hstack hlibrary' hrange' hplain _ _)
    · rw [hgo] at hsound ⊢
      obtain ⟨band, fs, own, below, ts, hinterprets, -⟩ :=
        hsound.interprets (Scope.Whole.host.ne_base hstack) hstack (by rintro _ _ _ ⟨⟩)
      refine Or.inl (nests_interpret hstack (fun hnil => hinterprets.frames_ne_nil ?_) hlibrary' hrange' hplain)
      rw [← map_outline_frames, hnil]
      rfl
  · refine (congrArg Prod.snd hpace).trans ?_
    show (started.thread t).sleep = 0
    rw [hstarted]
    exact Nat.le_zero.mp (Nat.not_lt.mp hawake)
  · rintro vs _ _ _ hs -
    rw [hs] at hpauses
    exact absurd trivial hpauses
  · intro hs
    rw [hs] at hpauses
    exact hpauses trivial

end Beginning

end Machine

end LuaMachine
