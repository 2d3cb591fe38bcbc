import LuaMachine.Proofs.Machine.Instruction
import LuaMachine.Library.Base

namespace LuaMachine

variable {scope : Scope}

/-- A call from native code begins on a thread, which runs from now on. -/
def ThreadOutline.called (th : ThreadOutline) : ThreadOutline :=
  { th with
    status := if th.status.isActive then th.status else .running
    nativeDepth := th.nativeDepth + 1 }

namespace Machine

variable {m : Machine} {t : ThreadId}

/-- The status that a call from native code gives back at its end, if the thread was idle before. -/
def previousStatus? (m : Machine) (t : ThreadId) : Option Status :=
  if (m.outline.thread t).status.isActive then none else some (m.outline.thread t).status

/-- A call from native code is refused, or there is room for one more: it leaves everything to a native function, or
enters a closure if there is room for a frame. -/
theorem beginCall_cases (hcount : (m.outline.thread t).Counted) (hrange : t.index < m.threads.size) (f : Value)
    (args held : Values) :
    (∃ e, e.IsRaised ∧ m.beginCall t f args held = (m, .error e)) ∨
    (m.outline.thread t).nativeDepth < m.limits.nativeDepth ∧
    ((∃ id args' held', (m.beginCall t f args held).2 = .invoke t id args' ∧
      (m.beginCall t f args held).1.outline = (m.outline.modifyThread t ThreadOutline.called).withStack
        (.endCall t none (m.previousStatus? t) held' :: m.stack)) ∨
     (∃ held', (m.outline.thread t).frames.length < m.limits.callDepth ∧ (m.beginCall t f args held).2 = .go ∧
       (m.beginCall t f args held).1.outline = ((m.outline.modifyThread t ThreadOutline.called).setFrames t
           (⟨.host, none⟩ :: (m.outline.thread t).frames)).withStack
         (.interpret ⟨t, (m.outline.thread t).frames.length, none, .entering⟩ ::
           .endCall t (some (m.outline.thread t).frames.length) (m.previousStatus? t) held' :: m.stack)) ∨
     (∃ message held', (m.beginCall t f args held).2 = .error (.ofText message) ∧
       (m.beginCall t f args held).1.outline = (m.outline.modifyThread t ThreadOutline.called).withStack
         (.endCall t (some (m.outline.thread t).frames.length) (m.previousStatus? t) held' :: m.stack))) := by
  unfold beginCall
  extract_lets th idle previous begun
  have hprevious : previous = m.previousStatus? t := by
    simp only [previous, idle, th, previousStatus?, outline_thread, Thread.outline]
    cases (m.thread t).status.isActive <;> rfl
  have hbegun : begun.outline = m.outline.modifyThread t ThreadOutline.called := by
    rw [← Outline.modifyThread_congr m.outline t (fun o => { o with
        status := if idle then .running else o.status
        nativeDepth := o.nativeDepth + 1 })]
    · exact m.outline_modifyThread (by intro; rfl) t
    · simp only [idle, th, ThreadOutline.called, outline_thread, Thread.outline]
      cases (m.thread t).status.isActive <;> rfl
  have hthread : begun.outline.thread t = (m.outline.thread t).called := by
    rw [hbegun, Outline.thread_modifyThread_self _ _ _ (by simpa using hrange)]
  have hdepth : (begun.thread t).depth = (m.outline.thread t).frames.length := by
    rw [depth_eq (by rw [hthread]; exact hcount), hthread]
    rfl
  have hpush (floor : Option Nat) (held : Values) :
      (begun.push (.endCall t floor previous held)).outline = (m.outline.modifyThread t ThreadOutline.called).withStack
        (.endCall t floor (m.previousStatus? t) held :: m.stack) := by
    rw [outline_push, hbegun, hprevious]
    rfl
  split
  · exact Or.inl ⟨_, m.isRaised_errorHere t _, rfl⟩
  · rename_i hroom
    have hcalls : (m.outline.thread t).nativeDepth < m.limits.nativeDepth := by
      rw [outline_thread]
      exact Nat.not_le.mp hroom
    split
    · exact Or.inl ⟨_, m.isRaised_errorHere t _, rfl⟩
    · rename_i callee args' _
      refine Or.inr ⟨hcalls, ?_⟩
      cases callee with
      | native id => exact Or.inl ⟨id, args', f :: .native id :: held, rfl, hpush none _⟩
      | closure id =>
        have houtline := hpush (some (m.outline.thread t).frames.length) (f :: held)
        rw [← hdepth] at houtline ⊢
        dsimp only
        set pushed := begun.push (.endCall t (some (begun.thread t).depth) previous (f :: held)) with hpushed
        have hframes : (pushed.outline.thread t).frames = (m.outline.thread t).frames := by
          rw [houtline, Outline.thread_withStack, ← hbegun, hthread]
          rfl
        have hcounted : (pushed.outline.thread t).Counted := by
          rw [houtline, Outline.thread_withStack, ← hbegun, hthread]
          exact hcount
        rcases pushFrame_spec hcounted id args' .host with ⟨hroom, m', hpair, hentered⟩ | ⟨message, m', hpair, hsame⟩
        · rw [hframes] at hroom hentered
          refine Or.inr (Or.inl ⟨f :: held, by rw [hdepth]; exact hroom, ?_⟩)
          rw [hpair]
          refine ⟨rfl, ?_⟩
          have hstack : m'.stack = pushed.outline.stack := congrArg Outline.stack hentered
          rw [outline_push, hstack, hentered, houtline]
          rfl
        · refine Or.inr (Or.inr ⟨message, f :: held, ?_⟩)
          rw [hpair]
          exact ⟨rfl, hsame.trans houtline⟩

/-- A call from native code begins soundly if its end is a segment and its refusal is handled. -/
theorem beginCall_sound_of_segment {acts below : List Activation} {ts : List ThreadId}
    (hstack : m.stack = acts ++ below) (hsetting : m.outline.Setting scope t below ts)
    (hstatus : (m.outline.thread t).status ≠ .normal)
    (hfail : ∀ e : Error, e.IsRaised → m.outline.Sound scope (.error e))
    (hsegment : ∀ floor held, (∀ n ∈ floor, n = (m.outline.thread t).frames.length) →
      (m.outline.thread t).nativeDepth < m.limits.nativeDepth →
      (m.outline.thread t).called.Under scope m.limits t (m.outline.thread t).frames
        (.endCall t floor (m.previousStatus? t) held :: acts)) (f : Value) (args held : Values) :
    (m.beginCall t f args held).1.outline.Sound scope (m.beginCall t f args held).2 := by
  have hrange : t.index < m.outline.threads.size := hsetting.range
  have hcalled : (m.outline.modifyThread t ThreadOutline.called).thread t = (m.outline.thread t).called :=
    Outline.thread_modifyThread_self _ _ _ hrange
  have hrunning : (m.outline.thread t).called.status = .running := by
    simp only [ThreadOutline.called]
    cases hcase : (m.outline.thread t).status <;> first | rfl | exact absurd hcase hstatus
  have hbegun : (m.outline.modifyThread t ThreadOutline.called).Setting scope t below ts :=
    hsetting.modifyThread ⟨hsetting.fits.counted, hsetting.fits.bounded⟩
  have hsound (new : List Activation) (o : Outline) {s : Signal} (ho : o.Setting scope t below ts)
      (hlimits : o.limits = m.limits) (hrunning : (o.thread t).status = .running)
      (hready : Ready scope m.limits t (o.thread t) new s) : (o.withStack (new ++ below)).Sound scope s :=
    .working rfl (ho.withStack _) hrunning (by rw [Outline.limits_withStack, hlimits]; exact hready)
  rcases beginCall_cases hsetting.fits.counted (by simpa using hrange) f args held with
    ⟨e, he, hrefused⟩ | ⟨hcalls, ⟨id, args', held', hinvoke, houtline⟩ | ⟨held', hroom, hgo, houtline⟩ |
    ⟨message, held', herror, houtline⟩⟩
  · rw [hrefused]
    exact hfail e he
  · rw [hinvoke, houtline, hstack]
    refine hsound (.endCall t none (m.previousStatus? t) held' :: acts) _ hbegun rfl ?_ ?_
    · rw [hcalled, hrunning]
    · rw [hcalled]
      exact .invoke (hsegment none held' (fun _ hn => nomatch hn) hcalls) (fun hzero => nomatch hzero)
  · rw [hgo, houtline, hstack]
    have hthread := (m.outline.modifyThread t ThreadOutline.called).thread_setFrames t
      (⟨.host, none⟩ :: (m.outline.thread t).frames) (by simpa using hrange)
    have hentered : ((m.outline.modifyThread t ThreadOutline.called).setFrames t
        (⟨.host, none⟩ :: (m.outline.thread t).frames)).Setting scope t below ts := hbegun.setFrames hroom
    refine hsound (.interpret ⟨t, (m.outline.thread t).frames.length, none, .entering⟩ ::
      .endCall t (some (m.outline.thread t).frames.length) (m.previousStatus? t) held' :: acts) _ hentered rfl ?_ ?_
    · rw [hthread, hcalled]
      exact hrunning
    · rw [hthread, hcalled]
      refine .go rfl (fun _ _ hstage => nomatch hstage) (.host rfl rfl : Band [⟨.host, none⟩]) (.onCall rfl rfl) rfl ?_
      exact hsegment _ held' (by simp) hcalls
  · rw [herror, houtline, hstack]
    refine hsound (.endCall t (some (m.outline.thread t).frames.length) (m.previousStatus? t) held' :: acts) _ hbegun
      rfl ?_ ?_
    · rw [hcalled, hrunning]
    · rw [hcalled]
      exact .errorHere trivial (hsegment _ held' (by simp) hcalls)

/-- A call on a thread that nobody runs begins soundly. -/
theorem beginCall_sound_of_idle {below : List Activation} (hstack : m.stack = below)
    (hsetting : m.outline.Setting scope t below []) (hidle : (m.outline.thread t).Idle scope m.limits.callDepth)
    (hfail : ∀ e : Error, e.IsRaised → m.outline.Sound scope (.error e)) (f : Value) (args held : Values) :
    (m.beginCall t f args held).1.outline.Sound scope (m.beginCall t f args held).2 := by
  have hinactive := hidle.isActive_eq_false
  refine beginCall_sound_of_segment (show m.stack = [] ++ below from hstack) hsetting ?_ hfail ?_ f args held
  · intro hnormal
    rw [hnormal] at hinactive
    cases hinactive
  · intro floor held hfloor hroom
    rw [hidle.native] at hroom
    have hprevious : m.previousStatus? t = some (m.outline.thread t).status := by
      rw [previousStatus?, hinactive]
      rfl
    rw [hprevious, ThreadOutline.Under, ThreadOutline.called, hidle.native]
    exact .visit hidle.visited hfloor hroom

end Machine

/-- A machine works on a thread, with the work `acts` on it in order and what it has to wait for below. -/
structure Machine.Works (scope : Scope) (m : Machine) (t : ThreadId) (acts below : List Activation)
    (ts : List ThreadId) : Prop where
  stack : m.stack = acts ++ below
  setting : m.outline.Setting scope t below ts
  status : (m.outline.thread t).status = .running
  under : (m.outline.thread t).Under scope m.limits t (m.outline.thread t).frames acts

namespace Machine.Works

variable {m m' : Machine} {t : ThreadId} {acts below : List Activation} {ts : List ThreadId}

theorem congr (h : m.Works scope t acts below ts) (ho : m'.outline = m.outline) : m'.Works scope t acts below ts := by
  have hlimits : m'.limits = m.limits := congrArg Outline.limits ho
  have hstack : m'.stack = m.stack := congrArg Outline.stack ho
  exact ⟨hstack.trans h.stack, by rw [ho]; exact h.setting, by rw [ho]; exact h.status, by
    rw [ho, hlimits]
    exact h.under⟩

theorem values (h : m.Works scope t acts below ts) (vs : Values) : m.outline.Sound scope (.values vs) :=
  .working h.stack h.setting h.status (.values h.under)

theorem fails (h : m.Works scope t acts below ts) {e : Error} (he : e.Ordinary scope) :
    m.outline.Sound scope (.error e) :=
  .working h.stack h.setting h.status (.errorHere he h.under)

theorem error (h : m.Works scope t acts below ts) {e : Error} (he : e.IsRaised) : m.outline.Sound scope (.error e) :=
  h.fails he.ordinary

/-- More work that hands errors on may come on top. -/
theorem push (h : m.Works scope t acts below ts) {a : Activation} (ha : a.Passes t) :
    (m.push a).Works scope t (a :: acts) below ts := by
  refine ⟨by rw [Machine.push, h.stack]; rfl, ?_, h.status, .pass ha h.under⟩
  rw [outline_push]
  exact h.setting.withStack _

theorem beginCall (h : m.Works scope t acts below ts) (f : Value) (args held : Values) :
    (m.beginCall t f args held).1.outline.Sound scope (m.beginCall t f args held).2 := by
  refine beginCall_sound_of_segment h.stack h.setting (by rw [h.status]; exact Status.noConfusion)
    (fun _ he => h.error he) (fun floor held hfloor hroom => ?_) f args held
  have hprevious : m.previousStatus? t = none := by
    rw [previousStatus?, h.status]
    rfl
  rw [hprevious]
  exact .call hfloor hroom h.under

theorem callHandler (h : m.Works scope t acts below ts) (handler : Handler) (held : Values) :
    (m.callHandler t handler held).1.outline.Sound scope (m.callHandler t handler held).2 :=
  (h.push (a := .read handler.reading) trivial).beginCall handler.function handler.args _

theorem attempt (h : m.Works scope t acts below ts) {a : Attempt} (ha : a.Regular) (held : Values) :
    (m.attempt t a held).1.outline.Sound scope (m.attempt t a held).2 := by
  cases a with
  | done vs => exact h.values vs
  | fail e => exact h.error ha
  | handler handler => exact h.callHandler handler held

theorem continueJoin (h : m.Works scope t acts below ts) (reversed held : Values) :
    (m.continueJoin t reversed held).1.outline.Sound scope (m.continueJoin t reversed held).2 := by
  unfold Machine.continueJoin
  split
  · exact h.values _
  · rename_i hfail
    exact h.error (m.isRaised_of_join t hfail)
  · exact (h.push (a := .concat t _ held) rfl).callHandler _ held

theorem continuePrint (h : m.Works scope t acts below ts) (args : Values) (shown : List String) (rest : Values) :
    (m.continuePrint t args shown rest).1.outline.Sound scope (m.continuePrint t args shown rest).2 := by
  induction rest generalizing shown with
  | nil => exact (h.congr rfl).values []
  | cons v rest ih =>
    have hregular := m.regular_toText v args
    rw [Machine.continuePrint]
    split
    · exact (h.push (a := .print t shown args) rfl).callHandler _ []
    · rename_i hfail
      rw [hfail] at hregular
      exact h.error hregular
    · exact ih _

end Machine.Works

end LuaMachine
