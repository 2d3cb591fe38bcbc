import LuaMachine.Proofs.Machine.Beginning

namespace LuaMachine

variable {scope : Scope}

/-- A thread with the frames `fs` has just been resumed and is at work on no instruction yet. -/
structure Outline.Resumed (scope : Scope) (o : Outline) (t : ThreadId) (fs : List FrameOutline)
    (below : List Activation) (ts : List ThreadId) : Prop where
  stack : ∃ floor held, o.stack = .endResume t floor held :: below
  setting : o.Setting scope t below ts
  status : (o.thread t).status = .running
  frames : (o.thread t).frames = fs
  starts : (o.thread t).starts = false
  hostReturn : (o.thread t).hostReturnPending = false
  native : (o.thread t).nativeDepth = 0

/-- The thread at work is resumed once it has been cleared of what it had to do first. -/
theorem Outline.Setting.resumed {o : Outline} {t : ThreadId} {below : List Activation} {ts : List ThreadId}
    (h : o.Setting scope t below ts) {th : ThreadOutline} (hfits : th.Fits o.limits.callDepth)
    (hstatus : th.status = .running) (hstarts : th.starts = false) (hhost : th.hostReturnPending = false)
    (hnative : th.nativeDepth = 0) (floor : Nat) (held : Values) :
    ((o.withStack (.endResume t floor held :: below)).modifyThread t fun _ => th).Resumed scope t th.frames below
      ts := by
  have hthread := Outline.thread_modifyThread_self (o.withStack (.endResume t floor held :: below)) t (fun _ => th)
    h.range
  exact ⟨⟨floor, held, rfl⟩, (h.withStack _).modifyThread hfits, by rw [hthread, hstatus], by rw [hthread],
    by rw [hthread, hstarts], by rw [hthread, hhost], by rw [hthread, hnative]⟩

namespace Outline.Resumed

variable {o : Outline} {t : ThreadId} {fs : List FrameOutline} {below : List Activation} {ts : List ThreadId}

theorem under (h : o.Resumed scope t fs below ts) (floor : Nat) (held : Values) :
    (o.thread t).Under scope o.limits t [] [.endResume t floor held] := by
  rw [ThreadOutline.Under, h.native]
  exact .resume h.starts h.hostReturn

theorem setFrames (h : o.Resumed scope t fs below ts) {gs : List FrameOutline}
    (hbound : gs.length ≤ o.limits.callDepth) : (o.setFrames t gs).Resumed scope t gs below ts := by
  have hthread := o.thread_setFrames t gs h.setting.range
  exact ⟨h.stack, h.setting.setFrames hbound, by rw [hthread]; exact h.status, by rw [hthread],
    by rw [hthread]; exact h.starts, by rw [hthread]; exact h.hostReturn, by rw [hthread]; exact h.native⟩

/-- The thread is done already. -/
theorem values (h : o.Resumed scope t [] below ts) (vs : Values) : o.Sound scope (.values vs) := by
  obtain ⟨floor, held, hstack⟩ := h.stack
  refine .working (show o.stack = [_] ++ below from hstack) h.setting h.status (.values ?_)
  rw [h.frames]
  exact h.under floor held

theorem error (h : o.Resumed scope t [] below ts) {e : Error} (he : e.Ordinary scope) : o.Sound scope (.error e) := by
  obtain ⟨floor, held, hstack⟩ := h.stack
  refine .working (show o.stack = [_] ++ below from hstack) h.setting h.status (.errorHere he ?_)
  rw [h.frames]
  exact h.under floor held

/-- An interpreter begins to run the frames. -/
theorem interpret (h : o.Resumed scope t fs below ts) (hband : Band fs) (limit : Option Nat) :
    (o.withStack (.interpret ⟨t, 0, limit, .entering⟩ :: o.stack)).Sound scope .go := by
  obtain ⟨floor, held, hstack⟩ := h.stack
  rw [hstack]
  refine .working (show _ = [_, _] ++ below from rfl) (h.setting.withStack _) h.status ?_
  refine .go rfl (fun _ _ hstage => nomatch hstage) hband (.onResume rfl) ?_ (h.under floor held)
  rw [List.append_nil]
  exact h.frames

end Outline.Resumed

namespace Machine

variable {m : Machine} {t : ThreadId} {below : List Activation} {ts : List ThreadId}

theorem beginStart_sound (h : m.outline.Resumed scope t [] below ts) (limit : Option Nat) (f : Value) (args : Values) :
    (m.beginStart t limit f args).1.outline.Sound scope (m.beginStart t limit f args).2 := by
  unfold beginStart
  split
  · exact h.error trivial
  · rename_i id args' _
    have hspec := pushFrame_spec h.setting.fits.counted id args' .host
    rw [h.frames] at hspec
    obtain ⟨hroom, m', hpair, hentered⟩ | ⟨message, m', hpair, hsame⟩ := hspec
    · rw [hpair]
      have hlater : m'.outline.Resumed scope t [⟨.host, none⟩] below ts := by
        rw [hentered]
        exact h.setFrames hroom
      exact hlater.interpret (.host rfl rfl) limit
    · rw [hpair]
      rw [← hsame] at h
      exact h.error trivial
  · rename_i id args' _
    obtain ⟨floor, held, hstack⟩ := h.stack
    rw [outline_stack] at hstack
    dsimp only
    rw [outline_push, hstack]
    refine .working (show _ = [_, _] ++ below from rfl) (h.setting.withStack _) h.status ?_
    refine .invoke ?_ (fun _ => trivial)
    rw [Outline.thread_withStack, ThreadOutline.Under, h.native, h.frames]
    exact .started h.starts h.hostReturn

/-- A suspended thread that waits for a native call gets its results: an interpreter goes on with the frames that are
left, if there are any. -/
theorem completePending_resumed {f : FrameOutline} {fs : List FrameOutline} {p : PendingCall}
    (h : m.outline.Resumed scope t (f :: fs) below ts) (hpaused : Paused (f :: fs)) (hpending : f.pending = some p)
    (args : Values) :
    (∃ m' gs, m.completePending t args 0 = (m', .go) ∧ Band gs ∧ m'.outline.Resumed scope t gs below ts) ∨
    (∃ m', m.completePending t args 0 = (m', .values args) ∧ m'.outline.Resumed scope t [] below ts) := by
  obtain ⟨hband, htarget⟩ := hpaused
  have hbound : (f :: fs).length ≤ m.outline.limits.callDepth := by
    rw [← h.frames]
    exact h.setting.fits.bounded
  have hspec := completePending_spec h.setting.fits.counted (by simpa using h.setting.range) h.frames hpending
    (htarget p hpending) args 0
  rcases hresult : m.completePending t args 0 with ⟨m', s⟩
  rw [hresult] at hspec
  obtain ⟨-, hgo, houtline⟩ | ⟨-, houtline, hsignal⟩ := hspec
  · refine Or.inl ⟨m', { f with pending := none } :: fs, by rw [← hgo], hband, ?_⟩
    rw [houtline]
    exact h.setFrames hbound
  · have hlater : m'.outline.Resumed scope t fs below ts := by
      rw [houtline]
      exact h.setFrames (Nat.le_of_succ_le hbound)
    by_cases hhost : f.target.continuation = .host
    · rw [if_pos (Or.inr hhost)] at hsignal
      obtain rfl := hband.eq_nil_of_host hhost
      exact Or.inr ⟨m', by rw [← hsignal], hlater⟩
    · have hrest := hband.tail hhost
      have hpos := List.length_pos_iff.mpr hrest.ne_nil
      rw [if_neg (by simp only [hhost, or_false]; omega)] at hsignal
      exact Or.inl ⟨m', fs, by rw [← hsignal], hrest, hlater⟩

/-- A thread that nobody ran goes on with what it waits for. One without a function to start with waits for nothing, and
fails for want of a frame. -/
theorem beginResumed_sound (hstack : m.stack = below) (hsetting : m.outline.Setting scope t below ts)
    (hstatus : (m.outline.thread t).status = .running) (hnative : (m.outline.thread t).nativeDepth = 0)
    (hrest : ThreadOutline.AtRest scope { m.outline.thread t with status := .initial } ∨
      ThreadOutline.AtRest scope { m.outline.thread t with status := .suspended })
    (floor : Nat) (limit : Option Nat) (args : Values) :
    (m.beginResumed t floor limit args).1.outline.Sound scope (m.beginResumed t floor limit args).2 := by
  have hbegun (held : Values) : (m.push (.endResume t floor held)).outline =
      m.outline.withStack (.endResume t floor held :: below) := by
    rw [← hstack]
    rfl
  have hstarts : (m.outline.thread t).starts = (m.thread t).start.isSome := by
    rw [outline_thread]
    rfl
  have hhost : (m.outline.thread t).hostReturnPending = (m.thread t).hostReturnPending := by
    rw [outline_thread]
    rfl
  unfold beginResumed
  dsimp only
  split
  · rename_i f startArgs hstart
    rw [hstart, Option.isSome_some] at hstarts
    obtain ⟨-, hframes, hreturn⟩ | ⟨hnot, -⟩ := hrest
    · have hfits : ThreadOutline.Fits m.limits.callDepth { m.outline.thread t with starts := false } :=
        ⟨hsetting.fits.counted, hsetting.fits.bounded⟩
      have hresumed := hsetting.resumed hfits hstatus rfl hreturn hnative floor []
      have hcleared : ((m.push (.endResume t floor [])).modifyThread t fun th => { th with start := none }).outline =
          (m.outline.withStack (.endResume t floor [] :: below)).modifyThread t
            fun _ => { m.outline.thread t with starts := false } := by
        rw [outline_modifyThread (g := fun th => { th with starts := false }) _ (by intro; rfl), hbegun]
        exact Outline.modifyThread_congr _ _ _ rfl
      rw [← hcleared, hframes] at hresumed
      exact beginStart_sound hresumed limit f _
    · rw [hnot] at hstarts
      cases hstarts
  · rename_i hstart
    rw [hstart] at hstarts
    have hresumed (hreturn : (m.outline.thread t).hostReturnPending = false) (held : Values) :
        (m.push (.endResume t floor held)).outline.Resumed scope t (m.outline.thread t).frames below ts := by
      have hbase := hsetting.resumed hsetting.fits hstatus hstarts hreturn hnative floor held
      rwa [Outline.modifyThread_of_eq _ _ _ rfl, ← hbegun] at hbase
    obtain ⟨hstarting, hframes, hreturn⟩ | ⟨-, hpaused⟩ := hrest
    · have hlacks : scope.starting = false :=
        Bool.eq_false_iff.mpr fun hall => Bool.false_ne_true (hstarts.symm.trans (hstarting hall))
      have hbroken := hresumed hreturn []
      rw [show (m.outline.thread t).frames = [] from hframes] at hbroken
      have hreturn : (m.thread t).hostReturnPending = false := hhost.symm.trans hreturn
      have hnone : (m.thread t).frames.head? = none := topFrame?_eq_none_iff.mpr hframes
      rw [hreturn, if_neg Bool.false_ne_true, hnone]
      exact hbroken.error ⟨hlacks, rfl⟩
    · split
      · rename_i hreturn
        rw [hreturn] at hhost
        obtain ⟨-, hnot⟩ | ⟨hframes, -⟩ := hpaused
        · rw [hnot] at hhost
          cases hhost
        · have hfits : ThreadOutline.Fits m.limits.callDepth { m.outline.thread t with hostReturnPending := false } :=
            ⟨hsetting.fits.counted, hsetting.fits.bounded⟩
          have hreturned := hsetting.resumed hfits hstatus hstarts rfl hnative floor []
          have hcleared : ((m.push (.endResume t floor [])).modifyThread t
              fun th => { th with hostReturnPending := false }).outline =
              (m.outline.withStack (.endResume t floor [] :: below)).modifyThread t
                fun _ => { m.outline.thread t with hostReturnPending := false } := by
            rw [outline_modifyThread (g := fun th => { th with hostReturnPending := false }) _ (by intro; rfl), hbegun]
            exact Outline.modifyThread_congr _ _ _ rfl
          rw [← hcleared, hframes] at hreturned
          exact hreturned.values args
      · rename_i hreturn
        obtain ⟨hpaused, hnot⟩ | ⟨-, hyes⟩ := hpaused
        · obtain ⟨f, fs, hframes⟩ := List.exists_cons_of_ne_nil hpaused.ne_nil
          obtain ⟨top, htop, hown⟩ := exists_topFrame hframes
          have hresumed := hresumed hnot
          rw [hframes] at hpaused hresumed
          rw [show (m.thread t).frames.head? = some top from htop]
          dsimp only
          cases hpending : f.pending with
          | none =>
            rw [if_pos (by rw [← hown] at hpending; exact Option.isNone_iff_eq_none.mpr hpending)]
            exact (hresumed args).interpret (hpaused.band_of_none hpending) limit
          | some p =>
            rw [if_neg (by rw [← hown] at hpending; simp [show top.pending = some p from hpending])]
            obtain ⟨m', gs, hresult, hband, hlater⟩ | ⟨m', hresult, hlater⟩ :=
              completePending_resumed (hresumed []) hpaused hpending args
            · rw [hresult]
              exact hlater.interpret hband limit
            · rw [hresult]
              exact hlater.values args
        · rw [hhost] at hyes
          exact absurd hyes hreturn

/-- A resume of a thread that nobody runs begins soundly. -/
theorem beginResume_sound (hstack : m.stack = below) (hsetting : m.outline.Setting scope t below ts)
    (hidle : (m.outline.thread t).Idle scope m.limits.callDepth) (budget : Option Nat) (args : Values) :
    (m.beginResume t budget args).1.outline.Sound scope (m.beginResume t budget args).2 := by
  have hleave {s : Signal} (hs : s.IsOutcome scope) : m.outline.Sound scope s := by
    have hleft := hsetting.leave hidle hs
    rwa [← hstack, ← outline_stack, Outline.withStack_stack] at hleft
  have hstatus : (m.thread t).status = (m.outline.thread t).status := by
    rw [outline_thread]
    rfl
  unfold beginResume
  extract_lets th floor started
  split
  · rw [outline_modifyThread_of_eq m (by intro; rfl)]
    exact hleave trivial
  · split
    · exact hleave trivial
    · split
      · exact hleave trivial
      · rename_i hresumable
        rw [Bool.not_eq_true', Bool.not_eq_false] at hresumable
        have hstarted : started.outline = m.outline.modifyThread t fun th => { th with status := .running } :=
          outline_modifyThread m (by intro; rfl) t
        have hthread : started.outline.thread t = { m.outline.thread t with status := .running } := by
          rw [hstarted, Outline.thread_modifyThread_self _ _ _ hsetting.range]
        have hlater : started.outline.Setting scope t below ts := by
          rw [hstarted]
          exact hsetting.modifyThread ⟨hidle.counted, hidle.bounded⟩
        refine beginResumed_sound (m := started) hstack hlater ?_ ?_ ?_ floor _ args
        · rw [hthread]
        · rw [hthread]
          exact hidle.native
        · rw [hthread]
          have hrest := hidle.atRest
          have hth : th.status = (m.outline.thread t).status := hstatus
          rw [hth] at hresumable
          cases hcase : (m.outline.thread t).status with
          | initial =>
            rw [ThreadOutline.AtRest, hcase] at hrest
            exact Or.inl hrest
          | suspended =>
            rw [ThreadOutline.AtRest, hcase] at hrest
            exact Or.inr hrest
          | running | normal | endCall | dead =>
            rw [hcase] at hresumable
            cases hresumable

/-- What is no thread cannot be resumed. -/
theorem beginResume_of_le (h : m.threads.size ≤ t.index) (budget : Option Nat) (args : Values) :
    m.beginResume t budget args = (m, .error (.ofText "cannot resume dead coroutine")) := by
  unfold beginResume
  rw [thread_of_le h]
  rfl

/-- A resume from another thread begins soundly. -/
theorem Works.beginResumeFrom {acts : List Activation} (h : m.Works scope t acts below ts) (target : ThreadId)
    (wrapped : Bool) (args : Values) :
    (m.beginResumeFrom t target wrapped args).1.outline.Sound scope (m.beginResumeFrom t target wrapped args).2 := by
  have hprevious : (m.thread t).status = .running := by
    rw [← h.status, outline_thread]
    rfl
  unfold Machine.beginResumeFrom
  rw [hprevious]
  extract_lets previous waiting
  have hwaiting : waiting.outline = m.outline.withStack (.resumed t .running wrapped target :: (acts ++ below)) := by
    rw [← h.stack]
    rfl
  split
  · rw [hwaiting]
    exact .back rfl (h.setting.withStack _) h.under trivial
  · rename_i hfree
    rw [not_or] at hfree
    obtain ⟨hother, hapart⟩ : target ∉ t :: ts ∧ ¬scope.Occupies target := by
      rw [← not_or, ← m.isBusy_iff h.stack h.setting.below h.under target]
      exact hfree.2
    have hne : target ≠ t := hfree.1
    have hnormal : (waiting.setStatus t .normal).outline =
        waiting.outline.modifyThread t fun th => { th with status := .normal } :=
      outline_modifyThread waiting (by intro; rfl) t
    have hthread : (waiting.setStatus t .normal).outline.thread t = { m.outline.thread t with status := .normal } := by
      rw [hnormal, hwaiting, Outline.thread_modifyThread_self _ _ _ (h.setting.withStack _).range]
      rfl
    have hsetting : (waiting.setStatus t .normal).outline.Setting scope t below ts := by
      rw [hnormal, hwaiting]
      exact (h.setting.withStack _).modifyThread ⟨h.setting.fits.counted, h.setting.fits.bounded⟩
    have hstack : (waiting.setStatus t .normal).stack = .resumed t .running wrapped target :: (acts ++ below) := by
      rw [← h.stack]
      rfl
    by_cases hrange : target.index < m.threads.size
    · refine beginResume_sound hstack (hsetting.enter ?_ ?_ hother hapart ?_ wrapped) ?_ none args
      · rw [hthread]
      · rw [hthread]
        exact h.under
      · rw [hnormal, hwaiting]
        simpa using hrange
      · rw [hnormal, Outline.thread_modifyThread_of_ne _ _ _ hne]
        exact (h.setting.others target hother).idle hapart
    · rw [beginResume_of_le]
      · refine .back hstack hsetting ?_ trivial
        rw [hthread]
        exact h.under
      · rw [← outline_size, hnormal, hwaiting]
        simpa using Nat.not_lt.mp hrange

end Machine

end LuaMachine
