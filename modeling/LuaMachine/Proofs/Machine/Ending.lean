import LuaMachine.Proofs.Machine.Native
import LuaMachine.Machine.Step

namespace LuaMachine

variable {scope : Scope} {limits : Limits}

/-- A call from native code ends with the thread idle as it was before, or with the work that called. -/
theorem Segment.of_endCall {n : Nat} {t u : ThreadId} {starts hostReturn : Bool} {fs : List FrameOutline}
    {floor : Option Nat} {previous : Option Status} {held : Values} {acts : List Activation}
    (h : Segment scope limits t starts hostReturn fs n (.endCall u floor previous held :: acts)) :
    u = t ∧ (∀ n ∈ floor, n = fs.length) ∧
      ((∃ p, previous = some p ∧ acts = [] ∧ n = 1 ∧
          ThreadOutline.Idle scope limits.callDepth ⟨p, fs, fs.length, starts, hostReturn, 0⟩) ∨
        (previous = none ∧ ∃ k, n = k + 1 ∧ Segment scope limits t starts hostReturn fs k acts)) := by
  cases h with
  | visit hidle hfloor => exact ⟨rfl, hfloor, Or.inl ⟨_, rfl, rfl, rfl, hidle⟩⟩
  | call hfloor _ hbelow => exact ⟨rfl, hfloor, Or.inr ⟨rfl, _, rfl, hbelow⟩⟩
  | pass ha => cases ha

/-- Under a native start function is the end of the resume that began the thread. -/
theorem Segment.of_startedNative {n : Nat} {t u : ThreadId} {starts hostReturn : Bool} {fs : List FrameOutline}
    {held : Values} {acts : List Activation}
    (h : Segment scope limits t starts hostReturn fs n (.startedNative u held :: acts)) :
    u = t ∧ fs = [] ∧ starts = false ∧ (∃ floor held', acts = [.endResume t floor held']) ∧
      Segment scope limits t starts hostReturn fs n acts := by
  cases h with
  | started hstarts hhost => exact ⟨rfl, rfl, hstarts, ⟨_, _, rfl⟩, .resume hstarts hhost⟩
  | pass ha => cases ha

/-- Work that belongs to no thread's resume or call: it hands errors on, or is none of the thread's. -/
def Activation.Light : Activation → Prop
  | .interpret _ => False
  | .endCall .. => False
  | .endResume .. => False
  | .startedNative .. => False
  | _ => True

theorem Segment.of_light {n : Nat} {t : ThreadId} {starts hostReturn : Bool} {fs : List FrameOutline}
    {a : Activation} {acts : List Activation} (h : Segment scope limits t starts hostReturn fs n (a :: acts))
    (ha : a.Light) : a.Passes t ∧ Segment scope limits t starts hostReturn fs n acts := by
  cases h with
  | pass hpasses hbelow => exact ⟨hpasses, hbelow⟩
  | resume | visit | call | started | wait => cases ha

/-- Such work takes values or an error, and the thread goes on with what is below. -/
theorem Ready.of_light {t : ThreadId} {th : ThreadOutline} {a : Activation} {acts : List Activation}
    {s : Signal} (h : Ready scope limits t th (a :: acts) s) (ha : a.Light)
    (hinvoke : ∀ u id args, s ≠ .invoke u id args) :
    a.Passes t ∧ th.Under scope limits t th.frames acts ∧
      ((∃ vs, s = .values vs) ∨ ∃ e : Error, s = .error e ∧ e.Ordinary scope) := by
  have hpass {gs : List FrameOutline} (hacts : th.Under scope limits t gs (a :: acts)) :
      a.Passes t ∧ th.Under scope limits t gs acts := Segment.of_light hacts ha
  cases h with
  | go | pause => cases ha
  | invoke => exact absurd rfl (hinvoke _ _ _)
  | values hacts => exact ⟨(hpass hacts).1, (hpass hacts).2, Or.inl ⟨_, rfl⟩⟩
  | error he hframes habove hacts =>
    obtain rfl | ⟨-, hunwinds⟩ := habove
    · rw [List.nil_append] at hframes
      rw [hframes]
      exact ⟨(hpass hacts).1, (hpass hacts).2, Or.inr ⟨_, rfl, he⟩⟩
    · cases a <;> first | exact False.elim ha | exact False.elim hunwinds
  | yield _ _ htakes => cases a <;> first | exact False.elim ha | exact False.elim htakes

namespace Machine

variable {m m' : Machine} {t : ThreadId} {acts below : List Activation} {ts : List ThreadId} {s : Signal}
  {f : ThreadOutline → ThreadOutline}

/-- The thread at work comes to rest. -/
theorem sound_of_leave (hstack : m.stack = below) (hsetting : m.outline.Setting scope t below ts)
    (ho : m'.outline = m.outline.modifyThread t f) (hidle : (f (m.outline.thread t)).Idle scope m.limits.callDepth)
    (hs : s.IsOutcome scope) : m'.outline.Sound scope s := by
  have hthread : m'.outline.thread t = f (m.outline.thread t) := by
    rw [ho, Outline.thread_modifyThread_self _ _ _ hsetting.range]
  have hlater : m'.outline.Setting scope t below ts := by
    rw [ho]
    exact hsetting.modifyThread hidle.toFits
  have hlimits : m'.outline.limits = m.limits := by
    rw [ho]
    rfl
  have hsame : m'.outline.stack = below := by
    rw [ho]
    exact hstack
  have hleft := hlater.leave (by rwa [hthread, hlimits]) hs
  rwa [← hsame, Outline.withStack_stack] at hleft

/-- The thread at work goes on with what is below. -/
theorem sound_of_ready (hstack : m.stack = acts ++ below) (hsetting : m.outline.Setting scope t below ts)
    (ho : m'.outline = m.outline.modifyThread t f) (hfits : (f (m.outline.thread t)).Fits m.limits.callDepth)
    (hstatus : (f (m.outline.thread t)).status = .running)
    (hready : Ready scope m.limits t (f (m.outline.thread t)) acts s) : m'.outline.Sound scope s := by
  rw [ho]
  refine .working hstack (hsetting.modifyThread hfits) ?_ ?_
  · rw [Outline.thread_modifyThread_self _ _ _ hsetting.range, hstatus]
  · rw [Outline.thread_modifyThread_self _ _ _ hsetting.range]
    exact hready

/-- A call from native code ends with its values, or with an error that cuts the frames back. -/
theorem stepEndCall_spec {floor : Option Nat} (previous : Option Status) {above fs : List FrameOutline}
    (hcount : (m.outline.thread t).Counted) (hrange : t.index < m.threads.size)
    (hframes : (m.outline.thread t).frames = above ++ fs) (hfloor : ∀ n ∈ floor, n = fs.length)
    (hs : (∃ vs, s = .values vs) ∧ above = [] ∨ (∃ e, s = .error e) ∧ (above = [] ∨ floor.isSome)) :
    (m.stepEndCall t floor previous s).2 = s ∧
      (m.stepEndCall t floor previous s).1.outline = m.outline.modifyThread t fun th => { th with
        status := previous.getD th.status
        frames := fs
        depth := fs.length
        nativeDepth := th.nativeDepth - 1 } := by
  have hsame (habove : above = []) : m.outline = m.outline.setFrames t fs := by
    rw [habove, List.nil_append] at hframes
    rw [← hframes, Outline.setFrames_of_eq _ _ hcount]
  have hended {unwound : Machine} (hunwound : unwound.outline = m.outline.setFrames t fs) :
      (unwound.modifyThread t fun th => { th with
        nativeDepth := th.nativeDepth - 1
        status := previous.getD th.status }).outline = m.outline.modifyThread t fun th => { th with
          status := previous.getD th.status
          frames := fs
          depth := fs.length
          nativeDepth := th.nativeDepth - 1 } := by
    rw [outline_modifyThread (g := fun th => { th with
      nativeDepth := th.nativeDepth - 1
      status := previous.getD th.status }) _ (by intro; rfl), hunwound, Outline.setFrames,
      Outline.modifyThread_modifyThread]
    rfl
  obtain ⟨⟨vs, rfl⟩, habove⟩ | ⟨⟨e, rfl⟩, habove⟩ := hs
  · exact ⟨rfl, hended (hsame habove)⟩
  · cases floor with
    | none =>
      refine ⟨rfl, hended (hsame ?_)⟩
      simpa using habove
    | some n =>
      refine ⟨rfl, hended ?_⟩
      rw [outline_unwind hcount hrange, hframes, hfloor n rfl, List.length_append, Nat.add_sub_cancel, List.drop_left]

/-- A call from native code ends: the thread goes on with what called it, or is idle again as it was before. -/
theorem stepEndCall_sound {floor : Option Nat} {previous : Option Status} {held : Values}
    {above fs : List FrameOutline} (hstack : m.stack = acts ++ below) (hsetting : m.outline.Setting scope t below ts)
    (hstatus : (m.outline.thread t).status = .running) (hframes : (m.outline.thread t).frames = above ++ fs)
    (hacts : (m.outline.thread t).Under scope m.limits t fs (.endCall t floor previous held :: acts))
    (hs : (∃ vs, s = .values vs) ∧ above = [] ∨
      (∃ e : Error, s = .error e ∧ e.Ordinary scope) ∧ (above = [] ∨ floor.isSome)) :
    (m.stepEndCall t floor previous s).1.outline.Sound scope (m.stepEndCall t floor previous s).2 := by
  have houtcome : s.IsOutcome scope := by
    obtain ⟨⟨vs, rfl⟩, -⟩ | ⟨⟨e, rfl, he⟩, -⟩ := hs
    · trivial
    · exact he
  have hkind : (∃ vs, s = .values vs) ∧ above = [] ∨ (∃ e, s = .error e) ∧ (above = [] ∨ floor.isSome) :=
    hs.imp_right fun ⟨⟨e, hse, _⟩, habove⟩ => ⟨⟨e, hse⟩, habove⟩
  have hspec (hfloor : ∀ n ∈ floor, n = fs.length) :=
    stepEndCall_spec previous hsetting.fits.counted (by simpa using hsetting.range) hframes hfloor hkind
  have hbound : fs.length ≤ m.limits.callDepth := by
    have hall := hsetting.fits.bounded
    rw [hframes, List.length_append] at hall
    exact Nat.le_of_add_left_le hall
  obtain ⟨-, hfloor, ⟨p, rfl, rfl, hnative, hidle⟩ | ⟨rfl, n, hnative, hbelow⟩⟩ := Segment.of_endCall hacts
  · obtain ⟨hsignal, houtline⟩ := hspec hfloor
    rw [hsignal]
    refine sound_of_leave hstack hsetting houtline ?_ houtcome
    rw [hnative]
    exact hidle
  · obtain ⟨hsignal, houtline⟩ := hspec hfloor
    rw [hsignal]
    refine sound_of_ready hstack hsetting houtline ⟨rfl, hbound⟩ hstatus ?_
    have hunder : ThreadOutline.Under scope m.limits t
        { m.outline.thread t with
          frames := fs
          depth := fs.length
          nativeDepth := (m.outline.thread t).nativeDepth - 1 } fs acts := by
      rw [ThreadOutline.Under, hnative]
      exact hbelow
    obtain ⟨⟨vs, rfl⟩, -⟩ | ⟨⟨e, rfl, he⟩, -⟩ := hs
    · exact .values hunder
    · exact .errorHere he hunder

/-- Cutting back the frames of a thread and setting its status. -/
theorem outline_setStatus_unwind (hcount : (m.outline.thread t).Counted) (hrange : t.index < m.threads.size)
    (floor : Nat) (status : Status) :
    ((m.unwind t floor).setStatus t status).outline = m.outline.modifyThread t fun th => { th with
      status
      frames := (m.outline.thread t).frames.drop ((m.outline.thread t).frames.length - floor)
      depth := ((m.outline.thread t).frames.drop ((m.outline.thread t).frames.length - floor)).length } := by
  rw [setStatus, outline_modifyThread (g := fun th => { th with status }) _ (by intro; rfl),
    outline_unwind hcount hrange, Outline.setFrames, Outline.modifyThread_modifyThread]
  rfl

theorem stepEndCall_ready_sound {u : ThreadId} {floor : Option Nat} {previous : Option Status} {held : Values}
    (hstack : m.stack = acts ++ below) (hsetting : m.outline.Setting scope t below ts)
    (hstatus : (m.outline.thread t).status = .running)
    (hready : Ready scope m.limits t (m.outline.thread t) (.endCall u floor previous held :: acts) s)
    (hinvoke : ∀ u id args, s ≠ .invoke u id args) :
    (m.stepEndCall u floor previous s).1.outline.Sound scope (m.stepEndCall u floor previous s).2 := by
  cases hready with
  | invoke => exact absurd rfl (hinvoke _ _ _)
  | values hacts =>
    obtain ⟨rfl, -⟩ := Segment.of_endCall hacts
    exact stepEndCall_sound hstack hsetting hstatus (List.nil_append _).symm hacts (Or.inl ⟨⟨_, rfl⟩, rfl⟩)
  | error he hframes habove hacts =>
    obtain ⟨rfl, -⟩ := Segment.of_endCall hacts
    refine stepEndCall_sound hstack hsetting hstatus hframes hacts (Or.inr ⟨⟨_, rfl, he⟩, habove.imp_right ?_⟩)
    rintro ⟨-, hunwinds⟩
    cases floor with
    | none => cases hunwinds
    | some n => rfl
  | yield _ _ htakes => cases htakes

/-- A resume that failed leaves the frames that were there before it, and the thread dead if there were none. -/
theorem stepEndResume_error_sound {floor : Nat} {e : Error} (hstack : m.stack = below)
    (hsetting : m.outline.Setting scope t below ts) (hstarts : (m.outline.thread t).starts = false)
    (hnative : (m.outline.thread t).nativeDepth = 0)
    (hframes : (m.outline.thread t).frames = [] ∨ Band (m.outline.thread t).frames) (he : e.Ordinary scope) :
    (m.stepEndResume t floor (.error e)).1.outline.Sound scope (m.stepEndResume t floor (.error e)).2 := by
  have hrange : t.index < m.threads.size := by simpa using hsetting.range
  have hdead : ((m.unwind t 0).setStatus t .dead).outline.Sound scope (.error e) := by
    refine sound_of_leave hstack hsetting (outline_setStatus_unwind hsetting.fits.counted hrange 0 .dead) ?_ he
    rw [Nat.sub_zero, List.drop_length]
    exact ⟨⟨rfl, Nat.zero_le _⟩, hnative, hstarts, rfl⟩
  cases e with
  | yield => cases he
  | fatal => exact hdead
  | raised r =>
    have hunwound := outline_unwind hsetting.fits.counted hrange floor
    have hthread : ((m.unwind t floor).outline.thread t) = { m.outline.thread t with
        frames := (m.outline.thread t).frames.drop ((m.outline.thread t).frames.length - floor)
        depth := ((m.outline.thread t).frames.drop ((m.outline.thread t).frames.length - floor)).length } := by
      rw [hunwound, Outline.thread_setFrames _ _ _ hsetting.range]
    have hdepth := depth_eq (show ((m.unwind t floor).outline.thread t).Counted by rw [hthread]; rfl)
    rw [hthread] at hdepth
    unfold stepEndResume
    dsimp only
    rw [hdepth]
    refine sound_of_leave hstack hsetting (outline_setStatus_unwind hsetting.fits.counted hrange floor _) ?_ he
    generalize hleft : (m.outline.thread t).frames.drop ((m.outline.thread t).frames.length - floor) = left
    have hband : left = [] ∨ Band left := by
      obtain hnil | hband := hframes
      · rw [hnil, List.drop_nil] at hleft
        exact Or.inl hleft.symm
      · rw [← hleft]
        exact hband.drop _
    have hbound : left.length ≤ m.limits.callDepth := by
      rw [← hleft, List.length_drop]
      exact Nat.le_trans (Nat.sub_le _ _) hsetting.fits.bounded
    refine ⟨⟨rfl, hbound⟩, hnative, ?_⟩
    obtain rfl | hband := hband
    · exact ⟨hstarts, rfl⟩
    · rw [if_neg (by simpa using hband.ne_nil)]
      exact ⟨hstarts, hband⟩

/-- A resume ends: the thread is dead, or waits for the next resume, or keeps the frames of a host call. -/
theorem stepEndResume_sound {u : ThreadId} {floor : Nat} {held : Values} (hstack : m.stack = acts ++ below)
    (hsetting : m.outline.Setting scope t below ts)
    (hready : Ready scope m.limits t (m.outline.thread t) (.endResume u floor held :: acts) s)
    (hinvoke : ∀ u id args, s ≠ .invoke u id args) :
    (m.stepEndResume u floor s).1.outline.Sound scope (m.stepEndResume u floor s).2 := by
  have hset (status : Status) :
      (m.setStatus t status).outline = m.outline.modifyThread t fun th => { th with status } :=
    outline_modifyThread m (by intro; rfl) t
  cases hready with
  | invoke => exact absurd rfl (hinvoke _ _ _)
  | values hacts =>
    obtain ⟨rfl, hstarts, -, hframes, hnative, rfl⟩ := Segment.of_endResume hacts
    exact sound_of_leave hstack hsetting (hset .dead)
      ⟨⟨hsetting.fits.counted, hsetting.fits.bounded⟩, hnative, hstarts, hframes⟩ trivial
  | error he hframes habove hacts =>
    obtain ⟨rfl, hstarts, -, rfl, hnative, rfl⟩ := Segment.of_endResume hacts
    rw [List.append_nil] at hframes
    refine stepEndResume_error_sound hstack hsetting hstarts hnative ?_ he
    rw [hframes]
    exact habove.imp_right And.left
  | yield _ _ htakes => cases htakes
  | pause hs hidle =>
    obtain rfl | ⟨vs, rfl⟩ := hs <;> exact sound_of_leave hstack hsetting (hset .suspended) hidle trivial

theorem stepStartedNative_error {e : Error} (he : e.Ordinary scope) (t : ThreadId) :
    m.stepStartedNative t (.error e) = (m, .error ((m.thread t).attachTrace e)) := by
  cases e with
  | yield => cases he
  | raised | fatal => rfl

/-- A native start function ends: a yield leaves its results to the next resume. -/
theorem stepStartedNative_sound {u : ThreadId} {held : Values} (hstack : m.stack = acts ++ below)
    (hsetting : m.outline.Setting scope t below ts) (hstatus : (m.outline.thread t).status = .running)
    (hready : Ready scope m.limits t (m.outline.thread t) (.startedNative u held :: acts) s)
    (hinvoke : ∀ u id args, s ≠ .invoke u id args) :
    (m.stepStartedNative u s).1.outline.Sound scope (m.stepStartedNative u s).2 := by
  cases hready with
  | invoke => exact absurd rfl (hinvoke _ _ _)
  | values hacts =>
    obtain ⟨-, -, -, -, hbelow⟩ := Segment.of_startedNative hacts
    exact .working hstack hsetting hstatus (.values hbelow)
  | error he hframes habove hacts =>
    obtain ⟨-, hempty, -, -, hbelow⟩ := Segment.of_startedNative hacts
    obtain rfl | ⟨-, hnot⟩ := habove
    · rw [List.nil_append] at hframes
      rw [← hframes] at hbelow
      rw [stepStartedNative_error he]
      exact .working hstack hsetting hstatus (.errorHere (he.attachTrace _) hbelow)
    · cases hnot
  | yield hacts hnative htakes =>
    obtain ⟨rfl, hempty, hstarts, ⟨floor, held', rfl⟩, -⟩ := Segment.of_startedNative hacts
    have ho : (m.stepStartedNative u (.error .yield)).1.outline =
        m.outline.modifyThread u fun th => { th with hostReturnPending := true } := by
      refine Eq.trans (outline_modifyThread (m.takeYielded u).1
        (g := fun th => { th with hostReturnPending := true }) (by intro; rfl) u) ?_
      rw [outline_takeYielded]
    refine sound_of_ready hstack hsetting ho ⟨hsetting.fits.counted, hsetting.fits.bounded⟩ hstatus
      (.pause (Or.inr ⟨_, rfl⟩) ?_)
    exact ⟨⟨hsetting.fits.counted, hsetting.fits.bounded⟩, hnative, hstarts, Or.inr ⟨hempty, rfl⟩⟩

/-- A thread takes the outcome of the thread that it resumed. -/
theorem stepResumed_sound (hstack : m.stack = acts ++ below) (hsetting : m.outline.Setting scope t below ts)
    (hacts : (m.outline.thread t).Under scope m.limits t (m.outline.thread t).frames acts) (hs : s.IsOutcome scope)
    (wrapped : Bool) :
    (m.stepResumed t .running wrapped s).1.outline.Sound scope (m.stepResumed t .running wrapped s).2 := by
  have hset : (m.setStatus t .running).outline = m.outline.modifyThread t fun th => { th with status := .running } :=
    outline_modifyThread m (by intro; rfl) t
  have hvalues (vs : Values) : (m.setStatus t .running).outline.Sound scope (.values vs) :=
    sound_of_ready hstack hsetting hset ⟨hsetting.fits.counted, hsetting.fits.bounded⟩ rfl (.values hacts)
  have herror {e : Error} (he : e.Ordinary scope) : (m.setStatus t .running).outline.Sound scope (.error e) :=
    sound_of_ready hstack hsetting hset ⟨hsetting.fits.counted, hsetting.fits.bounded⟩ rfl (.errorHere he hacts)
  cases s with
  | go | invoke => cases hs
  | values | yielded | frameLimit | sleeping => exact hvalues _
  | error e =>
    cases e with
    | yield => cases hs
    | fatal => exact herror hs
    | raised r =>
      unfold stepResumed
      dsimp only
      split
      · split <;> exact herror trivial
      · exact hvalues _

/-- Work takes whatever signal it may take. -/
theorem resumeWork_sound {a : Activation} (hstack : m.stack = a :: (acts ++ below))
    (hsetting : m.outline.Setting scope t below ts) (hstatus : (m.outline.thread t).status = .running)
    (hready : Ready scope m.limits t (m.outline.thread t) (a :: acts) s)
    (hinvoke : ∀ u id args, s ≠ .invoke u id args) :
    (m.resumeWork a (acts ++ below) s).1.outline.Sound scope (m.resumeWork a (acts ++ below) s).2 := by
  set left : Machine := { m with stack := acts ++ below } with hleft
  have hlater : left.outline.Setting scope t below ts := hsetting.withStack _
  have hworks (ha : a.Light) := hready.of_light ha hinvoke
  cases a with
  | interpret i => exact interpret_sound hstack hsetting hstatus hready hinvoke
  | endResume u floor held => exact stepEndResume_sound (m := left) rfl hlater hready hinvoke
  | startedNative u held => exact stepStartedNative_sound (m := left) rfl hlater hstatus hready hinvoke
  | endCall u floor previous held => exact stepEndCall_ready_sound (m := left) rfl hlater hstatus hready hinvoke
  | protect =>
    obtain ⟨-, hunder, hs⟩ := hworks trivial
    have h : left.Works scope t acts below ts := ⟨rfl, hlater, hstatus, hunder⟩
    obtain ⟨vs, rfl⟩ | ⟨e, rfl, he⟩ := hs
    · exact h.values _
    · cases e with
      | yield => cases he
      | raised => exact h.values _
      | fatal => exact h.fails he
  | read reading =>
    obtain ⟨-, hunder, hs⟩ := hworks trivial
    have h : left.Works scope t acts below ts := ⟨rfl, hlater, hstatus, hunder⟩
    obtain ⟨vs, rfl⟩ | ⟨e, rfl, he⟩ := hs
    · exact h.values _
    · exact h.fails he
  | concat u reversed held =>
    obtain ⟨rfl, hunder, hs⟩ := hworks trivial
    have h : left.Works scope u acts below ts := ⟨rfl, hlater, hstatus, hunder⟩
    obtain ⟨vs, rfl⟩ | ⟨e, rfl, he⟩ := hs
    · exact h.continueJoin _ held
    · exact h.fails he
  | print u shown args =>
    obtain ⟨rfl, hunder, hs⟩ := hworks trivial
    have h : left.Works scope u acts below ts := ⟨rfl, hlater, hstatus, hunder⟩
    obtain ⟨vs, rfl⟩ | ⟨e, rfl, he⟩ := hs
    · show (left.stepPrint u shown args vs).1.outline.Sound scope (left.stepPrint u shown args vs).2
      unfold stepPrint
      split
      · exact h.continuePrint args _ _
      · exact h.error (left.isRaised_errorHere u _)
    · exact h.fails he
  | resumed | forget | tick | groupSize | updateGroups =>
    obtain ⟨hnot, -⟩ := hworks trivial
    cases hnot

end Machine

end LuaMachine
