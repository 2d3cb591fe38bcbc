import LuaMachine.Proofs.Machine.Resuming

namespace LuaMachine

variable {scope : Scope} {limits : Limits}

theorem Stands.congr {t : ThreadId} {i j : Interpreter} {fs : List FrameOutline} {acts : List Activation}
    (h : Stands t i fs acts) (hfloor : j.floor = i.floor) (hlimit : j.limit = i.limit) : Stands t j fs acts := by
  cases h with
  | onResume hown => exact .onResume (hfloor.trans hown)
  | onCall hown hnone => exact .onCall (hfloor.trans hown) (hlimit.trans hnone)

theorem Stands.unwinds {t : ThreadId} {i : Interpreter} {fs : List FrameOutline} {acts : List Activation}
    (h : Stands t i fs acts) : Unwinds acts := by
  cases h <;> trivial

theorem Stands.floor_eq {t : ThreadId} {i : Interpreter} {fs : List FrameOutline} {acts : List Activation}
    (h : Stands t i fs acts) : i.floor = fs.length := by
  cases h <;> assumption

/-- Under the end of a resume there is nothing left to do on the thread. -/
theorem Segment.of_endResume {n floor : Nat} {t u : ThreadId} {starts hostReturn : Bool}
    {fs : List FrameOutline} {held : Values} {acts : List Activation}
    (h : Segment scope limits t starts hostReturn fs n (.endResume u floor held :: acts)) :
    u = t ∧ starts = false ∧ hostReturn = false ∧ fs = [] ∧ n = 0 ∧ acts = [] := by
  cases h with
  | resume hstarts hhost => exact ⟨rfl, hstarts, hhost, rfl, rfl, rfl⟩
  | pass ha => cases ha

/-- A call from native code is counted. -/
theorem Segment.native_ne_zero {n : Nat} {t u : ThreadId} {starts hostReturn : Bool} {fs : List FrameOutline}
    {floor : Option Nat} {previous : Option Status} {held : Values} {acts : List Activation}
    (h : Segment scope limits t starts hostReturn fs n (.endCall u floor previous held :: acts)) : n ≠ 0 := by
  cases h with
  | visit => exact Nat.one_ne_zero
  | call => exact Nat.succ_ne_zero _
  | pass ha => cases ha

/-- A thread can pause only in a resume with nothing below: an interpreter that stands on a call from native code has
no limit, and no native function yields in one. -/
theorem Stands.ready_pause {t : ThreadId} {th : ThreadOutline} {i : Interpreter} {fs gs : List FrameOutline}
    {acts : List Activation} (h : Stands t i fs acts) (hacts : th.Under scope limits t fs acts)
    (hcause : i.limit ≠ none ∨ th.nativeDepth = 0) (hpaused : Paused gs) (hbound : (gs ++ fs).length ≤ limits.callDepth)
    {s : Signal} (hs : s = .frameLimit ∨ ∃ vs, s = .yielded vs) :
    Ready scope limits t { th with frames := gs ++ fs, depth := (gs ++ fs).length } acts s := by
  cases h with
  | onResume hfloor =>
    obtain ⟨-, hstarts, hhost, -, hnative, rfl⟩ := Segment.of_endResume hacts
    rw [List.append_nil] at hbound ⊢
    exact .pause hs ⟨⟨rfl, hbound⟩, hnative, hstarts, Or.inl ⟨hpaused, hhost⟩⟩
  | onCall hfloor hlimit =>
    rcases hcause with hlimited | hzero
    · exact absurd hlimit hlimited
    · exact absurd hzero (Segment.native_ne_zero hacts)

/-- The trace that an error gets on its way does not make it another kind of error. -/
theorem Error.Ordinary.attachTrace {e : Error} (he : e.Ordinary scope) (th : Thread) :
    (th.attachTrace e).Ordinary scope := by
  unfold Thread.attachTrace
  split
  · trivial
  · split <;> trivial
  · exact he

namespace Machine.Runs

variable {m : Machine} {t : ThreadId} {i : Interpreter} {band fs : List FrameOutline}

/-- The values that an instruction waited for reach it. -/
theorem settle (h : m.Runs t i band fs) (w : Window) (vs : Values) {sequel : Sequel} (hsequel : sequel.Sound) :
    Concludes scope t i fs m.outline (m.settle i w vs sequel).1.outline (m.settle i w vs sequel).2 := by
  obtain rfl := h.thread
  cases sequel with
  | discard | store | branch => exact .goOn rfl
  | leave => exact h.finishReturn vs
  | deliver target held =>
    obtain ⟨hgo, hsame⟩ := deliver_spec h.frames_ne_nil hsequel vs
    have hpair : m.deliver i.thread target vs = ((m.deliver i.thread target vs).1, .go) := by rw [← hgo]
    unfold Machine.settle
    dsimp only
    rw [hpair]
    dsimp only
    split <;> exact .goOn hsame

/-- A yield leaves the call pending on the innermost frame. -/
theorem suspend (h : m.Runs t i band fs) (hnative : (m.outline.thread t).nativeDepth = 0)
    {pending : Frame → PendingCall}
    (htarget : ∀ top, (pending top).tail = false → (pending top).target.continuation ≠ .host) :
    Concludes scope t i fs m.outline (m.suspend t pending).1.outline (m.suspend t pending).2 := by
  obtain ⟨f, rest, rfl, hnone, hframes⟩ := h.exists_cons
  obtain ⟨top, htop, rfl⟩ := Machine.exists_topFrame hframes
  have houtline := outline_modifyTop_eq (f := fun fr => { fr with pending := some (pending top) })
    (g := fun fr => { fr with pending := some (pending top) }) (by intro; rfl) h.fits.counted hframes
  have hband := h.band
  unfold Machine.suspend
  rw [htop]
  refine .yielded (show Paused ({ top.outline with pending := some (pending top) } :: rest) from ⟨?_, ?_⟩) hnative ?_ ?_
  · rwa [← hnone]
  · rintro p hp
    cases hp
    exact htarget top
  · exact h.bounded
  · exact (outline_takeYielded _ t).trans houtline

theorem concludes_interrupted {e : Error} (he : e.Ordinary scope) (sequel : Sequel) :
    Concludes scope t i fs m.outline (m.interrupted i (.error e) sequel).1.outline
      (m.interrupted i (.error e) sequel).2 := by
  have hstop : m.interrupted i (.error e) sequel = (m, .stop (.error e)) := by
    cases e with
    | yield => cases he
    | raised | fatal => cases sequel <;> rfl
  rw [hstop]
  exact .fail rfl he

/-- A yield suspends the frame that called the native function. -/
theorem interrupted_yield (h : m.Runs t i band fs) (hnative : (m.outline.thread t).nativeDepth = 0) {sequel : Sequel}
    (hsequel : sequel.Sound) (htakes : sequel.TakesYield) :
    Concludes scope t i fs m.outline (m.interrupted i (.error .yield) sequel).1.outline
      (m.interrupted i (.error .yield) sequel).2 := by
  obtain rfl := h.thread
  cases sequel with
  | discard | store | branch => cases htakes
  | deliver target => exact h.suspend hnative fun _ _ => hsequel
  | leave => exact h.suspend hnative fun _ htail => nomatch htail

end Machine.Runs

/-- An interpreter of a running thread is at work, with the frames `fs` and the work `acts` of the thread below
it, and the surroundings are in order. -/
structure Machine.Interprets (scope : Scope) (m : Machine) (t : ThreadId) (i : Interpreter)
    (band fs : List FrameOutline) (acts below : List Activation) (ts : List ThreadId) : Prop
    extends Machine.Runs m t i band fs where
  stack : m.stack.tail = acts ++ below
  setting : m.outline.Setting scope t below ts
  status : (m.outline.thread t).status = .running
  stands : Stands t i fs acts
  under : (m.outline.thread t).Under scope m.limits t fs acts

namespace Machine.Interprets

variable {m m' : Machine} {t : ThreadId} {i : Interpreter} {band fs : List FrameOutline}
  {acts below : List Activation} {ts : List ThreadId}

/-- The interpreter waits, and the work above it may go on. -/
theorem waits (h : m.Interprets scope t i band fs acts below ts) (ho : m'.outline = m.outline) (w : Window)
    {sequel : Sequel} (hsequel : sequel.Sound) :
    (m'.replaceTop (.interpret { i with stage := .waiting w sequel })).Works scope t
      (.interpret { i with stage := .waiting w sequel } :: acts) below ts := by
  have hlimits : m'.limits = m.limits := congrArg Outline.limits ho
  have hstack : m'.stack = m.stack := congrArg Outline.stack ho
  refine ⟨?_, ?_, ?_, ?_⟩
  · rw [replaceTop, hstack, h.stack]
    rfl
  · rw [outline_replaceTop, ho]
    exact h.setting.withStack _
  · rw [outline_replaceTop, ho]
    exact h.status
  · rw [outline_replaceTop, ho, Outline.thread_withStack, h.frames]
    have hwait := Segment.wait (w := w) (i := { i with stage := .waiting w sequel }) h.thread rfl hsequel h.band
      (h.stands.congr rfl rfl) h.under
    exact hlimits ▸ hwait

/-- The thread may be left with other frames and other work. -/
theorem sound_of_ready (h : m.Interprets scope t i band fs acts below ts) {gs : List FrameOutline}
    (hbound : gs.length ≤ m.limits.callDepth) (ho : m'.outline = m.outline.setFrames t gs) {new : List Activation}
    {s : Signal}
    (hready : Ready scope m.limits t { m.outline.thread t with frames := gs, depth := gs.length } new s) :
    (m'.outline.withStack (new ++ below)).Sound scope s := by
  have hthread := m.outline.thread_setFrames t gs h.setting.range
  rw [ho]
  refine .working rfl ((h.setting.setFrames hbound).withStack _) ?_ ?_
  · rw [Outline.thread_withStack, hthread]
    exact h.status
  · rw [Outline.thread_withStack, hthread]
    exact hready

theorem outline_eq (h : m.Interprets scope t i band fs acts below ts) :
    m.outline = m.outline.setFrames t (band ++ fs) := by
  rw [← h.frames, Outline.setFrames_of_eq _ _ h.fits.counted]

/-- Where the interpreter is does not matter for what it runs. -/
theorem replaceTop (h : m.Interprets scope t i band fs acts below ts) (stage : Stage) :
    (m.replaceTop (.interpret { i with stage })).Interprets scope t { i with stage } band fs acts below ts :=
  ⟨⟨h.thread, h.range, h.fits, h.frames, h.band, h.floor⟩, h.stack, h.setting.withStack _, h.status,
    h.stands.congr rfl rfl, h.under⟩

/-- The interpreter goes on with the frames `gs`. -/
theorem go_sound (h : m.Interprets scope t i band fs acts below ts) {gs : List FrameOutline} (hband : Band gs)
    (hbound : (gs ++ fs).length ≤ m.limits.callDepth) (ho : m'.outline = m.outline.setFrames t (gs ++ fs))
    {stage : Stage} (hstage : ∀ w sequel, stage ≠ .waiting w sequel) :
    (m'.replaceTop (.interpret { i with stage })).outline.Sound scope .go := by
  have hstack : m'.stack.tail = acts ++ below := by
    rw [← h.stack]
    exact congrArg (fun o => o.stack.tail) ho
  rw [outline_replaceTop, hstack]
  have hready : Ready scope m.limits t { m.outline.thread t with frames := gs ++ fs, depth := (gs ++ fs).length }
      (.interpret { i with stage } :: acts) .go :=
    .go h.thread hstage hband (h.stands.congr rfl rfl) rfl h.under
  exact h.sound_of_ready hbound ho hready

/-- The interpreter is done. -/
theorem stop_sound (h : m.Interprets scope t i band fs acts below ts) {gs : List FrameOutline}
    (hbound : gs.length ≤ m.limits.callDepth) (ho : m'.outline = m.outline.setFrames t gs) {s : Signal}
    (hready : Ready scope m.limits t { m.outline.thread t with frames := gs, depth := gs.length } acts s) :
    m'.pop.outline.Sound scope s := by
  have hstack : m'.stack.tail = acts ++ below := by
    rw [← h.stack]
    exact congrArg (fun o => o.stack.tail) ho
  rw [outline_pop, hstack]
  exact h.sound_of_ready hbound ho hready

/-- However an instruction ends, the work that it leaves is in order. -/
theorem conclude_sound (h : m.Interprets scope t i band fs acts below ts) {ending : Ending}
    (hending : Concludes scope t i fs m.outline m'.outline ending) (w : Window) :
    (m'.conclude i w ending).1.outline.Sound scope (m'.conclude i w ending).2 := by
  obtain rfl := h.thread
  cases hending with
  | goOn ho => exact h.go_sound h.band h.bounded (ho.trans h.outline_eq) (fun _ _ hstage => nomatch hstage)
  | enter hband hbound ho => exact h.go_sound hband hbound ho (fun _ _ hstage => nomatch hstage)
  | handle ho hsequel => exact (h.waits ho w hsequel).callHandler _ _
  | join ho hsequel => exact (h.waits ho w hsequel).continueJoin _ _
  | invoke ho hsequel htakes =>
    have hworks := h.waits ho w hsequel
    exact .working hworks.stack hworks.setting hworks.status
      (.invoke hworks.under (fun _ => ⟨w, _, rfl, htakes⟩))
  | fail ho he =>
    exact h.stop_sound h.bounded (ho.trans h.outline_eq)
      (.error (he.attachTrace _) rfl (Or.inr ⟨h.band, h.stands.unwinds⟩) h.under)
  | values ho =>
    have hbound := h.bounded
    rw [List.length_append] at hbound
    exact h.stop_sound (by omega) ho (.values h.under)
  | frameLimit ho hlimit =>
    exact h.stop_sound h.bounded (ho.trans h.outline_eq)
      (h.stands.ready_pause h.under (Or.inl hlimit) h.band.paused h.bounded (Or.inl rfl))
  | yielded hpaused hnative hbound ho =>
    exact h.stop_sound hbound ho
      (h.stands.ready_pause h.under (Or.inr hnative) hpaused hbound (Or.inr ⟨_, rfl⟩))

end Machine.Interprets

/-- An interpreter with work above it waits for that. -/
theorem Segment.of_interpret {n : Nat} {t : ThreadId} {starts hostReturn : Bool} {gs : List FrameOutline}
    {i : Interpreter} {acts : List Activation}
    (h : Segment scope limits t starts hostReturn gs n (.interpret i :: acts)) :
    ∃ w sequel band fs, i.thread = t ∧ i.stage = .waiting w sequel ∧ sequel.Sound ∧ Band band ∧ Stands t i fs acts ∧
      Segment scope limits t starts hostReturn fs n acts ∧ gs = band ++ fs := by
  cases h with
  | pass ha => cases ha
  | wait hthread hstage hsequel hband hstands hbelow =>
    exact ⟨_, _, _, _, hthread, hstage, hsequel, hband, hstands, hbelow, rfl⟩

namespace Machine

variable {m : Machine} {t : ThreadId} {i : Interpreter} {acts below : List Activation} {ts : List ThreadId}

/-- An interpreter that enters looks up the innermost frame and runs its next instruction. -/
theorem enter_eq {top : Frame} (htop : m.topFrame? i.thread = some top) :
    m.enter i = (m.replaceTop (.interpret { i with stage := .running ⟨top.closure, top.file, top.pc⟩ })).advance
      { i with stage := .running ⟨top.closure, top.file, top.pc⟩ } ⟨top.closure, top.file, top.pc⟩ := by
  unfold enter
  rw [htop]
  rfl

/-- An interpreter at rest runs its next instruction. -/
theorem Interprets.advance_sound {band fs : List FrameOutline} (h : m.Interprets scope t i band fs acts below ts)
    (w : Window) : (m.advance i w).1.outline.Sound scope (m.advance i w).2 :=
  h.conclude_sound (h.toRuns.execute w) _

theorem Works.interprets (h : m.Works scope t (.interpret i :: acts) below ts) :
    ∃ w sequel band fs, i.stage = .waiting w sequel ∧ sequel.Sound ∧ m.Interprets scope t i band fs acts below ts := by
  obtain ⟨w, sequel, band, fs, hthread, hstage, hsequel, hband, hstands, hbelow, hframes⟩ :=
    Segment.of_interpret h.under
  have hruns : m.Runs t i band fs :=
    ⟨hthread, by simpa using h.setting.range, h.setting.fits, hframes, hband, hstands.floor_eq⟩
  refine ⟨w, sequel, band, fs, hstage, hsequel, hruns, ?_, h.setting, h.status, hstands, hbelow⟩
  rw [h.stack]
  rfl

/-- An interpreter takes whatever signal it may take. -/
theorem interpret_sound {s : Signal} (hstack : m.stack = .interpret i :: (acts ++ below))
    (hsetting : m.outline.Setting scope t below ts) (hstatus : (m.outline.thread t).status = .running)
    (hready : Ready scope m.limits t (m.outline.thread t) (.interpret i :: acts) s)
    (hinvoke : ∀ u id args, s ≠ .invoke u id args) : (m.interpret i s).1.outline.Sound scope (m.interpret i s).2 := by
  unfold interpret
  cases hready with
  | go hthread hstage hband hstands hframes hbelow =>
    have hruns : m.Runs t i _ _ :=
      ⟨hthread, by simpa using hsetting.range, hsetting.fits, hframes, hband, hstands.floor_eq⟩
    have h : m.Interprets scope t i _ _ acts below ts :=
      ⟨hruns, by rw [hstack]; rfl, hsetting, hstatus, hstands, hbelow⟩
    cases hcase : i.stage with
    | entering =>
      obtain ⟨top, htop⟩ := h.exists_topFrame
      dsimp only
      rw [enter_eq (hthread ▸ htop)]
      exact (h.replaceTop _).advance_sound _
    | running w => exact h.advance_sound w
    | waiting w sequel => exact absurd hcase (hstage w sequel)
  | invoke => exact absurd rfl (hinvoke _ _ _)
  | values hacts =>
    have hworks : m.Works scope t (.interpret i :: acts) below ts := ⟨hstack, hsetting, hstatus, hacts⟩
    obtain ⟨w, sequel, band, fs, hstage, hsequel, h⟩ := hworks.interprets
    rw [hstage]
    exact h.conclude_sound (h.toRuns.settle w _ hsequel) w
  | error he hframes habove hacts =>
    obtain rfl | ⟨-, hnot⟩ := habove
    · rw [List.nil_append] at hframes
      rw [← hframes] at hacts
      have hworks : m.Works scope t (.interpret i :: acts) below ts := ⟨hstack, hsetting, hstatus, hacts⟩
      obtain ⟨w, sequel, band, fs, hstage, hsequel, h⟩ := hworks.interprets
      rw [hstage]
      exact h.conclude_sound (Runs.concludes_interrupted he sequel) w
    · cases hnot
  | yield hacts hnative htakes =>
    have hworks : m.Works scope t (.interpret i :: acts) below ts := ⟨hstack, hsetting, hstatus, hacts⟩
    obtain ⟨w, sequel, band, fs, hstage, hsequel, h⟩ := hworks.interprets
    obtain ⟨w', sequel', hstage', htakes'⟩ := htakes
    rw [hstage] at hstage'
    cases hstage'
    rw [hstage]
    exact h.conclude_sound (h.toRuns.interrupted_yield hnative hsequel htakes') w

end Machine

end LuaMachine
