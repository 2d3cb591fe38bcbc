import LuaMachine.Proofs.Machine.Nesting
import LuaMachine.Proofs.Machine.Running

namespace LuaMachine

variable {scope : Scope}

section Sound

variable {o : Outline} {s : Signal}

theorem Below.counted {below : List Activation} {ts : List ThreadId} (h : Below scope o below ts) {id : ThreadId}
    (hid : id ∈ ts) : (o.thread id).Counted := by
  induction h with
  | bottom => cases hid
  | resumed _ hfits _ _ _ ih =>
    rcases List.mem_cons.mp hid with rfl | hrest
    · exact hfits.counted
    · exact ih hrest

theorem Outline.Setting.counted {t : ThreadId} {below : List Activation} {ts : List ThreadId}
    (h : o.Setting scope t below ts) (id : ThreadId) : (o.thread id).Counted := by
  by_cases hid : id ∈ t :: ts
  · rcases List.mem_cons.mp hid with rfl | hwaits
    · exact h.fits.counted
    · exact h.below.counted hwaits
  · exact (h.others id hid).counted

/-- The counters of frames are exact. -/
theorem Outline.Sound.counted (h : o.Sound scope s) (id : ThreadId) : (o.thread id).Counted := by
  cases h with
  | atRest _ _ hrests _ => exact (hrests id).counted
  | working _ hsetting _ _ => exact hsetting.counted id
  | back _ hsetting _ _ => exact hsetting.counted id

theorem Machine.counts_of_sound {m : Machine} (h : m.outline.Sound scope s) (id : ThreadId) : m.Counts id := by
  have hcount := h.counted id
  rw [outline_thread] at hcount
  simpa [ThreadOutline.Counted, Thread.outline, Counts] using hcount

/-- What an interpreter that waits may be told. -/
inductive Signal.Reaches (scope : Scope) (s : Signal) (native : Nat) (sequel : Sequel) : Prop
  | values {vs : Values} (hs : s = .values vs)
  | error {e : Error} (hs : s = .error e) (he : e.Ordinary scope)
  | yield (hs : s = .error .yield) (hnative : native = 0) (htakes : sequel.TakesYield)

/-- The innermost work is an interpreter: it goes on, or is told what it waits for. -/
theorem Outline.Sound.interprets {m : Machine} {i : Interpreter} {acts : List Activation} (h : m.outline.Sound scope s)
    (hbase : m.stack ≠ scope.base) (hstack : m.stack = .interpret i :: acts)
    (hinvoke : ∀ u id args, s ≠ .invoke u id args) :
    ∃ band fs own below ts, m.Interprets scope i.thread i band fs own below ts ∧
      (s = .go ∧ (∀ w sequel, i.stage ≠ .waiting w sequel) ∨ ∃ w sequel, i.stage = .waiting w sequel ∧ sequel.Sound ∧
        s.Reaches scope (m.outline.thread i.thread).nativeDepth sequel) := by
  cases h with
  | atRest _ hback _ _ => exact absurd hback hbase
  | back hback _ _ _ =>
    rw [Machine.outline_stack, hstack] at hback
    cases hback
  | @working t own below ts hown hsetting hstatus hready =>
    rw [Machine.outline_stack, hstack] at hown
    obtain ⟨a, own, rfl⟩ := List.exists_cons_of_ne_nil hready.ne_nil
    obtain ⟨rfl, rfl⟩ := List.cons.inj hown
    have hwaits (hunder : (m.outline.thread t).Under scope m.limits t (m.outline.thread t).frames
        (.interpret i :: own)) : ∃ w sequel band fs, i.thread = t ∧ i.stage = .waiting w sequel ∧ sequel.Sound ∧
          m.Interprets scope t i band fs own below ts := by
      have hworks : m.Works scope t (.interpret i :: own) below ts := ⟨hstack, hsetting, hstatus, hunder⟩
      obtain ⟨w, sequel, band, fs, hstage, hsequel, hinterprets⟩ := hworks.interprets
      exact ⟨w, sequel, band, fs, hinterprets.thread, hstage, hsequel, hinterprets⟩
    cases hready with
    | @go _ band fs _ hthread hstage hband hstands hframes hbelow =>
      subst hthread
      have hruns : m.Runs i.thread i band fs :=
        ⟨rfl, by simpa using hsetting.range, hsetting.fits, hframes, hband, hstands.floor_eq⟩
      exact ⟨band, fs, own, below, ts,
        ⟨hruns, by rw [hstack]; rfl, hsetting, hstatus, hstands, hbelow⟩, Or.inl ⟨rfl, hstage⟩⟩
    | invoke => exact absurd rfl (hinvoke _ _ _)
    | values hacts =>
      obtain ⟨w, sequel, band, fs, rfl, hstage, hsequel, h⟩ := hwaits hacts
      exact ⟨band, fs, own, below, ts, h, Or.inr ⟨w, sequel, hstage, hsequel, .values rfl⟩⟩
    | error he hframes habove hacts =>
      obtain rfl | ⟨-, hnot⟩ := habove
      · rw [List.nil_append] at hframes
        rw [← hframes] at hacts
        obtain ⟨w, sequel, band, fs, rfl, hstage, hsequel, h⟩ := hwaits hacts
        exact ⟨band, fs, own, below, ts, h, Or.inr ⟨w, sequel, hstage, hsequel, .error rfl he⟩⟩
      · cases hnot
    | yield hacts hnative htakes =>
      obtain ⟨w, sequel, band, fs, rfl, hstage, hsequel, h⟩ := hwaits hacts
      obtain ⟨w', sequel', hstage', htakes'⟩ := htakes
      rw [hstage] at hstage'
      cases hstage'
      exact ⟨band, fs, own, below, ts, h, Or.inr ⟨w, sequel, hstage, hsequel, .yield rfl hnative htakes'⟩⟩

end Sound

namespace Machine

variable {m m' : Machine} {c : Site} {i : Interpreter} {f : Frame} {rest fs : List Frame} {acts : List Activation}
  {s : Signal} {e : Ending}

section Lengths

variable {t : ThreadId} {gs : List FrameOutline}

theorem length_frames_of_setFrames (ho : m'.outline = m.outline.setFrames t gs) (hrange : t.index < m.threads.size) :
    (m'.thread t).frames.length = gs.length := by
  rw [← List.length_map (f := Frame.outline), map_outline_frames, ho,
    Outline.thread_setFrames _ _ _ (by simpa using hrange)]

/-- An interpreter that goes on with another frame has one. -/
theorem length_lt_of_enter (h : Concludes scope t i gs m.outline m'.outline .enter)
    (hrange : t.index < m.threads.size) :
    gs.length < (m'.thread t).frames.length := by
  cases h with
  | enter hband _ ho =>
    have hpos := List.length_pos_iff.mpr hband.ne_nil
    rw [length_frames_of_setFrames ho hrange, List.length_append]
    omega

/-- An interpreter that is done has left its frames, or they are cut off. -/
theorem length_eq_of_stop (h : Concludes scope t i gs m.outline m'.outline (.stop s))
    (hrange : t.index < m.threads.size) :
    (∃ vs, s = .values vs) ∧ (m'.thread t).frames.length = gs.length ∨ s.CutsOff := by
  cases h with
  | fail | frameLimit | yielded => exact Or.inr trivial
  | values ho => exact Or.inl ⟨⟨_, rfl⟩, length_frames_of_setFrames ho hrange⟩

end Lengths

namespace RunsAbove

/-- What is below the interpreter is as before when an instruction ends. -/
theorem ends (h : m.RunsAbove c i f rest fs acts) (hcount : m.Counts c.thread) (hends : m.Ends i m' e)
    (hyield : ∀ vs, e = .stop (.yielded vs) → (m.thread c.thread).nativeDepth = 0) :
    fs <:+ (m'.thread c.thread).frames ∧ m'.LeveledAt c fs acts ∧ m'.stack.tail = acts := by
  have hthread := h.thread
  have htail : fs <:+ (m.thread i.thread).frames.tail := by
    rw [hthread, h.frames]
    exact h.suffix
  have hkeeps := hends.keeps (by rw [hthread]; exact h.below.range) (by rw [hthread]; exact hcount) htail
    (Nat.le_of_eq h.floor.symm)
  have hconfined := hends.confined
  rw [hthread] at hkeeps hconfined
  have htail : m'.stack.tail = acts := by
    rw [hconfined.stack, h.stack]
    rfl
  obtain hkept | ⟨⟨vs, hvs⟩, hsuffix, hnative⟩ := hkeeps
  · exact ⟨hkept.suffix, h.below.keeps hconfined hkept, htail⟩
  · have hzero : c.before.nativeDepth = 0 := Nat.le_zero.mp (hyield vs hvs ▸ h.below.levels.native_le)
    refine ⟨hsuffix, ⟨?_, ?_, fun hpos => absurd hzero (Nat.ne_of_gt hpos), ?_⟩, htail⟩
    · rw [hnative]
      exact h.below.levels
    · rw [hconfined.size]
      exact h.below.range
    · rw [hconfined.natives]
      exact h.below.natives

/-- The interpreter waits with its frames, and the work above it may go on. -/
theorem waits (h : m.RunsAbove c i f rest fs acts) (hcount : m.Counts c.thread) {w : Window}
    (hcode : f.code = (w.closure, w.file)) (hretains : m.Retains m' i.thread) (sequel : Sequel) :
    (m'.replaceTop (.interpret { i with stage := .waiting w sequel })).AtLevel c ∧
      (m'.replaceTop (.interpret { i with stage := .waiting w sequel })).Counts c.thread := by
  rw [h.thread] at hretains
  obtain ⟨f', hframes, hcode'⟩ := hretains.own.exists_cons h.frames
  have hbelow := h.below.retains hretains
  have hstack : m'.stack.tail = acts := by
    rw [hretains.stack, h.stack]
    rfl
  refine ⟨⟨?_, hbelow.range, hbelow.schedule, hbelow.natives⟩, ?_⟩
  · show c.Levels (m'.thread c.thread).frames (m'.thread c.thread).nativeDepth (_ :: m'.stack.tail)
    rw [hframes, hstack]
    exact .wait h.thread h.limit rfl (hcode'.trans hcode) h.suffix h.floor h.cuts hbelow.levels
  · show (m'.thread c.thread).depth = (m'.thread c.thread).frames.length
    rw [hretains.own.length_eq, ← hcount, hretains.own.rest]

/-- However an instruction of the thread ends, the frames are at their levels. -/
theorem conclude (h : m.RunsAbove c i f rest fs acts) (hcount : m.Counts c.thread) {w : Window}
    (hcode : f.code = (w.closure, w.file)) (hends : m.Ends i m' e) {gs : List FrameOutline}
    (hconcludes : Concludes scope i.thread i gs m.outline m'.outline e) (hfloor : i.floor = gs.length) :
    (m'.conclude i w e).1.Nests c (m'.conclude i w e).2 := by
  have hrange : i.thread.index < m.threads.size := by
    rw [h.thread]
    exact h.below.range
  obtain ⟨hsuffix, hbelow, hstack⟩ := h.ends hcount hends (by
    rintro vs rfl
    cases hconcludes with
    | yielded _ hnative =>
      rw [outline_thread, h.thread] at hnative
      exact hnative)
  cases e with
  | goOn pc =>
    have hretains := hends.retains (by rintro ⟨⟩) (by rintro _ ⟨⟩)
    rw [h.thread] at hretains
    obtain ⟨f', hframes, hcode'⟩ := hretains.own.exists_cons h.frames
    refine .runs (i := { i with stage := .running { w with pc } }) ⟨congrArg _ hstack, h.thread, hframes, h.suffix,
      h.limit, h.floor, h.cuts, hbelow.spares (.of_eq rfl rfl)⟩ (by rintro _ _ ⟨⟩) ?_
    rintro _ ⟨⟩
    exact hcode'.trans hcode
  | enter =>
    have hlength := length_lt_of_enter hconcludes hrange
    rw [← hfloor, h.floor, h.thread] at hlength
    obtain ⟨f', rest', hframes⟩ := List.exists_cons_of_length_pos (Nat.zero_lt_of_lt hlength)
    have hrest := suffix_tail hsuffix hlength
    rw [hframes] at hrest
    exact .runs (i := { i with stage := .entering }) ⟨congrArg _ hstack, h.thread, hframes, hrest, h.limit,
      h.floor, h.cuts, hbelow.spares (.of_eq rfl rfl)⟩ (by rintro _ _ ⟨⟩) (by rintro _ ⟨⟩)
  | handle handler sequel =>
    obtain ⟨hlevel, hcounts⟩ := h.waits hcount hcode (hends.retains (by rintro ⟨⟩) (by rintro _ ⟨⟩)) sequel
    exact (AtLevel.upkeep c i.thread).callHandler ⟨hlevel, hcounts⟩ handler []
  | join reversed sequel =>
    obtain ⟨hlevel, hcounts⟩ := h.waits hcount hcode (hends.retains (by rintro ⟨⟩) (by rintro _ ⟨⟩)) sequel
    exact (AtLevel.upkeep c i.thread).continueJoin ⟨hlevel, hcounts⟩ reversed []
  | invoke id args sequel =>
    obtain ⟨hlevel, -⟩ := h.waits hcount hcode (hends.retains (by rintro ⟨⟩) (by rintro _ ⟨⟩)) sequel
    exact .level hlevel
  | stop s =>
    have hpop : m'.pop.stack = acts := hstack
    have hcuts : CutsBack c.thread m'.pop.stack := by
      rw [hpop]
      exact h.cuts
    have hat : m'.pop.LeveledAt c fs m'.pop.stack := by
      rw [hpop]
      exact hbelow.spares (.of_eq rfl rfl)
    obtain ⟨⟨vs, rfl⟩, hlength⟩ | hs := length_eq_of_stop hconcludes hrange
    · rw [← hfloor, h.floor, h.thread] at hlength
      have hframes : fs = (m'.pop.thread c.thread).frames := hsuffix.eq_of_length hlength.symm
      rw [hframes] at hat
      exact .level hat
    · cases s with
      | go | invoke | values | sleeping => cases hs
      | yielded | frameLimit | error => exact .leaves hsuffix hcuts trivial hat

end RunsAbove

/-- Where the interpreter is does not matter for the frames. -/
theorem RunsAbove.replaceTop (h : m.RunsAbove c i f rest fs acts) (stage : Stage) :
    (m.replaceTop (.interpret { i with stage })).RunsAbove c { i with stage } f rest fs acts :=
  ⟨by rw [Machine.replaceTop, h.stack]; rfl, h.thread, h.frames, h.suffix, h.limit, h.floor, h.cuts,
    h.below.spares (.of_eq rfl rfl)⟩

/-- An interpreter of the thread runs its next instruction. -/
theorem RunsAbove.advance (h : m.RunsAbove c i f rest fs acts) (hcount : m.Counts c.thread)
    {band gs : List FrameOutline} (hruns : m.Runs i.thread i band gs) {w : Window}
    (hcode : f.code = (w.closure, w.file)) : (m.advance i w).1.Nests c (m.advance i w).2 := by
  have hconcludes : Concludes .host i.thread i gs m.outline (m.execute i w).1.outline (m.execute i w).2 :=
    hruns.execute w
  exact h.conclude hcount (w := { w with pc := w.pc + 1 }) hcode (ends_execute m i w) hconcludes hruns.floor

/-- Work on a thread that waits above a place of the stack: it is apart from the thread's frames, or it is the end of a
call, or an interpreter that waits. -/
theorem levels_cons {n : Nat} {a : Activation} (h : c.Levels fs n (a :: acts)) (hne : a :: acts ≠ c.bottom) :
    (a.Apart c.thread ∧ c.Levels fs n acts) ∨
      (∃ floor previous held k, a = .endCall c.thread floor previous held ∧ n = k + 1 ∧
        (∀ x ∈ floor, x = fs.length) ∧ c.Levels fs k acts) ∨
      ∃ i w sequel f rest gs, a = .interpret i ∧ i.thread = c.thread ∧ (i.limit = none ∨ i.limit = c.limit) ∧
        i.stage = .waiting w sequel ∧ f.code = (w.closure, w.file) ∧ fs = f :: rest ∧ gs <:+ rest ∧
          i.floor = gs.length ∧ CutsBack c.thread acts ∧
        c.Levels gs n acts := by
  cases h with
  | bottom _ _ hacts => exact absurd hacts hne
  | apart ha h => exact Or.inl ⟨ha, h⟩
  | call hfloor h => exact Or.inr (Or.inl ⟨_, _, _, _, rfl, rfl, hfloor, h⟩)
  | wait hthread hlimit hstage hcode hrest hfloor hcuts h =>
    exact Or.inr (Or.inr ⟨_, _, _, _, _, _, rfl, hthread, hlimit, hstage, hcode, rfl, hrest, hfloor, hcuts, h⟩)

namespace AtLevel

/-- Work apart from the thread's frames leaves them where the work below expects them. -/
theorem below_of_apart (h : m.AtLevel c) {a : Activation} (hstack : m.stack = a :: acts) (hne : m.stack ≠ c.bottom)
    (hcall : ∀ floor previous held, a ≠ .endCall c.thread floor previous held)
    (hinterpret : ∀ i, a = .interpret i → i.thread ≠ c.thread) :
    a.Apart c.thread ∧ m.LeveledAt c (m.thread c.thread).frames acts := by
  have hlevels := h.levels
  rw [hstack] at hlevels hne
  obtain ⟨ha, hbelow⟩ | ⟨_, _, _, _, rfl, -⟩ | ⟨i, _, _, _, _, _, rfl, hthread, -⟩ := levels_cons hlevels hne
  · exact ⟨ha, hbelow, h.range, h.schedule, h.natives⟩
  · exact absurd rfl (hcall _ _ _)
  · exact absurd hthread (hinterpret i rfl)

/-- An interpreter of the thread that waits runs the frames above those that the work below it expects. -/
theorem runsAbove (h : m.AtLevel c) (hstack : m.stack = .interpret i :: acts) (hne : m.stack ≠ c.bottom)
    (hthread : i.thread = c.thread) {w : Window} {sequel : Sequel} (hstage : i.stage = .waiting w sequel) :
    ∃ f rest fs, m.RunsAbove c i f rest fs acts ∧ f.code = (w.closure, w.file) := by
  have hlevels := h.levels
  rw [hstack] at hlevels hne
  obtain ⟨ha, -⟩ | ⟨_, _, _, _, hcall, -⟩ | ⟨j, w', sequel', f, rest, gs, hj, -, hlimit, hstage', hcode, hframes, hrest,
    hfloor, hcuts, hbelow⟩ := levels_cons hlevels hne
  · exact absurd hthread ha.1
  · cases hcall
  · cases hj
    rw [hstage] at hstage'
    cases hstage'
    have hleveled : m.LeveledAt c gs acts := ⟨hbelow, h.range, h.schedule, h.natives⟩
    exact ⟨f, rest, gs, ⟨hstack, hthread, hframes, hrest, hlimit, hfloor, hcuts, hleveled⟩, hcode⟩

end AtLevel

/-- An interpreter of another thread ends an instruction. -/
theorem LeveledAt.conclude (h : m.LeveledAt c (m.thread c.thread).frames m.stack.tail) (hcount : m.Counts c.thread)
    (hi : (Activation.interpret i).Apart c.thread) (w : Window) (e : Ending) :
    (m.conclude i w e).1.Nests c (m.conclude i w e).2 := by
  have hpopped : m.pop.AtLevel c := h.spares (.of_eq rfl rfl)
  have hreplaced (stage : Stage) : (m.replaceTop (.interpret { i with stage })).AtLevel c :=
    ⟨.apart hi h.levels, h.range, h.schedule, h.natives⟩
  cases e with
  | goOn pc => exact .level (hreplaced _)
  | enter => exact .level (hreplaced .entering)
  | handle handler sequel => exact (AtLevel.upkeep c i.thread).callHandler ⟨hreplaced _, hcount⟩ handler []
  | join reversed sequel => exact (AtLevel.upkeep c i.thread).continueJoin ⟨hreplaced _, hcount⟩ reversed []
  | invoke => exact .level (hreplaced _)
  | stop s => cases s <;> exact .level hpopped

/-- Another thread runs an instruction, or goes on after one. -/
theorem LeveledAt.ends (h : m.LeveledAt c (m.thread c.thread).frames m.stack.tail) (hcount : m.Counts c.thread)
    (hi : (Activation.interpret i).Apart c.thread) (hends : m.Ends i m' e) (w : Window) :
    (m'.conclude i w e).1.Nests c (m'.conclude i w e).2 := by
  have hconfined := hends.confined
  have hown := hconfined.others c.thread (Ne.symm hi.1)
  refine LeveledAt.conclude ?_ ?_ hi w e
  · rw [hown, hconfined.stack]
    exact h.spares (.of_confined hconfined (Ne.symm hi.1))
  · unfold Counts
    rw [hown]
    exact hcount

section Steps

variable (m) (u : ThreadId)

theorem confined_stepEndCall (floor : Option Nat) (previous : Option Status) (s : Signal) :
    m.Confined (m.stepEndCall u floor previous s).1 u := by
  unfold stepEndCall
  extract_lets s' m'
  have hunwound : m.Confined m' u := by
    dsimp only [m']
    generalize s' = outcome
    split
    · exact m.confined_unwind u _
    · exact .refl m u
  exact hunwound.trans (confined_modifyThread _ u _)

/-- A call from native code that ends leaves the frames that were there when it began. -/
theorem thread_stepEndCall {floor : Option Nat} (hrange : u.index < m.threads.size) (hcount : m.Counts u)
    (hframes : fs <:+ (m.thread u).frames) (hs : (m.thread u).frames = fs ∨ s.CutsOff ∧ floor.isSome)
    (hfloor : ∀ k ∈ floor, k = fs.length) (previous : Option Status) :
    (m.stepEndCall u floor previous s).1.thread u = { m.thread u with
      frames := fs
      depth := fs.length
      nativeDepth := (m.thread u).nativeDepth - 1
      status := previous.getD (m.thread u).status } := by
  unfold stepEndCall
  extract_lets s' m'
  have hcut : s.CutsOff → ∃ e, s' = .error e := by
    intro hcut
    cases s with
    | go | invoke | values | sleeping => cases hcut
    | yielded | frameLimit | error => exact ⟨_, rfl⟩
  have hunwound : m.Confined m' u ∧ m'.thread u = { m.thread u with frames := fs, depth := fs.length } := by
    clear_value s'
    dsimp only [m']
    split
    · rename_i k
      rw [hfloor k rfl]
      exact ⟨m.confined_unwind u _, thread_unwind hrange hcount hframes⟩
    · rename_i hgoes
      refine ⟨.refl m u, ?_⟩
      obtain hsame | ⟨hs, hsome⟩ := hs
      · rw [← hsame, ← hcount]
      · obtain ⟨e, rfl⟩ := hcut hs
        obtain ⟨k, rfl⟩ := Option.isSome_iff_exists.mp hsome
        exact absurd rfl (hgoes e k rfl)
  rw [thread_modifyThread (Nat.lt_of_lt_of_eq hrange hunwound.1.size.symm), hunwound.2]

theorem confined_stepStartedNative (s : Signal) : m.Confined (m.stepStartedNative u s).1 u := by
  unfold stepStartedNative
  split
  · exact (m.confined_modifyThread u _).trans (confined_modifyThread _ u _)
  · exact .refl m u
  · exact .refl m u

theorem confined_stepEndResume (floor : Nat) (s : Signal) : m.Confined (m.stepEndResume u floor s).1 u := by
  unfold stepEndResume
  split
  · exact (m.confined_unwind u 0).trans (confined_modifyThread _ u _)
  · exact (m.confined_unwind u 0).trans (confined_modifyThread _ u _)
  · exact (m.confined_unwind u floor).trans (confined_modifyThread _ u _)
  · exact m.confined_modifyThread u _
  · exact m.confined_modifyThread u _

variable {m}

theorem AtLevel.stepResumed (h : m.AtLevel c) (previous : Status) (wrapped : Bool) (s : Signal) :
    (m.stepResumed u previous wrapped s).1.AtLevel c := by
  have hback := h.setStatus u previous
  unfold Machine.stepResumed
  dsimp only
  split
  · exact hback
  · exact hback
  · exact hback
  · split
    · split <;> exact hback
    · exact hback
  · exact hback

end Steps

namespace Nests

/-- An interpreter of the thread that goes on runs the frames above those that the work below it expects. -/
theorem runsAbove_of_go (h : m.Nests c .go) (hstack : m.stack = .interpret i :: acts) (hne : m.stack ≠ c.bottom)
    (hthread : i.thread = c.thread) (hstage : ∀ w sequel, i.stage ≠ .waiting w sequel) :
    ∃ f rest fs, m.RunsAbove c i f rest fs acts ∧ ∀ w ∈ i.stage.window?, f.code = (w.closure, w.file) := by
  cases h with
  | level h =>
    have hlevels := h.levels
    rw [hstack] at hlevels hne
    obtain ⟨ha, -⟩ | ⟨_, _, _, _, hcall, -⟩ | ⟨_, w, sequel, _, _, _, hj, -, -, hwaits, -⟩ := levels_cons hlevels hne
    · exact absurd hthread ha.1
    · cases hcall
    · cases hj
      exact absurd hwaits (hstage w sequel)
  | runs h _ hcode =>
    have hown := h.stack
    rw [hstack] at hown
    cases hown
    exact ⟨_, _, _, h, hcode⟩
  | leaves _ hcuts =>
    rw [hstack] at hcuts
    cases hcuts

/-- An interpreter takes a signal. -/
theorem interpret (h : m.Nests c s) (hsound : m.outline.Sound scope s) (hstack : m.stack = .interpret i :: acts)
    (hbase : m.stack ≠ scope.base) (hne : m.stack ≠ c.bottom) (hinvoke : ∀ u id args, s ≠ .invoke u id args) :
    (m.interpret i s).1.Nests c (m.interpret i s).2 := by
  have hcount : m.Counts c.thread := counts_of_sound hsound c.thread
  by_cases hthread : i.thread = c.thread
  · obtain ⟨band, gs, own, below, ts, hinterprets, hcase⟩ := hsound.interprets hbase hstack hinvoke
    have hfloor := hinterprets.floor
    have hends {m' : Machine} {e : Ending} {w : Window} {f : Frame} {rest fs : List Frame}
        (hruns : m.RunsAbove c i f rest fs acts) (hcode : f.code = (w.closure, w.file)) (hends : m.Ends i m' e)
        (hconcludes : Concludes scope i.thread i gs m.outline m'.outline e) :
        (m'.conclude i w e).1.Nests c (m'.conclude i w e).2 :=
      hruns.conclude hcount hcode hends hconcludes hfloor
    obtain ⟨rfl, hstage⟩ | ⟨w, sequel, hstage, hsequel, hs⟩ := hcase
    · obtain ⟨f, rest, fs, hruns, hcode⟩ := h.runsAbove_of_go hstack hne hthread hstage
      unfold Machine.interpret
      cases hown : i.stage with
      | entering =>
        have htop : m.topFrame? i.thread = some f := by
          rw [topFrame?, hthread, hruns.frames]
          rfl
        dsimp only
        rw [enter_eq htop]
        have hlooked := hruns.replaceTop (.running ⟨f.closure, f.file, f.pc⟩)
        exact hlooked.advance hcount (hinterprets.replaceTop (.running ⟨f.closure, f.file, f.pc⟩)).toRuns rfl
      | running w =>
        refine hruns.advance hcount hinterprets.toRuns (hcode w ?_)
        rw [hown]
        rfl
      | waiting w sequel => exact absurd hown (hstage w sequel)
    · have hlevel : m.AtLevel c := by
        cases h with
        | level h => exact h
        | runs h hgoes =>
          rw [h.stack] at hstack
          cases hstack
          exact absurd hstage (hgoes w sequel)
        | leaves _ hcuts =>
          rw [hstack] at hcuts
          cases hcuts
      obtain ⟨f, rest, fs, hruns, hcode⟩ := hlevel.runsAbove hstack hne hthread hstage
      unfold Machine.interpret
      rw [hstage]
      cases hs with
      | values hs =>
        subst hs
        exact hends hruns hcode (ends_settle m i w _ sequel) (hinterprets.toRuns.settle w _ hsequel)
      | error hs he =>
        subst hs
        exact hends hruns hcode (ends_interrupted m i _ sequel) (Runs.concludes_interrupted he sequel)
      | yield hs hnative htakes =>
        subst hs
        exact hends hruns hcode (ends_interrupted m i (.error .yield) sequel)
          (hinterprets.toRuns.interrupted_yield hnative hsequel htakes)
  · have hlevel : m.AtLevel c := by
      cases h with
      | level h => exact h
      | runs h =>
        rw [h.stack] at hstack
        cases hstack
        exact absurd h.thread hthread
      | leaves _ hcuts =>
        rw [hstack] at hcuts
        cases hcuts
    obtain ⟨hapart, hbelow⟩ := hlevel.below_of_apart hstack hne (by rintro _ _ _ ⟨⟩) (by rintro _ ⟨⟩; exact hthread)
    have htail : m.LeveledAt c (m.thread c.thread).frames m.stack.tail := by
      rw [hstack]
      exact hbelow
    have hpopped : m.pop.AtLevel c := htail.spares (.of_eq rfl rfl)
    unfold Machine.interpret
    split
    · unfold enter
      split
      · exact .level hpopped
      · have hentered (a : Activation) : (m.replaceTop a).LeveledAt c (m.thread c.thread).frames m.stack.tail :=
          htail.spares (.of_eq rfl rfl)
        exact (hentered _).ends hcount hapart (ends_execute _ i _) _
    · exact htail.ends hcount hapart (ends_execute m i _) _
    · exact htail.ends hcount hapart (ends_settle m i _ _ _) _
    · exact htail.ends hcount hapart (ends_interrupted m i _ _) _
    · exact .level hpopped

/-- The end of a call finds the frames of the thread as they were when it began, or some more to be cut off. -/
theorem frames_endCall {floor : Option Nat} {previous : Option Status} {held : Values} (h : m.Nests c s)
    (hstack : m.stack = .endCall c.thread floor previous held :: acts) :
    ∃ fs, m.LeveledAt c fs m.stack ∧ fs <:+ (m.thread c.thread).frames ∧
      ((m.thread c.thread).frames = fs ∨ s.CutsOff ∧ floor.isSome) := by
  cases h with
  | level h => exact ⟨_, h, List.suffix_refl _, Or.inl rfl⟩
  | runs h =>
    rw [h.stack] at hstack
    cases hstack
  | @leaves _ fs hframes hcuts hs h =>
    refine ⟨fs, h, hframes, Or.inr ⟨hs, ?_⟩⟩
    rw [hstack] at hcuts
    cases hcuts
    rfl

/-- A call from native code ends on the thread, whose frames are cut off if it failed. -/
theorem endCall {floor : Option Nat} {previous : Option Status} {held : Values} (h : m.Nests c s)
    (hcount : m.Counts c.thread) (hstack : m.stack = .endCall c.thread floor previous held :: acts)
    (hne : m.stack ≠ c.bottom) :
    (({ m with stack := acts } : Machine).stepEndCall c.thread floor previous s).1.AtLevel c := by
  obtain ⟨fs, hat, hframes, hs⟩ := h.frames_endCall hstack
  have hlevels := hat.levels
  rw [hstack] at hlevels hne
  obtain ⟨ha, -⟩ | ⟨_, _, _, k, hcall, hnative, hfloor, hbelow⟩ | ⟨_, _, _, _, _, _, hinterpret, -⟩ :=
    levels_cons hlevels hne
  · exact absurd rfl ha
  · cases hcall
    have hthread := thread_stepEndCall { m with stack := acts } c.thread hat.range hcount hframes hs hfloor
      previous
    have hconfined := confined_stepEndCall { m with stack := acts } c.thread floor previous s
    refine ⟨?_, Nat.lt_of_lt_of_eq hat.range hconfined.size.symm, fun hpos => ?_, ?_⟩
    · rw [hthread, hconfined.stack]
      show c.Levels fs ((m.thread c.thread).nativeDepth - 1) acts
      rw [hnative]
      exact hbelow
    · rw [hthread]
      exact (hat.schedule hpos).trans ⟨rfl, rfl, rfl, rfl, rfl⟩
    · rw [hconfined.natives]
      exact hat.natives
  · cases hinterpret

end Nests

/-- Work apart from the thread's frames takes a signal. -/
theorem AtLevel.resumeWork {a : Activation} (h : ({ m with stack := acts } : Machine).AtLevel c)
    (hcount : m.Counts c.thread) (ha : a.Apart c.thread) (hinterpret : ∀ i, a ≠ .interpret i) (s : Signal) :
    (m.resumeWork a acts s).1.Nests c (m.resumeWork a acts s).2 := by
  have hconfined {u : ThreadId} {m' : Machine} (hu : u ≠ c.thread)
      (hm' : ({ m with stack := acts } : Machine).Confined m' u) : m'.AtLevel c :=
    h.adds (.of_confined hm' (Ne.symm hu))
  cases a with
  | interpret i => exact absurd rfl (hinterpret i)
  | tick | groupSize | updateGroups => cases ha
  | endCall u floor previous held => exact .level (hconfined ha (confined_stepEndCall _ u floor previous s))
  | startedNative u held => exact .level (hconfined ha (confined_stepStartedNative _ u s))
  | endResume u floor held => exact .level (hconfined ha (confined_stepEndResume _ u floor s))
  | protect => exact .level h
  | resumed u previous wrapped target => exact .level (h.stepResumed u previous wrapped s)
  | forget | read => cases s <;> exact .level h
  | concat u left held =>
    cases s with
    | values vs => exact (upkeep c u).continueJoin ⟨h, hcount⟩ _ held
    | go | invoke | yielded | frameLimit | sleeping | error => exact .level h
  | print u shown args =>
    cases s with
    | values vs =>
      show Nests c (Prod.fst (stepPrint _ _ _ _ _)) (Prod.snd (stepPrint _ _ _ _ _))
      unfold stepPrint
      split
      · exact (upkeep c u).continuePrint ⟨h, hcount⟩ args _ _
      · exact .level h
    | go | invoke | yielded | frameLimit | sleeping | error => exact .level h

namespace Nests

/-- The values that a call uses are nothing to the frames. -/
theorem inUse (h : m.Nests c s) (args : Values) : ({ m with inUse := args } : Machine).Nests c s := by
  cases h with
  | level h => exact .level (h.adds (.of_spares (.of_eq rfl rfl) rfl))
  | runs h hstage hcode =>
    exact .runs ⟨h.stack, h.thread, h.frames, h.suffix, h.limit, h.floor, h.cuts,
      h.below.spares (.of_eq rfl rfl)⟩ hstage
      hcode
  | leaves hframes hcuts hs h => exact .leaves hframes hcuts hs (h.spares (.of_eq rfl rfl))

/-- Unless a call from native code ends on the thread, the frames are as the innermost work expects them. -/
theorem atLevel {a : Activation} (h : m.Nests c s) (hstack : m.stack = a :: acts) (hne : m.stack ≠ c.bottom)
    (hinterpret : ∀ i, a ≠ .interpret i) (hcall : ∀ floor previous held, a ≠ .endCall c.thread floor previous held) :
    m.AtLevel c := by
  cases h with
  | level h => exact h
  | runs h =>
    rw [h.stack] at hstack
    cases hstack
    exact absurd rfl (hinterpret _)
  | leaves _ hcuts _ h =>
    have hlevels := h.levels
    rw [hstack] at hcuts hlevels hne
    cases hcuts with
    | call => exact absurd rfl (hcall _ _ _)
    | resume =>
      obtain ⟨ha, -⟩ | ⟨_, _, _, _, hends, -⟩ | ⟨_, _, _, _, _, _, hends, -⟩ := levels_cons hlevels hne
      · exact absurd rfl ha
      · cases hends
      · cases hends

/-- Work above a place of the stack takes a signal. -/
theorem resumeWork {a : Activation} (h : m.Nests c s) (hsound : m.outline.Sound scope s) (hstack : m.stack = a :: acts)
    (hbase : m.stack ≠ scope.base) (hne : m.stack ≠ c.bottom) (hinvoke : ∀ u id args, s ≠ .invoke u id args) :
    (m.resumeWork a acts s).1.Nests c (m.resumeWork a acts s).2 := by
  have hcount : m.Counts c.thread := counts_of_sound hsound c.thread
  by_cases hinterpret : ∃ i, a = .interpret i
  · obtain ⟨i, rfl⟩ := hinterpret
    exact h.interpret hsound hstack hbase hne hinvoke
  have hwork (i : Interpreter) : a ≠ .interpret i := fun hi => hinterpret ⟨i, hi⟩
  by_cases hcall : ∃ floor previous held, a = .endCall c.thread floor previous held
  · obtain ⟨floor, previous, held, rfl⟩ := hcall
    exact .level (h.endCall hcount hstack hne)
  have hends (floor : Option Nat) (previous : Option Status) (held : Values) :
      a ≠ .endCall c.thread floor previous held := fun ha => hcall ⟨floor, previous, held, ha⟩
  have hlevel := h.atLevel hstack hne hwork hends
  obtain ⟨ha, hbelow⟩ := hlevel.below_of_apart hstack hne hends (fun i hi => absurd hi (hwork i))
  have hpopped : ({ m with stack := acts } : Machine).AtLevel c := hbelow.spares (.of_eq rfl rfl)
  exact hpopped.resumeWork hcount ha hwork s

/-- One step above a place of the stack. -/
theorem step (h : m.Nests c s) (hsound : m.outline.Sound scope s) (hbase : scope.base.length < c.bottom.length)
    (hne : m.stack ≠ c.bottom ∨ ∃ u id args, s = .invoke u id args)
    (hlibrary : ∀ u id args, s = .invoke u id args →
      (m.native id).body.IsLibrary ∨ (m.native id).body = .host .nothing) :
    (m.step s).1.Nests c (m.step s).2 := by
  by_cases hinvoke : ∃ u id args, s = .invoke u id args
  · obtain ⟨u, id, args, rfl⟩ := hinvoke
    have hcount : m.Counts c.thread := counts_of_sound hsound c.thread
    cases h with
    | level h => exact h.invoke hcount u (hlibrary u id args rfl) args
    | leaves _ _ hs => cases hs
  · have hnot (u : ThreadId) (id : NativeId) (args : Values) : s ≠ .invoke u id args :=
      fun heq => hinvoke ⟨u, id, args, heq⟩
    cases hstack : m.stack with
    | nil =>
      rw [step_nil hstack hnot]
      exact h
    | cons a acts =>
      rw [step_cons hstack hnot]
      refine (h.inUse []).resumeWork hsound hstack (fun heq => ?_) (hne.resolve_right hinvoke) hnot
      have hlength := h.suffix.length_le
      rw [show m.stack = scope.base from heq] at hlength
      exact Nat.not_lt.mpr hlength hbase

end Nests

end Machine

end LuaMachine
