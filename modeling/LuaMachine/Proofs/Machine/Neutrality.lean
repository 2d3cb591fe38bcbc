import LuaMachine.Proofs.Machine.NestingSteps
import LuaMachine.Proofs.Machine.Reached

namespace LuaMachine

/-- At its place of the stack, the thread has the frames that it had. -/
theorem Site.Levels.of_bottom {c : Site} {fs : List Frame} {n : Nat} (h : c.Levels fs n c.bottom) :
    fs = c.before.frames ∧ n = c.before.nativeDepth := by
  have hbelow {a : Activation} {gs : List Frame} {k : Nat} {acts : List Activation} (hacts : a :: acts = c.bottom)
      (h : c.Levels gs k acts) : False := by
    have hlength := h.suffix.length_le
    rw [← hacts, List.length_cons] at hlength
    exact Nat.not_succ_le_self _ hlength
  generalize hacts : c.bottom = acts at h
  cases h with
  | bottom hframes hnative => exact ⟨hframes, hnative⟩
  | apart _ h => exact (hbelow hacts.symm h).elim
  | call _ h => exact (hbelow hacts.symm h).elim
  | wait _ _ _ _ _ _ _ h => exact (hbelow hacts.symm h).elim

/-- The outcome of a call from native code: values, or an error that is no yield, and that finds the bookkeeping of
calls broken only where a thread without a function to start with was resumed. -/
def Signal.EndsCall (s : Signal) : Prop := (∃ vs, s = .values vs) ∨ ∃ e, s = .error e ∧ ∃ scope, e.Ordinary scope

theorem Signal.EndsCall.ne_invoke {s : Signal} (h : s.EndsCall) (u : ThreadId) (id : NativeId) (args : Values) :
    s ≠ .invoke u id args := by
  obtain ⟨vs, rfl⟩ | ⟨e, rfl, -⟩ := h <;> rintro ⟨⟩

/-- A protected call turns outcomes into outcomes. -/
theorem Signal.EndsCall.protect {s : Signal} (h : s.EndsCall) : (Machine.stepProtect s).EndsCall := by
  obtain ⟨vs, rfl⟩ | ⟨e, rfl, he⟩ := h
  · exact Or.inl ⟨_, rfl⟩
  · cases e with
    | raised r => exact Or.inl ⟨_, rfl⟩
    | yield =>
      obtain ⟨scope, hnot⟩ := he
      cases hnot
    | fatal f => exact Or.inr ⟨_, rfl, he⟩

theorem Thread.SameSchedule.eq {th th' : Thread} (h : th.SameSchedule th') (hstatus : th'.status = th.status)
    (hframes : th'.frames = th.frames) (hdepth : th'.depth = th.depth) (hnative : th'.nativeDepth = th.nativeDepth) :
    th' = { th with instructions := th'.instructions } := by
  obtain ⟨hnumber, hstart, hreturn, hsleep, hyielded⟩ := h
  cases th
  cases th'
  simp_all

namespace Machine

variable {scope : Scope} {m m' n : Machine} {c : Site} {base upper : List Activation} {s s' : Signal} {t : ThreadId}
  {fuel : Nat}

section Runs

/-- Whether work is left above the work `base`. -/
def isWorkingAbove (m : Machine) (base : List Activation) (s : Signal) : Bool :=
  match s with
  | .invoke .. => true
  | _ => base.length < m.stack.length

/-- Steps until no work is left above the work `base`; none if `fuel` steps are not enough. -/
def runAbove (base : List Activation) : Nat → Machine → Signal → Option (Machine × Signal)
  | 0, m, s => if m.isWorkingAbove base s then none else some (m, s)
  | fuel + 1, m, s =>
    if m.isWorkingAbove base s then
      let (m, s) := m.step s
      runAbove base fuel m s
    else some (m, s)

/-- Calls a function from native code on a thread, with at most `fuel` steps. The values in `held` are kept
meanwhile. -/
def call (fuel : Nat) (m : Machine) (t : ThreadId) (f : Value) (args held : Values) : Option (Machine × Signal) :=
  let (m', s) := m.beginCall t f args held
  runAbove m.stack fuel m' s

/-- If a native function is about to run, it is one of the library. -/
def InLibrary (m : Machine) : Signal → Prop
  | .invoke _ id _ => (m.native id).body.IsLibrary
  | _ => True

/-- The native functions that at most `fuel` steps above the work `base` reach are those of the library. -/
def StaysInLibrary (base : List Activation) : Nat → Machine → Signal → Prop
  | 0, _, _ => True
  | fuel + 1, m, s =>
    m.isWorkingAbove base s = true → m.InLibrary s ∧ StaysInLibrary base fuel (m.step s).1 (m.step s).2

instance : DecidablePred m.InLibrary
  | .invoke _ id _ => inferInstanceAs (Decidable (m.native id).body.IsLibrary)
  | .go => isTrue trivial
  | .values _ => isTrue trivial
  | .yielded _ => isTrue trivial
  | .frameLimit => isTrue trivial
  | .sleeping => isTrue trivial
  | .error _ => isTrue trivial

instance decidableStaysInLibrary (base : List Activation) :
    (fuel : Nat) → (m : Machine) → (s : Signal) → Decidable (StaysInLibrary base fuel m s)
  | 0, _, _ => isTrue trivial
  | fuel + 1, m, s =>
    have := decidableStaysInLibrary base fuel (m.step s).1 (m.step s).2
    inferInstanceAs (Decidable (m.isWorkingAbove base s = true → m.InLibrary s ∧
      StaysInLibrary base fuel (m.step s).1 (m.step s).2))

theorem isWorkingAbove_iff (m : Machine) (base : List Activation) (s : Signal) : m.isWorkingAbove base s = true ↔
    (∃ u id args, s = .invoke u id args) ∨ base.length < m.stack.length := by
  unfold isWorkingAbove
  cases s with
  | invoke u id args => exact ⟨fun _ => Or.inl ⟨u, id, args, rfl⟩, fun _ => rfl⟩
  | go | values | yielded | frameLimit | sleeping | error => simp

theorem isWorkingAbove_of_cons {a : Activation} (hstack : m.stack = a :: base) (s : Signal) :
    m.isWorkingAbove base s = true := by
  rw [isWorkingAbove_iff, hstack]
  exact Or.inr (Nat.lt_succ_self _)

/-- Work above more work is work above less. -/
theorem isWorkingAbove_mono (hlength : base.length ≤ upper.length) (h : m.isWorkingAbove upper s = true) :
    m.isWorkingAbove base s = true := by
  rw [isWorkingAbove_iff] at h ⊢
  exact h.imp_right fun hlt => Nat.lt_of_le_of_lt hlength hlt

theorem isWorkingAbove_eq_false (hstack : m.stack = base) (hinvoke : ∀ u id args, s ≠ .invoke u id args) :
    m.isWorkingAbove base s = false := by
  rw [Bool.eq_false_iff, ne_eq, isWorkingAbove_iff, hstack, not_or]
  exact ⟨fun ⟨u, id, args, hs⟩ => hinvoke u id args hs, Nat.lt_irrefl _⟩

/-- A machine that is back at the work `base` runs no further. -/
theorem runAbove_of_done (hstack : m.stack = base) (hinvoke : ∀ u id args, s ≠ .invoke u id args) (fuel : Nat) :
    runAbove base fuel m s = some (m, s) := by
  have hdone := Bool.eq_false_iff.mp (isWorkingAbove_eq_false hstack hinvoke)
  cases fuel <;> rw [runAbove, if_neg hdone]

theorem eq_of_runAbove {r : Machine × Signal} (hrun : runAbove base fuel m s = some r) (hstack : m.stack = base)
    (hinvoke : ∀ u id args, s ≠ .invoke u id args) : r = (m, s) := by
  rw [runAbove_of_done hstack hinvoke] at hrun
  exact (Option.some.inj hrun).symm

theorem runAbove_of_working {r : Machine × Signal} (hworks : m.isWorkingAbove base s = true)
    (hrun : runAbove base fuel m s = some r) :
    ∃ k, fuel = k + 1 ∧ runAbove base k (m.step s).1 (m.step s).2 = some r := by
  cases fuel with
  | zero =>
    rw [runAbove, if_pos hworks] at hrun
    cases hrun
  | succ k =>
    rw [runAbove, if_pos hworks] at hrun
    exact ⟨k, rfl, hrun⟩

/-- What holds at the end of a run holds at its beginning, if each step carries it back. -/
theorem runAbove_induction {P : Machine → Signal → Prop} (hrun : runAbove base fuel m s = some (m', s'))
    (hdone : m'.isWorkingAbove base s' = false → P m' s')
    (hstep : ∀ {n : Machine} {u : Signal}, n.isWorkingAbove base u = true → P (n.step u).1 (n.step u).2 → P n u) :
    P m s := by
  have hend {n : Machine} {u : Signal} (hnot : n.isWorkingAbove base u ≠ true)
      (hrun : some (n, u) = some (m', s')) : P n u := by
    cases hrun
    exact hdone (Bool.eq_false_iff.mpr hnot)
  induction fuel generalizing m s with
  | zero =>
    rw [runAbove] at hrun
    split at hrun
    · cases hrun
    · rename_i hnot
      exact hend hnot hrun
  | succ fuel ih =>
    rw [runAbove] at hrun
    split at hrun
    · rename_i hworks
      exact hstep hworks (ih hrun)
    · rename_i hnot
      exact hend hnot hrun

/-- A machine whose work is done has none left above any work. -/
theorem runAbove_nil (fuel : Nat) (m : Machine) (s : Signal) : runAbove [] fuel m s = run fuel m s := by
  have hworks (m : Machine) (s : Signal) : m.isWorkingAbove [] s = m.isWorking s := by
    unfold isWorkingAbove isWorking
    cases hstack : m.stack <;> cases s <;> simp
  induction fuel generalizing m s with
  | zero => rw [runAbove, run, hworks]
  | succ fuel ih =>
    rw [runAbove, run, hworks]
    dsimp only
    rw [ih]

/-- What a host's call on a machine at rest does. -/
theorem operate_call (hstack : m.stack = []) (f : Value) (args : Values) :
    m.operate fuel (.call t f args) = m.call fuel t f args [] := by
  unfold call
  rw [hstack]
  exact (runAbove_nil _ _ _).symm

/-- Work above less work first does the work above more. -/
theorem runAbove_split {r : Machine × Signal} (hlength : base.length ≤ upper.length)
    (hrun : runAbove base fuel m s = some r) :
    ∃ k l n u, l ≤ fuel ∧ runAbove upper k m s = some (n, u) ∧
      (StaysInLibrary base fuel m s → StaysInLibrary upper k m s) ∧ runAbove base l n u = some r := by
  induction fuel generalizing m s with
  | zero =>
    by_cases hworks : m.isWorkingAbove upper s = true
    · rw [runAbove, if_pos (isWorkingAbove_mono hlength hworks)] at hrun
      cases hrun
    · exact ⟨0, 0, m, s, Nat.le_refl _, by rw [runAbove, if_neg hworks], fun _ => trivial, hrun⟩
  | succ fuel ih =>
    by_cases hworks : m.isWorkingAbove upper s = true
    · have hbase := isWorkingAbove_mono hlength hworks
      rw [runAbove, if_pos hbase] at hrun
      obtain ⟨k, l, n, u, hl, hupper, hstays, hrest⟩ := ih hrun
      refine ⟨k + 1, l, n, u, Nat.le_succ_of_le hl, by rw [runAbove, if_pos hworks]; exact hupper, fun hlibrary _ => ?_,
        hrest⟩
      obtain ⟨hhere, hlater⟩ := hlibrary hbase
      exact ⟨hhere, hstays hlater⟩
    · exact ⟨0, fuel + 1, m, s, Nat.le_refl _, by rw [runAbove, if_neg hworks], fun _ => trivial, hrun⟩

/-- Runs above more work and then above less work are one run above less. -/
theorem exists_runAbove {u : Signal} {r : Machine × Signal} {k l : Nat}
    (hlength : base.length ≤ upper.length) (hupper : runAbove upper k m s = some (n, u))
    (hrest : runAbove base l n u = some r) : ∃ fuel, runAbove base fuel m s = some r := by
  refine runAbove_induction (P := fun m s => ∃ fuel, runAbove base fuel m s = some r) hupper (fun _ => ⟨l, hrest⟩) ?_
  rintro m s hworks ⟨fuel, hrun⟩
  exact ⟨fuel + 1, by rw [runAbove, if_pos (isWorkingAbove_mono hlength hworks)]; exact hrun⟩

/-- A machine that is back at the work `base` is at the end of a run. -/
theorem exists_runAbove_of_done (hstack : m.stack = base) (hinvoke : ∀ u id args, s ≠ .invoke u id args) :
    ∃ fuel, runAbove base fuel m s = some (m, s) :=
  ⟨0, runAbove_of_done hstack hinvoke 0⟩

end Runs

/-- The stack and a thread are as before, but for the count of the instructions that the thread ran. -/
structure Restored (m m' : Machine) (t : ThreadId) : Prop where
  stack : m'.stack = m.stack
  thread : ∃ instructions, m'.thread t = { m.thread t with instructions }

namespace Nests

/-- What runs above a place of the stack comes back to it. -/
theorem comesBack {r : Machine × Signal} (h : m.Nests c s) (hsound : m.outline.Sound scope s)
    (hscope : scope.base.length < c.bottom.length) (hbase : base.length < c.bottom.length)
    (hrun : runAbove base fuel m s = some r)
    (hlibrary : StaysInLibrary base fuel m s) :
    ∃ k n u, n.Nests c u ∧ n.outline.Sound scope u ∧ n.stack = c.bottom ∧ (∀ v id args, u ≠ .invoke v id args) ∧
      runAbove base k n u = some r := by
  induction fuel generalizing m s with
  | zero =>
    have hworks : m.isWorkingAbove base s = true :=
      (isWorkingAbove_iff m base s).mpr (Or.inr (Nat.lt_of_lt_of_le hbase h.suffix.length_le))
    rw [runAbove, if_pos hworks] at hrun
    cases hrun
  | succ fuel ih =>
    have hworks : m.isWorkingAbove base s = true :=
      (isWorkingAbove_iff m base s).mpr (Or.inr (Nat.lt_of_lt_of_le hbase h.suffix.length_le))
    by_cases hhere : m.stack = c.bottom ∧ ∀ v id args, s ≠ .invoke v id args
    · exact ⟨fuel + 1, m, s, h, hsound, hhere.1, hhere.2, hrun⟩
    · obtain ⟨hinside, hlater⟩ := hlibrary hworks
      rw [runAbove, if_pos hworks] at hrun
      have habove : m.stack ≠ scope.base := by
        intro heq
        have hlength := h.suffix.length_le
        rw [heq] at hlength
        exact Nat.not_lt.mpr hlength hscope
      have hregular (v : ThreadId) (id : NativeId) (args : Values) (hs : s = .invoke v id args) :
          (m.native id).body.IsRegular := by
        subst hs
        exact Builtin.IsLibrary.isRegular hinside
      refine ih (h.step hsound hscope ?_ (by rintro _ _ _ rfl; exact Or.inl hinside))
        (step_sound_above hsound (Or.inl habove) hregular) hrun hlater
      by_cases hstack : m.stack = c.bottom
      · refine Or.inr ?_
        exact Classical.byContradiction fun hnone => hhere ⟨hstack, fun v id args hs => hnone ⟨v, id, args, hs⟩⟩
      · exact Or.inl hstack

end Nests

/-- When a call from native code ends, its thread runs, and there is an outcome. -/
theorem running_of_endCall {floor : Option Nat} {previous : Option Status} {held : Values}
    (hsound : m.outline.Sound scope s) (hbase : m.stack ≠ scope.base)
    (hstack : m.stack = .endCall t floor previous held :: base)
    (hinvoke : ∀ u id args, s ≠ .invoke u id args) : (m.thread t).status = .running ∧ s.EndsCall := by
  cases hsound with
  | atRest _ hback => exact absurd hback hbase
  | back hback =>
    rw [outline_stack, hstack] at hback
    cases hback
  | @working u acts below ts hown hsetting hstatus hready =>
    rw [outline_stack, hstack] at hown
    obtain ⟨a, acts, rfl⟩ := List.exists_cons_of_ne_nil hready.ne_nil
    obtain ⟨rfl, -⟩ := List.cons.inj hown
    rw [outline_thread] at hstatus
    cases hready with
    | invoke => exact absurd rfl (hinvoke _ _ _)
    | values hacts =>
      obtain ⟨rfl, -⟩ := Segment.of_endCall hacts
      exact ⟨hstatus, Or.inl ⟨_, rfl⟩⟩
    | error he _ _ hacts =>
      obtain ⟨rfl, -⟩ := Segment.of_endCall hacts
      exact ⟨hstatus, Or.inr ⟨_, rfl, scope, he⟩⟩
    | yield _ _ htakes => cases htakes

/-- The place of the stack where native code waits for a call on the thread `t` of the machine `m`. -/
structure Awaits (m : Machine) (t : ThreadId) (c : Site) : Prop where
  thread : c.thread = t
  frames : c.before.frames = (m.thread t).frames
  native : c.before.nativeDepth = (m.thread t).nativeDepth + 1
  schedule : (m.thread t).SameSchedule c.before
  bottom : ∃ floor held, c.bottom = .endCall t floor (m.previousStatus? t) held :: m.stack ∧
    ∀ k ∈ floor, k = (m.thread t).frames.length

/-- Native code may call functions on a thread: on the one at work wherever it is, and on one that nobody runs however
it was left, whatever is in progress on other threads. -/
inductive Callable (m : Machine) (t : ThreadId) : Prop
  | working {scope : Scope} {acts below : List Activation} {ts : List ThreadId} (h : m.Works scope t acts below ts) :
      Callable m t
  | idle {scope : Scope} (hsetting : m.outline.Setting scope t m.stack [])
      (hidle : (m.outline.thread t).Idle scope m.limits.callDepth) : Callable m t

namespace Callable

theorem range (h : m.Callable t) : t.index < m.threads.size := by
  cases h with
  | working h => simpa using h.setting.range
  | idle hsetting => simpa using hsetting.range

theorem counts (h : m.Callable t) : m.Counts t := by
  cases h with
  | working h => exact counts_of_sound (h.values []) t
  | idle _ hidle =>
    have hcount := hidle.counted
    rw [outline_thread] at hcount
    simpa [ThreadOutline.Counted, Thread.outline, Counts] using hcount

/-- A thread that gets its status back, or runs on, has the one that it had. -/
theorem status (h : m.Callable t) : (m.previousStatus? t).getD .running = (m.thread t).status := by
  rw [previousStatus?]
  cases h with
  | working h =>
    have hstatus := h.status
    rw [hstatus]
    rw [outline_thread] at hstatus
    exact hstatus.symm
  | idle _ hidle =>
    rw [hidle.isActive_eq_false, outline_thread]
    rfl

/-- The call begins with all bookkeeping in order around it. -/
theorem beginCall_sound (h : m.Callable t) (f : Value) (args held : Values) :
    ∃ scope : Scope, scope.base.length ≤ m.stack.length ∧
      (m.beginCall t f args held).1.outline.Sound scope (m.beginCall t f args held).2 := by
  cases h with
  | @working scope acts below ts h =>
    have hlength := h.setting.below.base_suffix.length_le
    refine ⟨scope, ?_, h.beginCall f args held⟩
    rw [h.stack, List.length_append]
    omega
  | @idle scope hsetting hidle =>
    refine ⟨scope, hsetting.below.base_suffix.length_le, ?_⟩
    refine beginCall_sound_of_idle rfl hsetting hidle (fun e he => ?_) f args held
    have hleft := hsetting.leave hidle (s := .error e) he.ordinary
    rwa [← outline_stack, Outline.withStack_stack] at hleft

/-- A call is refused, or begins at a place of the stack where native code waits for it. -/
theorem beginCall (h : m.Callable t) (f : Value) (args held : Values) :
    (∃ e : Error, e.IsRaised ∧ m.beginCall t f args held = (m, .error e)) ∨
      ∃ c, m.Awaits t c ∧ (m.beginCall t f args held).1.Nests c (m.beginCall t f args held).2 := by
  have hrange := h.range
  have hprevious :
      (if !(m.thread t).status.isActive then some (m.thread t).status else none) = m.previousStatus? t := by
    rw [previousStatus?, outline_thread, Thread.outline]
    cases (m.thread t).status.isActive <;> rfl
  unfold Machine.beginCall
  extract_lets th idle previous begun floor pushed
  split
  · exact Or.inl ⟨_, m.isRaised_errorHere t _, rfl⟩
  split
  · exact Or.inl ⟨_, m.isRaised_errorHere t _, rfl⟩
  rename_i callee args' _
  refine Or.inr ?_
  have hthread : begun.thread t = _ := thread_modifyThread hrange _
  have hbegun (floor : Option Nat) (held : Values) (hfloor : ∀ k ∈ floor, k = (m.thread t).frames.length) :
      ∃ c, m.Awaits t c ∧ c.thread = t ∧ (begun.push (.endCall t floor previous held)).AtLevel c := by
    refine ⟨⟨t, begun.thread t, .endCall t floor previous held :: m.stack, m.natives, none,
      by simp [Activation.thread?]⟩,
      ⟨rfl, by rw [hthread], by rw [hthread], by rw [hthread]; exact ⟨rfl, rfl, rfl, rfl, rfl⟩, floor, held, ?_,
        hfloor⟩, rfl, .bottom rfl rfl rfl, ?_, fun _ => ⟨rfl, rfl, rfl, rfl, rfl⟩, fun n hn => Or.inl hn⟩
    · rw [← hprevious]
    · exact Nat.lt_of_lt_of_eq hrange (m.confined_modifyThread t _).size.symm
  cases callee with
  | native id =>
    obtain ⟨c, hawaits, -, hlevel⟩ := hbegun none (f :: .native id :: held) (by rintro _ ⟨⟩)
    exact ⟨c, hawaits, .level hlevel⟩
  | closure id =>
    have hframes : (begun.thread t).frames = (m.thread t).frames := by rw [hthread]
    have hfloor : floor = (m.thread t).frames.length := by
      show (begun.thread t).depth = _
      rw [hthread]
      exact h.counts
    obtain ⟨c, hawaits, rfl, hlevel⟩ := hbegun (some floor) (f :: held) (by rintro _ ⟨⟩; exact hfloor)
    refine ⟨c, hawaits, ?_⟩
    dsimp only
    cases hentered : pushed.pushFrame c.thread id args' .host with | mk m' s =>
    obtain ⟨rfl, hnests⟩ | ⟨⟨e, rfl⟩, hlevel⟩ :=
      AtLevel.enterClosure hlevel .call (hfloor.trans (by rw [← hframes]; rfl)) hentered
    · exact hnests
    · exact .level hlevel

end Callable

/-- The step that ends a call restores the machine and leaves its outcome. -/
theorem Awaits.ends (h : m.Awaits t c) (hcallable : m.Callable t) (hnests : n.Nests c s)
    (hsound : n.outline.Sound scope s) (hbase : n.stack ≠ scope.base) (hstack : n.stack = c.bottom)
    (hinvoke : ∀ u id args, s ≠ .invoke u id args) : m.Restored (n.step s).1 t ∧ (n.step s).2 = s ∧ s.EndsCall := by
  obtain ⟨rfl, hbefore, hdepth, hsame, floor, held, hbottom, hfloor⟩ := h
  rw [hbottom] at hstack
  obtain ⟨hrunning, hs⟩ := running_of_endCall hsound hbase hstack hinvoke
  obtain ⟨fs, hat, hframes, hcut⟩ := hnests.frames_endCall hstack
  have hlevels := hat.levels
  rw [hstack, ← hbottom] at hlevels
  obtain ⟨hfs, hnative⟩ := hlevels.of_bottom
  rw [hbefore] at hfs
  rw [hdepth] at hnative
  subst hfs
  have hschedule := hsame.trans (hat.schedule (by rw [hdepth]; exact Nat.succ_pos _))
  rw [step_cons hstack hinvoke]
  set ended : Machine := { n with inUse := [], stack := m.stack } with hended
  have hthread := thread_stepEndCall ended c.thread hat.range (counts_of_sound hsound c.thread) hframes hcut hfloor
    (m.previousStatus? c.thread)
  have hstatus : (m.previousStatus? c.thread).getD (n.thread c.thread).status = (m.thread c.thread).status := by
    rw [hrunning]
    exact hcallable.status
  have hsignal : (ended.stepEndCall c.thread floor (m.previousStatus? c.thread) s).2 = s := by
    obtain ⟨vs, rfl⟩ | ⟨e, rfl, -⟩ := hs <;> rfl
  have hlater : (m.thread c.thread).SameSchedule { n.thread c.thread with
      frames := (m.thread c.thread).frames
      depth := (m.thread c.thread).frames.length
      nativeDepth := (n.thread c.thread).nativeDepth - 1
      status := (m.previousStatus? c.thread).getD (n.thread c.thread).status } :=
    hschedule.trans ⟨rfl, rfl, rfl, rfl, rfl⟩
  have hrestored := hlater.eq hstatus rfl hcallable.counts.symm (by dsimp only; rw [hnative]; rfl)
  exact ⟨⟨(confined_stepEndCall ended c.thread floor _ s).stack, _, hthread.trans hrestored⟩, hsignal, hs⟩

/-- A call that returns restores the machine. -/
theorem Callable.call_restores (h : m.Callable t) {f : Value} {args held : Values}
    (hreturns : m.call fuel t f args held = some (m', s))
    (hlibrary : StaysInLibrary m.stack fuel (m.beginCall t f args held).1 (m.beginCall t f args held).2) :
    m.Restored m' t ∧ s.EndsCall := by
  obtain ⟨e, he, hrefused⟩ | ⟨c, hawaits, hnests⟩ := h.beginCall f args held
  · unfold call at hreturns
    rw [hrefused] at hreturns
    cases eq_of_runAbove hreturns rfl (by rintro _ _ _ ⟨⟩)
    exact ⟨⟨rfl, _, rfl⟩, Or.inr ⟨e, rfl, .host, he.ordinary⟩⟩
  · obtain ⟨floor, waiting, hbottom, -⟩ := hawaits.bottom
    have hlength : m.stack.length < c.bottom.length := by
      rw [hbottom]
      exact Nat.lt_succ_self _
    obtain ⟨scope, hscope, hbegins⟩ := h.beginCall_sound f args held
    have habove : scope.base.length < c.bottom.length := Nat.lt_of_le_of_lt hscope hlength
    obtain ⟨k, n, u, hback, hsound, hstack, hinvoke, hrun⟩ := hnests.comesBack hbegins habove hlength hreturns hlibrary
    have hbase : n.stack ≠ scope.base := by
      rw [hstack]
      exact fun heq => Nat.ne_of_gt habove (congrArg List.length heq)
    obtain ⟨hrestored, hsignal, hends⟩ := hawaits.ends h hback hsound hbase hstack hinvoke
    obtain ⟨l, -, hrest⟩ := runAbove_of_working (isWorkingAbove_of_cons (hstack.trans hbottom) u) hrun
    rw [hsignal] at hrest
    cases eq_of_runAbove hrest hrestored.stack hinvoke
    exact ⟨hrestored, hends⟩

/-- The thread of a native function that is about to run is at work. -/
theorem exists_works {id : NativeId} {args : Values} (h : m.outline.Sound scope (.invoke t id args)) :
    ∃ acts below ts, m.Works scope t acts below ts := by
  cases h with
  | atRest _ _ _ hs => cases hs
  | back _ _ _ hs => cases hs
  | working hstack hsetting hstatus hready =>
    cases hready with
    | invoke hacts => exact ⟨_, _, _, hstack, hsetting, hstatus, hacts⟩
    | pause hs => obtain hnot | ⟨vs, hnot⟩ := hs <;> cases hnot

/-- Native code may call functions whenever a host's operation reaches it. -/
theorem Reached.callable {id : NativeId} {args : Values} (h : m.Reached (.invoke t id args)) : m.Callable t := by
  obtain ⟨acts, below, ts, hworks⟩ := exists_works h.sound
  exact .working hworks

/-- A host may call functions on every thread that exists. -/
theorem AtRest.callable (h : m.AtRest scope) (hscope : scope.Whole) (hrange : t.index < m.threads.size) :
    m.Callable t := by
  refine .idle ?_ (h.idle t)
  rw [h.stack]
  exact h.setting hscope hrange

/-- A protected call begins: its arguments are refused, or native code calls the function given. -/
theorem step_protect {id : NativeId} (hpcall : (m.native id).body = .base .pcall) (t : ThreadId) (args : Values) :
    (∃ e : Error, e.IsRaised ∧ m.step (.invoke t id args) = ({ m with inUse := args }, .error e)) ∨
      ∃ f, m.step (.invoke t id args) = ({ m with inUse := args }.push .protect).beginCall t f (args.drop 1) [] := by
  have hbase : Checked (fun effect => ∃ f, effect = fun m => (m.push .protect).beginCall t f (args.drop 1) [])
      ({ m with inUse := args }.base t .pcall args) :=
    (checked_requireArg _ t args 1 _).bind fun f _ => ⟨f, rfl⟩
  show (∃ e : Error, e.IsRaised ∧ m.invoke t id args = _) ∨ ∃ f, m.invoke t id args = _
  unfold invoke
  dsimp only
  rw [show ({ m with inUse := args } : Machine).native id = m.native id from rfl, hpcall, effect]
  cases heffect : ({ m with inUse := args } : Machine).base t .pcall args with
  | error e =>
    rw [heffect] at hbase
    exact Or.inl ⟨e, hbase, rfl⟩
  | ok effect =>
    rw [heffect] at hbase
    obtain ⟨f, rfl⟩ := hbase
    exact Or.inr ⟨f, rfl⟩

/-- A protected call restores the machine, also if it catches an error. -/
theorem protect_restores {id : NativeId} {args : Values} (hsound : m.outline.Sound scope (.invoke t id args))
    (hpcall : (m.native id).body = .base .pcall)
    (hreturns : runAbove m.stack fuel m (.invoke t id args) = some (m', s))
    (hlibrary : StaysInLibrary m.stack fuel m (.invoke t id args)) : m.Restored m' t ∧ s.EndsCall := by
  obtain ⟨k, rfl, hrun⟩ := runAbove_of_working rfl hreturns
  obtain ⟨-, hstays⟩ := hlibrary rfl
  obtain ⟨e, he, hrefused⟩ | ⟨f, hcalls⟩ := step_protect hpcall t args
  · rw [hrefused] at hrun
    cases eq_of_runAbove hrun rfl (by rintro _ _ _ ⟨⟩)
    exact ⟨⟨rfl, _, rfl⟩, Or.inr ⟨e, rfl, .host, he.ordinary⟩⟩
  · rw [hcalls] at hrun hstays
    set protecting : Machine := ({ m with inUse := args } : Machine).push .protect with hprotecting
    obtain ⟨acts, below, ts, hworks⟩ := exists_works hsound
    have hcalling : ({ m with inUse := args } : Machine).Works scope t acts below ts := hworks.congr rfl
    have hcallable : protecting.Callable t := .working (hcalling.push (a := .protect) trivial)
    have hlength : m.stack.length ≤ protecting.stack.length := Nat.le_succ _
    obtain ⟨k', l, n, u, -, hcall, hinside, hrest⟩ := runAbove_split hlength hrun
    obtain ⟨⟨hstack, instructions, hthread⟩, hends⟩ := hcallable.call_restores hcall (hinside hstays)
    obtain ⟨j, -, hlast⟩ := runAbove_of_working (isWorkingAbove_of_cons hstack u) hrest
    have hprotect := hends.protect
    rw [step_cons hstack hends.ne_invoke] at hlast
    cases eq_of_runAbove hlast rfl hprotect.ne_invoke
    exact ⟨⟨rfl, instructions, hthread⟩, hprotect⟩

/-- A call from native code on any thread, in any state, restores the thread and the work in progress once it returns,
whether it succeeds or fails. So a protected call restores them when it catches an error. -/
theorem calls_restore :
    (∀ {m m' : Machine} {t : ThreadId} {fuel : Nat} {f : Value} {args held : Values} {s : Signal}, m.Callable t →
      m.call fuel t f args held = some (m', s) →
      StaysInLibrary m.stack fuel (m.beginCall t f args held).1 (m.beginCall t f args held).2 →
      m.Restored m' t ∧ s.EndsCall) ∧
    ∀ {scope : Scope} {m m' : Machine} {t : ThreadId} {fuel : Nat} {id : NativeId} {args : Values} {s : Signal},
      m.outline.Sound scope (.invoke t id args) → (m.native id).body = .base .pcall →
      runAbove m.stack fuel m (.invoke t id args) = some (m', s) →
      StaysInLibrary m.stack fuel m (.invoke t id args) → m.Restored m' t ∧ s.EndsCall :=
  ⟨fun h hreturns hlibrary => h.call_restores hreturns hlibrary, fun hsound hpcall hreturns hlibrary =>
    protect_restores hsound hpcall hreturns hlibrary⟩

section Sample

/-- A frame that waits for the results of a native function that yielded. -/
def pendingFrame : Frame := ⟨⟨0⟩, default, ⟨0⟩, [], [], 1, 0, .host, some ⟨⟨0, some 1, .store⟩, false⟩, 0⟩

/-- A machine with a function that protects and one that fails, and with a suspended thread. -/
def waiting : Machine :=
  { natives := #[⟨"pcall", .base .pcall⟩, ⟨"error", .base .error⟩]
    threads := #[{ number := 1, status := .suspended, frames := [pendingFrame], depth := 1 }]
    nextThreadNumber := 2 }

theorem atRest_waiting : waiting.AtRest .host := by
  refine ⟨fun n hn => ?_, rfl, ?_⟩
  · have hcases : n = ⟨"pcall", .base .pcall⟩ ∨ n = ⟨"error", .base .error⟩ := by simpa [waiting] using hn
    obtain rfl | rfl := hcases <;> trivial
  · rintro ⟨_ | i⟩ <;> rw [outline_thread]
    · refine ⟨⟨rfl, by decide⟩, rfl, rfl, Or.inl ⟨⟨.host rfl rfl, ?_⟩, rfl⟩⟩
      rintro p ⟨⟩ _
      exact Continuation.noConfusion
    · rw [thread, show waiting.threads[i + 1]? = none from Array.getElem?_eq_none (Nat.le_add_left 1 i)]
      exact ⟨⟨rfl, Nat.zero_le _⟩, rfl, rfl, rfl⟩

/-- The host calls `pcall` on the suspended thread with a function that fails, which `pcall` calls in turn. -/
theorem calls_restore_of_error :
    let calling := (waiting.beginCall ⟨0⟩ (.native ⟨0⟩) [.native ⟨1⟩, .int 7] []).1
    ∃ called caught,
      waiting.call 6 ⟨0⟩ (.native ⟨0⟩) [.native ⟨1⟩, .int 7] [] = some (called, .values [.bool false, .int 7]) ∧
      waiting.Restored called ⟨0⟩ ∧
      runAbove calling.stack 5 calling (.invoke ⟨0⟩ ⟨0⟩ [.native ⟨1⟩, .int 7]) =
        some (caught, .values [.bool false, .int 7]) ∧ calling.Restored caught ⟨0⟩ := by
  intro calling
  have hcalled {m : Machine} {s : Signal}
      (hreturns : waiting.call 6 ⟨0⟩ (.native ⟨0⟩) [.native ⟨1⟩, .int 7] [] = some (m, s)) : waiting.Restored m ⟨0⟩ :=
    (calls_restore.1 (atRest_waiting.callable .host (by decide)) hreturns (by decide +kernel)).1
  have hcaught {m : Machine} {s : Signal}
      (hreturns : runAbove calling.stack 5 calling (.invoke ⟨0⟩ ⟨0⟩ [.native ⟨1⟩, .int 7]) = some (m, s)) :
      calling.Restored m ⟨0⟩ :=
    (calls_restore.2 (atRest_waiting.call .host (by decide) _ _ []) rfl hreturns (by decide +kernel)).1
  exact ⟨_, _, rfl, hcalled rfl, rfl, hcaught rfl⟩

end Sample

/-- No outcome of a call keeps its thread from being resumed, not even a fatal error: where a resume would have gone on
before the call, one after it goes on, with the frames that the thread had. -/
theorem Callable.beginResume_of_call (h : m.Callable t) {f : Value} {args held : Values}
    (hreturns : m.call fuel t f args held = some (m', s))
    (hlibrary : StaysInLibrary m.stack fuel (m.beginCall t f args held).1 (m.beginCall t f args held).2)
    (hresumable : (m.thread t).status.isResumable = true) (hsleep : (m.thread t).sleep = 0) (budget : Option Nat)
    (values : Values) : (m'.thread t).frames = (m.thread t).frames ∧
      m'.beginResume t budget values =
        (m'.modifyThread t fun th => { th with status := .running, instructions := 0 }).beginResumed t
          (m.thread t).depth (frameLimit (m.thread t).depth budget) values := by
  obtain ⟨⟨-, instructions, hthread⟩, -⟩ := h.call_restores hreturns hlibrary
  have hidle : (m.thread t).status.isActive = false := by
    cases hstatus : (m.thread t).status <;> rw [hstatus] at hresumable <;> first | rfl | cases hresumable
  refine ⟨by rw [hthread], ?_⟩
  rw [beginResume, hthread]
  simp [hsleep, hidle, hresumable]

/-- The host calls a function without instructions on the suspended thread, which stays suspended. -/
example : let m := (waiting.addClosure ⟨{}, [], ⟨0⟩⟩).1
    ∃ m', m.call 4 ⟨0⟩ (.closure ⟨0⟩) [] [] = some (m', .error (.fatal (.badProgramCounter 0))) ∧
      (m'.thread ⟨0⟩).status = .suspended ∧ (m'.thread ⟨0⟩).frames = [pendingFrame] :=
  ⟨_, rfl, rfl, rfl⟩

end Machine

end LuaMachine
