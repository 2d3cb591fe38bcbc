import LuaMachine.Proofs.Machine.Fatality
import LuaMachine.Proofs.Machine.NumericLoop
import LuaMachine.Proofs.Value.Endless

namespace LuaMachine.NumericLoop

variable {l : NumericLoop} {m m' : Machine} {v : Value} {init limit step : Int64} {index : Int}

/-- A thread stands at the test of a loop over integers, and nothing stops it. -/
structure Waits (l : NumericLoop) (m : Machine) (limit step : Int64) (index : Int) : Prop where
  fuse : m.limits.fuse = none
  stands : l.Stands m l.test
  holds : ∃ v : Value, v.IsWhole index ∧ l.Holds m v (.int limit) (.int step)
  stays : Arithmetic.Stays step.toInt index

theorem mayRun_of_unlimited (h : m.limits.fuse = none) (t : ThreadId) : m.MayRun t := by
  intro fuse hfuse
  rw [h] at hfuse
  cases hfuse

/-- One turn of an empty loop: the index is the next one, or the loop is left. -/
theorem Waits.step_cases (h : l.Waits m limit step index) (hempty : l.body = l.test) :
    ∃ m', m.step .go = (m', .go) ∧
      if Arithmetic.GoesOn limit.toInt step.toInt index then
        l.Waits m' limit step (Arithmetic.nextIndex step.toInt index)
      else l.Stands m' (l.test + 1) := by
  obtain ⟨v, hwhole, hholds⟩ := h.holds
  obtain ⟨m', hgoes, hm'⟩ := (h.stands.step_test hholds).resolve_left fun hspent =>
    hspent.1 (mayRun_of_unlimited h.fuse l.thread)
  obtain ⟨hnext, hgoesOn⟩ := Arithmetic.forStep_of_isWhole limit step hwhole h.stays.natAbs_le
  simp only [hgoesOn] at hm'
  refine ⟨m', hgoes.step, ?_⟩
  split
  · rename_i hon
    rw [if_pos hon, hempty] at hm'
    exact ⟨hgoes.limits ▸ h.fuse, hm'.1, ⟨_, hnext, hm'.2.1⟩,
      h.stays.next (Arithmetic.inRange_toInt limit) (Arithmetic.inRange_toInt step) hon⟩
  · rename_i hoff
    rw [if_neg hoff] at hm'
    exact hm'.1

/-- An empty loop is left if the indices end it, -/
theorem Waits.leaves (h : l.Waits m limit step index) (hempty : l.body = l.test)
    (hends : Arithmetic.Ends limit.toInt step.toInt index) :
    ∃ k m', Machine.after k (m, .go) = (m', .go) ∧ l.Stands m' (l.test + 1) := by
  induction hends generalizing m with
  | stops hstops =>
    obtain ⟨m', hstep, hm'⟩ := h.step_cases hempty
    rw [if_neg hstops] at hm'
    exact ⟨1, m', hstep, hm'⟩
  | @next index _ ih =>
    obtain ⟨m', hstep, hm'⟩ := h.step_cases hempty
    split at hm'
    · obtain ⟨k, left, hk, hleft⟩ := ih hm'
      exact ⟨k + 1, left, by rw [Machine.after_succ', hstep, hk], hleft⟩
    · exact ⟨1, m', hstep, hm'⟩

/-- and only then. -/
theorem Waits.ends (h : l.Waits m limit step index) (hempty : l.body = l.test) {k : Nat}
    (hk : Machine.after k (m, .go) = (m', .go)) (hleft : l.Stands m' (l.test + 1)) :
    Arithmetic.Ends limit.toInt step.toInt index := by
  induction k generalizing m index with
  | zero =>
    obtain rfl : m = m' := congrArg Prod.fst hk
    have := h.stands.unique hleft
    omega
  | succ k ih =>
    obtain ⟨next, hstep, hnext⟩ := h.step_cases hempty
    rw [Machine.after_succ', hstep] at hk
    split at hnext
    · exact .next (ih hnext hk)
    · rename_i hstops
      exact .stops hstops

/-- A thread that may run for ever leaves an empty loop over integers, unless its index is caught at the end of the
integers. -/
theorem leaves_iff (hempty : l.body = l.test) (hfuse : m.limits.fuse = none) (hstands : l.Stands m l.prepare)
    (hholds : l.Holds m (.int init) (.int limit) (.int step)) (hstep : step ≠ 0) :
    (∃ k m', Machine.after k (m, .go) = (m', .go) ∧ l.Stands m' (l.test + 1)) ↔
      ¬Arithmetic.Spins init.toInt limit.toInt step.toInt := by
  have hinit := Arithmetic.inRange_toInt init
  have hrange := Arithmetic.inRange_toInt step
  have hzero : step.toInt ≠ 0 := fun h => hstep (Int64.toInt_inj.mp h)
  obtain ⟨v, hv, hwhole⟩ := Arithmetic.exists_raw?_sub init hstep
  obtain ⟨m', hgoes, htest, hholds'⟩ := hstands.step_prepare_int (mayRun_of_unlimited hfuse l.thread) hholds
  rw [hv, Option.getD_some] at hholds'
  have hwaits : l.Waits m' limit step (Arithmetic.startIndex init.toInt step.toInt) :=
    ⟨hgoes.limits ▸ hfuse, htest, ⟨v, hwhole, hholds'⟩, Arithmetic.stays_startIndex hinit hrange⟩
  rw [← Arithmetic.ends_startIndex_iff hinit (Arithmetic.inRange_toInt limit) hrange hzero]
  constructor
  · rintro ⟨k, left, hk, hleft⟩
    cases k with
    | zero =>
      obtain rfl : m = left := congrArg Prod.fst hk
      have hunique := hstands.unique hleft
      have hbefore := l.prepare_lt_body
      omega
    | succ k =>
      rw [Machine.after_succ', hgoes.step] at hk
      exact hwaits.ends hempty hk hleft
  · intro hends
    obtain ⟨k, left, hk, hleft⟩ := hwaits.leaves hempty hends
    exact ⟨k + 1, left, by rw [Machine.after_succ', hgoes.step, hk], hleft⟩

end LuaMachine.NumericLoop
