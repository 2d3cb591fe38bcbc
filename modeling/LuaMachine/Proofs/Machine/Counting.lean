import LuaMachine.Proofs.Machine.NumericLoop
import LuaMachine.Proofs.Value.Stepping

namespace LuaMachine

namespace NumericLoop

variable {l : NumericLoop} {m m' : Machine}

/-- The index, the limit and the step of a loop are as they were. -/
def Keeps (l : NumericLoop) (m m' : Machine) : Prop :=
  ∀ j < 3, m'.register l.file (l.base + j) = m.register l.file (l.base + j)

/-- The body is entered with an index in both registers that show it. -/
def Shows (l : NumericLoop) (m : Machine) (index : Int) : Prop :=
  ∃ i : Int64, i.toInt = index ∧ m.register l.file l.base = .int i ∧ m.register l.file (l.base + 3) = .int i

/-- What comes of a loop that stands at its test: one lap after the other, from the test to the body and, by whatever
runs the body, back to the test. The list has the machines that the body was entered in. -/
inductive Laps (l : NumericLoop) (runs : Machine → Machine → Prop) (m : Machine) : List Machine → Machine → Prop
  | start : Laps l runs m [] m
  | lap {entries : List Machine} {tested entered back : Machine} (hlaps : Laps l runs m entries tested)
      (hstep : tested.step .go = (entered, .go)) (hbody : l.Stands entered l.body) (hruns : runs entered back) :
      Laps l runs m (entries ++ [entered]) back

/-- The thread stands at the test of a loop over integers after `n` rounds. -/
structure Counts (l : NumericLoop) (m : Machine) (init limit step : Int64) (n : Nat) : Prop where
  stands : l.Stands m l.test
  holds : ∃ index : Int64, index.toInt = init.toInt + n * step.toInt - step.toInt ∧
    l.Holds m (.int index) (.int limit) (.int step)
  le_rounds : n ≤ Arithmetic.rounds init.toInt limit.toInt step.toInt

/-- The steps of a loop over integers that has room for them. -/
structure Visits (l : NumericLoop) (runs : Machine → Machine → Prop) (m : Machine) (init limit step : Int) : Prop where
  /-- The body is entered with the indices in order, -/
  shows : ∀ {entries m'}, l.Laps runs m entries m' → ∀ {n : Nat} {e}, entries[n]? = some e → l.Shows e (init + n * step)
  /-- and no more often than there are rounds. -/
  le_rounds : ∀ {entries m'}, l.Laps runs m entries m' → entries.length ≤ Arithmetic.rounds init limit step
  /-- It is entered again as long as there is a round left, -/
  enters : ∀ {entries m'}, l.Laps runs m entries m' → m'.MayRun l.thread →
    entries.length < Arithmetic.rounds init limit step → ∃ e, m'.step .go = (e, .go) ∧ l.Stands e l.body
  /-- and after the last round the loop is left with all registers as they are. -/
  leaves : ∀ {entries m'}, l.Laps runs m entries m' → m'.MayRun l.thread →
    entries.length = Arithmetic.rounds init limit step →
    ∃ e, m'.step .go = (e, .go) ∧ l.Stands e (l.test + 1) ∧ e.files = m'.files
  /-- It comes to that if each run of the body comes back. -/
  ends : (∀ {entries m'}, l.Laps runs m entries m' → m'.MayRun l.thread) →
    (∀ {entries m' e}, l.Laps runs m entries m' → m'.step .go = (e, .go) → l.Stands e l.body → ∃ back, runs e back) →
    ∃ entries m', l.Laps runs m entries m' ∧ entries.length = Arithmetic.rounds init limit step

section Integers

variable {init limit step : Int64} {n : Nat} {runs : Machine → Machine → Prop} {entries : List Machine}

/-- At the test after some rounds, the next one begins, or the loop is left if it was the last one. -/
theorem Counts.step_cases (h : l.Counts m init limit step n)
    (hroom : Arithmetic.HasRoom init.toInt limit.toInt step.toInt) :
    (¬m.MayRun l.thread ∧ ∃ m' e, m.step .go = (m', .error e)) ∨
    ∃ m', m.step .go = (m', .go) ∧
      if n < Arithmetic.rounds init.toInt limit.toInt step.toInt then
        l.Stands m' l.body ∧ ∃ index : Int64, index.toInt = init.toInt + n * step.toInt ∧
          l.Holds m' (.int index) (.int limit) (.int step) ∧ m'.register l.file (l.base + 3) = .int index
      else l.Stands m' (l.test + 1) ∧ m'.files = m.files := by
  obtain ⟨index, hindex, hholds⟩ := h.holds
  have hnext : index.toInt + step.toInt = init.toInt + n * step.toInt := by omega
  obtain ⟨next, hvalue, hresult, hgoes⟩ := Arithmetic.forStep_of_inRange limit
    (hnext ▸ hroom.inRange (Arithmetic.inRange_toInt init) h.le_rounds)
  rw [hvalue, hnext, ← Arithmetic.lt_rounds_iff hroom.step_ne_zero] at hgoes
  refine (h.stands.step_test hholds).imp_right fun ⟨m', hstep, hm'⟩ => ⟨m', hstep.step, ?_⟩
  simp only [hgoes, hresult] at hm'
  split
  · rename_i hround
    rw [if_pos hround] at hm'
    exact ⟨hm'.1, next, hvalue.trans hnext, hm'.2⟩
  · rename_i hlast
    rwa [if_neg hlast] at hm'

/-- A body that came back with the registers of the loop as they were leaves the loop a round further. -/
theorem Counts.lap {e back : Machine} (h : l.Counts m init limit step n)
    (hroom : Arithmetic.HasRoom init.toInt limit.toInt step.toInt) (hstep : m.step .go = (e, .go))
    (hbody : l.Stands e l.body) (hback : l.Stands back l.test) (hkeeps : l.Keeps e back) :
    l.Shows e (init.toInt + n * step.toInt) ∧ l.Counts back init limit step (n + 1) := by
  obtain ⟨-, m', error, herror⟩ | ⟨m', hgo, hm'⟩ := h.step_cases hroom
  · cases hstep.symm.trans herror
  obtain rfl : e = m' := congrArg Prod.fst (hstep.symm.trans hgo)
  split at hm'
  · rename_i hround
    obtain ⟨-, i, hi, hholds, hshown⟩ := hm'
    refine ⟨⟨i, hi, hholds.index, hshown⟩, ⟨hback, ⟨i, ?_, ?_, ?_, ?_⟩, hround⟩⟩
    · rw [hi]
      push_cast
      ring
    · exact (hkeeps 0 (by decide)).trans hholds.index
    · exact (hkeeps 1 (by decide)).trans hholds.limit
    · exact (hkeeps 2 (by decide)).trans hholds.step
  · have hbeyond := hbody.unique hm'.1
    have hbefore := l.body_le_test
    omega

/-- The laps of a loop over integers, by induction on them. -/
theorem Counts.laps (h : l.Counts m init limit step 0) (hroom : Arithmetic.HasRoom init.toInt limit.toInt step.toInt)
    (hruns : ∀ e back, l.Stands e l.body → runs e back → l.Stands back l.test ∧ l.Keeps e back)
    (hlaps : l.Laps runs m entries m') :
    l.Counts m' init limit step entries.length ∧
      ∀ {n : Nat} {e}, entries[n]? = some e → l.Shows e (init.toInt + n * step.toInt) := by
  induction hlaps with
  | start => exact ⟨h, nofun⟩
  | @lap entries tested e back hlaps hstep hbody hrun ih =>
    obtain ⟨hcounts, hshows⟩ := ih
    obtain ⟨hback, hkeeps⟩ := hruns e back hbody hrun
    obtain ⟨hshown, hcounted⟩ := hcounts.lap hroom hstep hbody hback hkeeps
    rw [List.length_append]
    refine ⟨hcounted, fun {n e'} hentry => ?_⟩
    rw [List.getElem?_append] at hentry
    split at hentry
    · exact hshows hentry
    · rename_i hlast
      obtain ⟨hn, rfl⟩ := List.getElem?_eq_some_iff.mp hentry
      obtain rfl : n = entries.length := by
        rw [List.length_singleton] at hn
        omega
      simpa using hshown

/-- Before the last round the body is entered. -/
theorem Counts.enters (h : l.Counts m init limit step n)
    (hroom : Arithmetic.HasRoom init.toInt limit.toInt step.toInt) (hmay : m.MayRun l.thread)
    (hround : n < Arithmetic.rounds init.toInt limit.toInt step.toInt) :
    ∃ e, m.step .go = (e, .go) ∧ l.Stands e l.body := by
  obtain ⟨e, hstep, he⟩ := (h.step_cases hroom).resolve_left fun hspent => hspent.1 hmay
  rw [if_pos hround] at he
  exact ⟨e, hstep, he.1⟩

/-- After the last round the loop is left. -/
theorem Counts.leaves (h : l.Counts m init limit step n)
    (hroom : Arithmetic.HasRoom init.toInt limit.toInt step.toInt) (hmay : m.MayRun l.thread)
    (hlast : n = Arithmetic.rounds init.toInt limit.toInt step.toInt) :
    ∃ e, m.step .go = (e, .go) ∧ l.Stands e (l.test + 1) ∧ e.files = m.files := by
  obtain ⟨e, hstep, he⟩ := (h.step_cases hroom).resolve_left fun hspent => hspent.1 hmay
  rw [if_neg (Nat.not_lt.mpr hlast.ge)] at he
  exact ⟨e, hstep, he⟩

theorem Counts.visits (h : l.Counts m init limit step 0) (hroom : Arithmetic.HasRoom init.toInt limit.toInt step.toInt)
    (hruns : ∀ e back, l.Stands e l.body → runs e back → l.Stands back l.test ∧ l.Keeps e back) :
    l.Visits runs m init.toInt limit.toInt step.toInt where
  shows hlaps := (h.laps hroom hruns hlaps).2
  le_rounds hlaps := (h.laps hroom hruns hlaps).1.le_rounds
  enters hlaps := (h.laps hroom hruns hlaps).1.enters hroom
  leaves hlaps := (h.laps hroom hruns hlaps).1.leaves hroom
  ends hmay hcomes := by
    have hlaps (n : Nat) (hn : n ≤ Arithmetic.rounds init.toInt limit.toInt step.toInt) :
        ∃ entries m', l.Laps runs m entries m' ∧ entries.length = n := by
      induction n with
      | zero => exact ⟨[], m, .start, rfl⟩
      | succ n ih =>
        obtain ⟨entries, m', hlaps, rfl⟩ := ih (Nat.le_of_succ_le hn)
        obtain ⟨e, hstep, hbody⟩ := (h.laps hroom hruns hlaps).1.enters hroom (hmay hlaps) hn
        obtain ⟨back, hback⟩ := hcomes hlaps hstep hbody
        exact ⟨_, back, .lap hlaps hstep hbody hback, List.length_append⟩
    exact hlaps _ le_rfl

/-- A loop over integers that has room for its steps visits the arithmetic progression from its first index to the
limit, whatever its body does to anything but the index, the limit and the step. -/
theorem visits_progression (hstands : l.Stands m l.prepare) (hmay : m.MayRun l.thread)
    (hinit : m.register l.file l.base = .int init) (hlimit : m.register l.file (l.base + 1) = .int limit)
    (hstep : m.register l.file (l.base + 2) = .int step)
    (hroom : Arithmetic.HasRoom init.toInt limit.toInt step.toInt)
    (hruns : ∀ e back, l.Stands e l.body → runs e back → l.Stands back l.test ∧ l.Keeps e back) :
    ∃ m', m.step .go = (m', .go) ∧ l.Stands m' l.test ∧ l.Visits runs m' init.toInt limit.toInt step.toInt := by
  obtain ⟨first, hfits, hfirst⟩ := Arithmetic.exists_int64 hroom.init
  obtain ⟨m', hgoes, htest, hholds⟩ := hstands.step_prepare_int hmay ⟨hinit, hlimit, hstep⟩
  have hback : Arithmetic.raw? .sub (.int init) (.int step) = some (.int first) := by
    show some (Arithmetic.fitted (init.toInt - step.toInt) _) = _
    rw [Arithmetic.fitted, hfits]
  rw [hback, Option.getD_some] at hholds
  exact ⟨m', hgoes.step, htest,
    Counts.visits ⟨htest, ⟨first, by simpa using hfirst, hholds⟩, Nat.zero_le _⟩ hroom hruns⟩

end Integers

section Sample

/-- A function that counts from its first argument to the second one by the third one, and copies each index. -/
def countingPrototype : Prototype where
  paramCount := 3
  stackSize := 5
  code := #[.ofAsBx .forPrep 0 1, .ofABC .move 4 3 0, .ofAsBx .forLoop 0 (-2), .ofABC .ret 0 1 0]

/-- A thread is about to count three rounds next to the greatest integer. -/
def counting : Machine :=
  let m : Machine := { limits := { fuse := none }, closures := #[⟨countingPrototype, [], ⟨0⟩⟩] }
  ((m.newThread (.closure ⟨0⟩) [.int 9223372036854775804, .int 9223372036854775806, .int 1]).1.beginResume ⟨0⟩ none
    []).1

def countingLoop : NumericLoop where
  thread := ⟨0⟩
  closure := ⟨0⟩
  file := ⟨0⟩
  base := 0
  prepare := 0
  body := 1
  test := 2
  prepare_lt_body := by decide
  body_le_test := by decide

theorem isIn_countingPrototype : countingLoop.IsIn countingPrototype.code where
  prepares := ⟨.ofAsBx .forPrep 0 1, by rfl, by rfl, by rfl, by rfl⟩
  tests := ⟨.ofAsBx .forLoop 0 (-2), by rfl, by rfl, by rfl, by rfl⟩

/-- The loop is just before its preparation. -/
theorem stands_counting : countingLoop.Stands counting countingLoop.prepare where
  reads := ⟨⟨⟨0⟩, 0, none, .entering⟩, [.endResume ⟨0⟩ 0 []], rfl, by rfl, .inr ⟨rfl,
    ⟨⟨0⟩, countingPrototype, ⟨0⟩, [], [], 0, 0, .host, none, 0⟩, by rfl, rfl⟩⟩
  frames := by
    have hframes : (counting.thread ⟨0⟩).frames.length = 1 := by rfl
    exact List.ne_nil_of_length_eq_add_one hframes
  file := by decide
  code := isIn_countingPrototype

/-- The one instruction of the body of the loop. -/
def copies (e back : Machine) : Prop :=
  e.step .go = (back, .go) ∧ countingLoop.Stands back countingLoop.test ∧ countingLoop.Keeps e back

theorem visits_progression_counting :
    ∃ m', counting.step .go = (m', .go) ∧ countingLoop.Stands m' countingLoop.test ∧
      countingLoop.Visits copies m' 9223372036854775804 9223372036854775806 1 :=
  have hinit : counting.register countingLoop.file countingLoop.base = .int 9223372036854775804 := by rfl
  have hlimit : counting.register countingLoop.file (countingLoop.base + 1) = .int 9223372036854775806 := by rfl
  have hstep : counting.register countingLoop.file (countingLoop.base + 2) = .int 1 := by rfl
  visits_progression stands_counting nofun hinit hlimit hstep ⟨by decide, by decide, by decide⟩ fun _ _ _ hcopies =>
    hcopies.2

end Sample

end NumericLoop

end LuaMachine
