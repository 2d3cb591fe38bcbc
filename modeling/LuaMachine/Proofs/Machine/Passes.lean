import LuaMachine.Proofs.Machine.GroundingSteps
import LuaMachine.Proofs.Machine.Steady
import Mathlib.Logic.Function.Iterate

namespace LuaMachine

namespace Machine

variable {handler : ExceptionHandler} {m m' n : Machine} {g : GroupId} {added more : List ThreadId}
  {base upper : List Activation} {s s' u : Signal} {t : ThreadId} {who : Option ThreadId}

section Runs

/-- The work above `base` comes to an end, with this machine and this signal; the group gets the threads `added`. -/
inductive Completes (handler : ExceptionHandler) (base : List Activation) (g : GroupId) :
    Machine → Signal → List ThreadId → Machine → Signal → Prop
  | done {m : Machine} {s : Signal} (h : m.isWorkingAbove base s = false) : Completes handler base g m s [] m s
  | step {m m' : Machine} {s s' : Signal} {more : List ThreadId} (h : m.isWorkingAbove base s = true)
      (hrest : Completes handler base g (m.stepWith handler s).1 (m.stepWith handler s).2 more m' s') :
      Completes handler base g m s (m.joins handler g s ++ more) m' s'

namespace Completes

theorem attends (h : Completes handler base g m s more m' s') (hlawful : handler.Lawful g)
    (hattends : Attends base g n added s.serves? m) : Attends base g n (added ++ more) none m' ∧ m'.stack = base ∧
      ∀ u id args, s' ≠ .invoke u id args := by
  induction h generalizing added with
  | @done m s h =>
    rw [Bool.eq_false_iff, ne_eq, isWorkingAbove_iff, not_or] at h
    obtain ⟨acts, hstack, -⟩ := hattends.grounded
    have hnil : acts = [] := by
      rw [hstack, List.length_append] at h
      exact List.length_eq_zero_iff.mp (by omega)
    rw [List.append_nil]
    refine ⟨hattends.idle, by rw [hstack, hnil, List.nil_append], fun u id args hs => h.1 ⟨u, id, args, hs⟩⟩
  | step h _ ih =>
    rw [← List.append_assoc]
    exact ih (hattends.stepWith hlawful h)

/-- Work that is done goes no further. -/
theorem eq_of_done (h : Completes handler base g m s added m' s') (hdone : m.isWorkingAbove base s = false) :
    added = [] ∧ m' = m ∧ s' = s := by
  cases h with
  | done => exact ⟨rfl, rfl, rfl⟩
  | step hworks =>
    rw [hdone] at hworks
    cases hworks

/-- Work above more work comes to an end first. -/
theorem split (h : Completes handler base g m s added m' s') (upper : List Activation)
    (hlength : base.length ≤ upper.length) :
    ∃ before n u after, Completes handler upper g m s before n u ∧ Completes handler base g n u after m' s' ∧
      added = before ++ after := by
  induction h with
  | @done m s h =>
    refine ⟨[], m, s, [], .done ?_, .done h, rfl⟩
    exact Bool.eq_false_iff.mpr fun hupper => Bool.eq_false_iff.mp h (isWorkingAbove_mono hlength hupper)
  | @step m m' s s' more h hrest ih =>
    by_cases hupper : m.isWorkingAbove upper s = true
    · obtain ⟨before, n, u, after, hfirst, hlast, rfl⟩ := ih
      exact ⟨_, n, u, after, .step hupper hfirst, hlast, (List.append_assoc ..).symm⟩
    · exact ⟨[], m, s, _, .done (Bool.eq_false_iff.mpr hupper), .step h hrest, rfl⟩

theorem append (h : Completes handler upper g m s added n u) (hlength : base.length ≤ upper.length)
    (hrest : Completes handler base g n u more m' s') : Completes handler base g m s (added ++ more) m' s' := by
  induction h with
  | done => exact hrest
  | step h _ ih =>
    rw [List.append_assoc]
    exact .step (isWorkingAbove_mono hlength h) (ih hrest)

end Completes

/-- Runs of a machine whose host only takes notes are its own runs. -/
theorem completes_silent_iff : (∃ added, Completes .silent base g m s added m' s') ↔
    ∃ fuel, runAbove base fuel m s = some (m', s') := by
  constructor
  · rintro ⟨added, h⟩
    induction h with
    | done h =>
      refine ⟨0, ?_⟩
      rw [runAbove, if_neg (Bool.eq_false_iff.mp h)]
    | step h _ ih =>
      obtain ⟨fuel, hrun⟩ := ih
      refine ⟨fuel + 1, ?_⟩
      rw [runAbove, if_pos h]
      rw [stepWith_silent] at hrun
      exact hrun
  · rintro ⟨fuel, hrun⟩
    refine runAbove_induction (P := fun m s => ∃ added, Completes .silent base g m s added m' s') hrun
      (fun h => ⟨[], .done h⟩) ?_
    intro m s h hrest
    rw [← stepWith_silent] at hrest
    obtain ⟨more, hrest⟩ := hrest
    exact ⟨_, .step h hrest⟩

end Runs

section Passes

variable {members rest : List ThreadId}

/-- A tick runs a thread that can be resumed, unless somebody is in the middle of a resume or call of it. -/
def CanTick (m : Machine) (t : ThreadId) : Prop := m.isBusy t = false ∧ (m.thread t).status.isResumable = true

/-- The machine without the innermost work. -/
def ticked (m : Machine) : Machine := { m with inUse := [], stack := m.stack.tail }

/-- A tick of a thread comes to an end, with this machine and this signal. The group gets the threads `added`. -/
def Ticks (handler : ExceptionHandler) (g : GroupId) (members : List ThreadId) (m : Machine) (t : ThreadId)
    (rest added : List ThreadId) (n : Machine) (s : Signal) : Prop :=
  let pushed := m.push (.tick g members t rest)
  let begun := pushed.beginResume t m.limits.framesPerTick []
  Completes handler pushed.stack g begun.1 begun.2 added n s

/-- The turn of a thread in a pass: the machine when it comes, and what its tick comes to, if there is one. -/
structure Turn where
  thread : ThreadId
  before : Machine
  outcome : Option (Machine × Signal)

/-- The machine when a turn is over and the host has heard of the error, if there is one. -/
def Turn.after (handler : ExceptionHandler) (g : GroupId) (turn : Turn) : Machine :=
  match turn.outcome with
  | some (n, s) => n.ticked.afterTick handler g turn.thread s
  | none => turn.before

/-- A pass over threads of a group. Each one in turn is ticked, if it can be then, the host hears of the error if
there is one, and if the group is destroyed the pass stops. In the end the group drops those that are dead. -/
inductive Pass (handler : ExceptionHandler) (g : GroupId) (members : List ThreadId) :
    Machine → List ThreadId → List Turn → List ThreadId → Machine → Prop
  | finished {m : Machine} : Pass handler g members m [] [] [] (m.pruneGroup g)
  | skipped {m m' : Machine} {t : ThreadId} {rest added : List ThreadId} {turns : List Turn} (h : ¬m.CanTick t)
      (hrest : Pass handler g members m rest turns added m') :
      Pass handler g members m (t :: rest) (⟨t, m, none⟩ :: turns) added m'
  | goesOn {m n m' : Machine} {t : ThreadId} {rest added more : List ThreadId} {turns : List Turn} {s : Signal}
      (h : m.CanTick t) (hticks : m.Ticks handler g members t rest added n s)
      (hactive : ((n.ticked.afterTick handler g t s).group g).destroyed = false)
      (hrest : Pass handler g members (n.ticked.afterTick handler g t s) rest turns more m') :
      Pass handler g members m (t :: rest) (⟨t, m, some (n, s)⟩ :: turns)
        (added ++ (n.ticked.addedAfterTick handler g g t s ++ more)) m'
  | stopped {m n : Machine} {t : ThreadId} {rest added : List ThreadId} {s : Signal}
      (h : m.CanTick t) (hticks : m.Ticks handler g members t rest added n s)
      (hdestroyed : ((n.ticked.afterTick handler g t s).group g).destroyed = true) :
      Pass handler g members m (t :: rest) [⟨t, m, some (n, s)⟩]
        (added ++ n.ticked.addedAfterTick handler g g t s) (n.ticked.afterTick handler g t s)

theorem continueTicks_of_canTick (h : m.CanTick t) (g : GroupId) (members rest : List ThreadId) :
    m.continueTicks g members (t :: rest) =
      (m.push (.tick g members t rest)).beginResume t m.limits.framesPerTick [] := by
  rw [continueTicks, h.1, h.2]
  rfl

theorem continueTicks_of_not (h : ¬m.CanTick t) (g : GroupId) (members rest : List ThreadId) :
    m.continueTicks g members (t :: rest) = m.continueTicks g members rest := by
  have hskipped : (m.isBusy t || !(m.thread t).status.isResumable) = true := by
    rw [Bool.or_eq_true, Bool.not_eq_true']
    by_cases hbusy : m.isBusy t = true
    · exact Or.inl hbusy
    · exact Or.inr (Bool.eq_false_iff.mpr fun hresumable => h ⟨Bool.eq_false_iff.mpr hbusy, hresumable⟩)
  rw [continueTicks, if_pos hskipped]

theorem ticked_eq {a : Activation} {acts : List Activation} (hstack : m.stack = a :: acts) :
    m.ticked = { m with inUse := [], stack := acts } := by
  rw [ticked, hstack, List.tail_cons]

/-- When a tick has come to an end, the work below it is as before. -/
theorem Ticks.ends (hlawful : handler.Lawful g) (h : m.Ticks handler g members t rest added n s) :
    n.stack = .tick g members t rest :: m.stack ∧ (∀ u id args, s ≠ .invoke u id args) ∧
      (m.Enrols g → m.Carries g added n.ticked) := by
  have hpushed : Attends (m.push (.tick g members t rest)).stack g m [] none (m.push (.tick g members t rest)) :=
    .of_grounded (fun henrols => (Carries.refl henrols).push _ fun u hu => absurd hu (Option.not_mem_none u))
      (List.nil_append _).symm .nil
  obtain ⟨hattends, hstack, hinvoke⟩ := h.attends hlawful (hpushed.beginResume _ _)
  refine ⟨hstack, hinvoke, fun henrols => (hattends.carries henrols).of_eq rfl rfl fun u hu => ?_⟩
  obtain ⟨a, ha, hthread⟩ := List.any_eq_true.mp hu
  exact List.any_eq_true.mpr ⟨a, (List.tail_suffix n.stack).subset ha, hthread⟩

/-- A tick and what the host makes of it leave the group in order. -/
theorem Ticks.carries (hlawful : handler.Lawful g) (h : m.Ticks handler g members t rest added n s)
    (henrols : m.Enrols g) :
    m.Carries g (added ++ n.ticked.addedAfterTick handler g g t s) (n.ticked.afterTick handler g t s) := by
  have hattends : Attends n.ticked.stack g m added none n.ticked :=
    .of_grounded (h.ends hlawful).2.2 (List.nil_append _).symm .nil
  exact (hattends.afterTick hlawful g t s).carries henrols

/-- What is left of an update after the end of a tick. -/
theorem completes_tick_iff (hstack : n.stack = .tick g members t rest :: base)
    (hinvoke : ∀ u id args, s ≠ .invoke u id args) :
    Completes handler base g n s added m' s' ↔ ∃ more, added = n.ticked.addedAfterTick handler g g t s ++ more ∧
      Completes handler base g (n.ticked.stepTickWith handler g members t rest s).1
        (n.ticked.stepTickWith handler g members t rest s).2 more m' s' := by
  have hworks : n.isWorkingAbove base s = true := isWorkingAbove_of_cons hstack s
  obtain ⟨hstep, hjoins⟩ := stepWith_tick handler g hstack hinvoke
  rw [ticked_eq hstack, ← hstep, ← hjoins]
  constructor
  · intro h
    cases h with
    | done hdone =>
      rw [hworks] at hdone
      cases hdone
    | step _ hrest => exact ⟨_, rfl, hrest⟩
  · rintro ⟨more, rfl, hrest⟩
    exact .step hworks hrest

/-- Ticking the threads that are left is a pass over them. -/
theorem completes_continueTicks_iff (hlawful : handler.Lawful g) :
    Completes handler m.stack g (m.continueTicks g members rest).1 (m.continueTicks g members rest).2 added m' s' ↔
      s' = .values [] ∧ ∃ turns, Pass handler g members m rest turns added m' := by
  constructor
  · intro h
    induction rest generalizing m added with
    | nil =>
      obtain ⟨rfl, rfl, rfl⟩ := h.eq_of_done (isWorkingAbove_eq_false (m := m.pruneGroup g) rfl nofun)
      exact ⟨rfl, [], .finished⟩
    | cons t rest ih =>
      by_cases hcan : m.CanTick t
      · rw [continueTicks_of_canTick hcan] at h
        obtain ⟨before, n, u, after, hticks, hlast, rfl⟩ := h.split
          (m.push (.tick g members t rest)).stack (Nat.le_succ _)
        obtain ⟨hstack, hinvoke, -⟩ := Ticks.ends hlawful hticks
        obtain ⟨more, rfl, hrest⟩ := (completes_tick_iff hstack hinvoke).mp hlast
        have hbelow : (n.ticked.afterTick handler g t u).stack = m.stack := by
          rw [stack_afterTick hlawful, ticked_eq hstack]
        unfold stepTickWith at hrest
        dsimp only at hrest
        rw [← hbelow] at hrest
        split at hrest
        · rename_i hdestroyed
          obtain ⟨rfl, rfl, rfl⟩ := hrest.eq_of_done (isWorkingAbove_eq_false rfl nofun)
          rw [List.append_nil]
          exact ⟨rfl, _, .stopped hcan hticks hdestroyed⟩
        · rename_i hactive
          obtain ⟨hs, turns, hpass⟩ := ih hrest
          exact ⟨hs, _, .goesOn hcan hticks (Bool.eq_false_iff.mpr hactive) hpass⟩
      · rw [continueTicks_of_not hcan] at h
        obtain ⟨hs, turns, hpass⟩ := ih h
        exact ⟨hs, _, .skipped hcan hpass⟩
  · rintro ⟨rfl, turns, hpass⟩
    have hends {m m' n : Machine} {t : ThreadId} {rest added more : List ThreadId} {s : Signal} (hcan : m.CanTick t)
        (hticks : m.Ticks handler g members t rest added n s)
        (hrest : Completes handler m.stack g (n.ticked.stepTickWith handler g members t rest s).1
          (n.ticked.stepTickWith handler g members t rest s).2 more m' (.values [])) :
        Completes handler m.stack g (m.continueTicks g members (t :: rest)).1
          (m.continueTicks g members (t :: rest)).2
          (added ++ (n.ticked.addedAfterTick handler g g t s ++ more)) m' (.values []) := by
      obtain ⟨hstack, hinvoke, -⟩ := hticks.ends hlawful
      rw [continueTicks_of_canTick hcan]
      exact Completes.append hticks (Nat.le_succ _) ((completes_tick_iff hstack hinvoke).mpr ⟨more, rfl, hrest⟩)
    have hbelow {m n : Machine} {t : ThreadId} {rest added : List ThreadId} {s : Signal}
        (hticks : m.Ticks handler g members t rest added n s) :
        (n.ticked.afterTick handler g t s).stack = m.stack := by
      obtain ⟨hstack, -, -⟩ := hticks.ends hlawful
      rw [stack_afterTick hlawful, ticked_eq hstack]
    induction hpass with
    | finished => exact .done (isWorkingAbove_eq_false (m := Machine.pruneGroup _ g) rfl nofun)
    | skipped hnot _ ih =>
      rw [continueTicks_of_not hnot]
      exact ih
    | @goesOn m n m' t rest added more turns s hcan hticks hactive _ ih =>
      refine hends hcan hticks ?_
      rw [stepTickWith, if_neg (Bool.eq_false_iff.mp hactive), ← hbelow hticks]
      exact ih
    | @stopped m n t rest added s hcan hticks hdestroyed =>
      have hstops : Completes handler m.stack g (n.ticked.stepTickWith handler g members t rest s).1
          (n.ticked.stepTickWith handler g members t rest s).2 [] (n.ticked.afterTick handler g t s) (.values []) := by
        rw [stepTickWith, if_pos hdestroyed, ← hbelow hticks]
        exact .done (isWorkingAbove_eq_false rfl nofun)
      have hrest := hends hcan hticks hstops
      rwa [List.append_nil] at hrest

namespace Pass

variable {turns : List Turn}

theorem carries (h : Pass handler g members m rest turns added m') (hlawful : handler.Lawful g)
    (henrols : m.Enrols g) : m.Carries g added m' := by
  induction h with
  | finished => exact (Carries.refl henrols).pruneGroup g
  | skipped _ _ ih => exact ih henrols
  | goesOn _ hticks _ _ ih =>
    have hticked := hticks.carries hlawful henrols
    have hlater := hticked.trans (ih hticked.enrols)
    rwa [List.append_assoc] at hlater
  | stopped _ hticks => exact hticks.carries hlawful henrols

/-- A group that is not destroyed has lost its dead threads in the end. -/
theorem isGone_eq_false (h : Pass handler g members m rest turns more m') (hlawful : handler.Lawful g)
    (henrols : m.Enrols g) (hactive : (m'.group g).destroyed = false) (ht : t ∈ (m'.group g).threads) :
    m'.isGone t = false := by
  induction h with
  | @finished m =>
    have hgroup : (m.pruneGroup g).group g =
        { m.group g with threads := (m.group g).threads.filter fun t => !m.isGone t } :=
      Machine.group_modifyGroup henrols.range _
    rw [hgroup] at ht
    exact (Bool.not_eq_true' _).mp (List.mem_filter.mp ht).2
  | skipped _ _ ih => exact ih henrols hactive ht
  | @goesOn m n m' t rest added more turns s hcan hticks hgoes hrest ih =>
    exact ih (hticks.carries hlawful henrols).enrols hactive ht
  | stopped _ _ hdestroyed =>
    rw [hdestroyed] at hactive
    cases hactive

theorem thread_eq (h : Pass handler g members m rest turns more m') : turns.map Turn.thread <+: rest ∧
    ((m'.group g).destroyed = false → turns.map Turn.thread = rest) := by
  induction h with
  | finished => exact ⟨List.prefix_refl _, fun _ => rfl⟩
  | skipped _ _ ih | goesOn _ _ _ _ ih =>
    exact ⟨List.prefix_cons_inj _ |>.mpr ih.1, fun hactive => congrArg _ (ih.2 hactive)⟩
  | stopped _ _ hdestroyed =>
    refine ⟨List.prefix_cons_inj _ |>.mpr (List.nil_prefix), fun hactive => ?_⟩
    rw [hdestroyed] at hactive
    cases hactive

/-- From each of its turns on it is a pass, too. -/
theorem exists_from (h : Pass handler g members m rest turns more m') {earlier later : List Turn} {turn : Turn}
    (hturns : turns = earlier ++ turn :: later) : ∃ rest added,
      Pass handler g members turn.before (turn.thread :: rest) (turn :: later) added m' ∧
        ((m.group g).destroyed = false → (turn.before.group g).destroyed = false) := by
  induction h generalizing earlier with
  | finished => exact absurd hturns (by simp)
  | skipped hnot hrest ih =>
    cases earlier with
    | nil =>
      obtain ⟨rfl, rfl⟩ := List.cons.inj hturns
      exact ⟨_, _, .skipped hnot hrest, id⟩
    | cons _ earlier => exact ih (List.cons.inj hturns).2
  | goesOn hcan hticks hgoes hrest ih =>
    cases earlier with
    | nil =>
      obtain ⟨rfl, rfl⟩ := List.cons.inj hturns
      exact ⟨_, _, .goesOn hcan hticks hgoes hrest, id⟩
    | cons _ earlier =>
      obtain ⟨rest, added, hfrom, hactive⟩ := ih (List.cons.inj hturns).2
      exact ⟨rest, added, hfrom, fun _ => hactive hgoes⟩
  | stopped hcan hticks hdestroyed =>
    cases earlier with
    | nil =>
      obtain ⟨rfl, rfl⟩ := List.cons.inj hturns
      exact ⟨_, _, .stopped hcan hticks hdestroyed, id⟩
    | cons _ earlier => exact absurd (List.cons.inj hturns).2 (by simp)

theorem ticked_iff (h : Pass handler g members m rest turns more m') {turn : Turn} (hturn : turn ∈ turns) :
    turn.outcome.isSome = true ↔ turn.before.CanTick turn.thread := by
  obtain ⟨earlier, later, hturns⟩ := List.append_of_mem hturn
  obtain ⟨rest, added, hfrom, -⟩ := h.exists_from hturns
  obtain ⟨t, m, outcome⟩ := turn
  cases hfrom with
  | skipped hnot => exact ⟨nofun, fun hcan => absurd hcan hnot⟩
  | goesOn hcan | stopped hcan => exact ⟨fun _ => hcan, fun _ => rfl⟩

theorem exists_ticks (h : Pass handler g members m rest turns more m') {turn : Turn} (hturn : turn ∈ turns)
    (houtcome : turn.outcome = some (n, s)) :
    ∃ rest added, turn.before.Ticks handler g members turn.thread rest added n s := by
  obtain ⟨earlier, later, hturns⟩ := List.append_of_mem hturn
  obtain ⟨rest, added, hfrom, -⟩ := h.exists_from hturns
  obtain ⟨t, m, outcome⟩ := turn
  cases hfrom with
  | skipped => cases houtcome
  | goesOn _ hticks | stopped _ hticks =>
    cases houtcome
    exact ⟨_, _, hticks⟩

/-- The first turn comes at once. -/
theorem before_eq_of_first (h : Pass handler g members m rest turns more m') {later : List Turn} {turn : Turn}
    (hturns : turns = turn :: later) : turn.before = m := by
  cases h with
  | finished => cases hturns
  | skipped | goesOn | stopped => rw [← (List.cons.inj hturns).1]

/-- Nothing happens between the turns. -/
theorem before_eq (h : Pass handler g members m rest turns more m') {earlier later : List Turn} {turn next : Turn}
    (hturns : turns = earlier ++ turn :: next :: later) : next.before = turn.after handler g := by
  obtain ⟨rest, added, hfrom, -⟩ := h.exists_from hturns
  obtain ⟨t, m, outcome⟩ := turn
  cases hfrom with
  | skipped _ hrest | goesOn _ _ _ hrest => exact hrest.before_eq_of_first rfl

/-- The pass stops at a tick that destroys the group. -/
theorem eq_nil_of_destroyed (h : Pass handler g members m rest turns more m') (hactive : (m.group g).destroyed = false)
    {earlier later : List Turn} {turn : Turn} (hturns : turns = earlier ++ turn :: later)
    (hdestroyed : ((turn.after handler g).group g).destroyed = true) : later = [] := by
  obtain ⟨rest, added, hfrom, hbefore⟩ := h.exists_from hturns
  obtain ⟨t, m, outcome⟩ := turn
  cases hfrom with
  | skipped => exact absurd hdestroyed (Bool.eq_false_iff.mp (hbefore hactive))
  | goesOn _ _ hgoes => exact absurd hdestroyed (Bool.eq_false_iff.mp hgoes)
  | stopped => rfl

/-- The group drops its dead threads after the last turn, unless it was destroyed then. -/
theorem eq_of_last (h : Pass handler g members m rest turns more m') (hactive : (m.group g).destroyed = false)
    {earlier : List Turn} {turn : Turn} (hturns : turns = earlier ++ [turn]) :
    m' = if ((turn.after handler g).group g).destroyed then turn.after handler g
      else (turn.after handler g).pruneGroup g := by
  obtain ⟨rest, added, hfrom, hbefore⟩ := h.exists_from hturns
  obtain ⟨t, m, outcome⟩ := turn
  cases hfrom with
  | skipped _ hrest =>
    cases hrest with
    | finished => exact (if_neg (Bool.eq_false_iff.mp (hbefore hactive))).symm
  | goesOn _ _ hgoes hrest =>
    cases hrest with
    | finished => exact (if_neg (Bool.eq_false_iff.mp hgoes)).symm
  | stopped _ _ hdestroyed => exact (if_pos hdestroyed).symm

end Pass

/-- The turns of a pass over the threads of a group, which gets the threads `added` meanwhile, and the machine that the
pass comes to. -/
structure InTurn (handler : ExceptionHandler) (m : Machine) (g : GroupId) (turns : List Turn) (added : List ThreadId)
    (m' : Machine) : Prop where
  /-- Every thread of the group has a turn, in order and up to the destruction of the group, and no other thread has. -/
  thread : turns.map Turn.thread <+: (m.group g).threads ∧
    ((m'.group g).destroyed = false → turns.map Turn.thread = (m.group g).threads)
  /-- It is ticked if it can be then. -/
  outcome : ∀ turn ∈ turns, turn.outcome.isSome = true ↔ turn.before.CanTick turn.thread
  /-- The outcome is that of one tick. -/
  ticks : ∀ turn ∈ turns, ∀ n s, turn.outcome = some (n, s) →
    ∃ rest added, turn.before.Ticks handler g (m.group g).threads turn.thread rest added n s
  /-- The first turn comes at once. -/
  first : ∀ turn later, turns = turn :: later → turn.before = m
  /-- Between two turns the host hears of the error of the first one, if there is one, and nothing else happens. -/
  before : ∀ earlier turn next later, turns = earlier ++ turn :: next :: later → next.before = turn.after handler g
  /-- After the last turn the host hears of its error likewise, and the group drops its dead threads. -/
  last : ∀ earlier turn, turns = earlier ++ [turn] →
    m' = if ((turn.after handler g).group g).destroyed then turn.after handler g
      else (turn.after handler g).pruneGroup g
  /-- In the end the group has the threads that it had and, behind them, those that it got, without the dead ones. -/
  threads : (m'.group g).destroyed = false →
    (m'.group g).threads = ((m.group g).threads ++ added).filter fun t => !m'.isGone t
  /-- If it is destroyed the pass stops there, and the group has none. -/
  stopped : ∀ earlier turn later, turns = earlier ++ turn :: later →
    ((turn.after handler g).group g).destroyed = true → later = []
  destroyed : (m'.group g).destroyed = true → (m'.group g).threads = []

theorem Pass.inTurn {turns : List Turn}
    (h : Pass handler g (m.group g).threads m (m.group g).threads turns added m') (hlawful : handler.Lawful g)
    (henrols : m.Enrols g) (hactive : (m.group g).destroyed = false) : m.InTurn handler g turns added m' where
  thread := h.thread_eq
  outcome := fun _ hturn => h.ticked_iff hturn
  ticks := fun _ hturn _ _ houtcome => h.exists_ticks hturn houtcome
  first := fun _ _ hturns => h.before_eq_of_first hturns
  before := fun _ _ _ _ hturns => h.before_eq hturns
  last := fun _ _ hturns => h.eq_of_last hactive hturns
  threads := fun hnot => by
    have hcarries := h.carries hlawful henrols
    rw [hcarries.threads hnot]
    refine List.filter_congr fun t ht => ?_
    by_cases hthere : t ∈ (m'.group g).threads
    · rw [decide_eq_true hthere, h.isGone_eq_false hlawful henrols hnot hthere]
      rfl
    · rw [decide_eq_false hthere, (hcarries.absent hnot t ht hthere).gone]
      rfl
  stopped := fun _ _ _ hturns => h.eq_nil_of_destroyed hactive hturns
  destroyed := (h.carries hlawful henrols).enrols.destroyed

/-- A group that is neither suspended nor destroyed ticks its threads once, whatever the ticks do and the host that
hears of their errors: its update is a pass over the threads that it has when the update begins, and comes to an end if
their ticks do. A host that only takes notes of errors is that of the machine itself. -/
theorem update_ticks_once (hlawful : handler.Lawful g) (henrols : m.Enrols g)
    (hsuspended : (m.group g).suspended = false) (hactive : (m.group g).destroyed = false) :
    (∀ added m' s', Completes handler m.stack g (m.beginUpdate g).1 (m.beginUpdate g).2 added m' s' ↔
      s' = .values [] ∧ ∃ turns, Pass handler g (m.group g).threads m (m.group g).threads turns added m') ∧
    (∀ turns added m', Pass handler g (m.group g).threads m (m.group g).threads turns added m' →
      m.InTurn handler g turns added m') ∧
    ∀ m' s', (∃ added, Completes .silent m.stack g (m.beginUpdate g).1 (m.beginUpdate g).2 added m' s') ↔
      ∃ fuel, runAbove m.stack fuel (m.beginUpdate g).1 (m.beginUpdate g).2 = some (m', s') := by
  have hbegins : m.beginUpdate g = m.continueTicks g (m.group g).threads (m.group g).threads := by
    rw [beginUpdate, hsuspended, hactive]
    rfl
  refine ⟨fun added m' s' => ?_, fun turns added m' hpass => hpass.inTurn hlawful henrols hactive,
    fun m' s' => completes_silent_iff⟩
  rw [hbegins]
  exact completes_continueTicks_iff hlawful

/-- A machine whose group has three threads: the first one fails, the second one yields, the third one returns. -/
def crew : Machine :=
  let natives := #[⟨"fail", .host .fail⟩, ⟨"yield", .host .yield⟩, ⟨"nothing", .host .nothing⟩]
  let m : Machine := { Machine.new {} with natives }
  (((m.spawn defaultGroup (.native ⟨0⟩) []).1.spawn defaultGroup (.native ⟨1⟩) []).1.spawn defaultGroup (.native ⟨2⟩)
    []).1

/-- All three have their turns, one error is reported, and the thread that yields is left. -/
theorem update_ticks_once_crew : ExceptionHandler.silent.Lawful defaultGroup ∧ crew.Enrols defaultGroup ∧
    (crew.group defaultGroup).suspended = false ∧ (crew.group defaultGroup).destroyed = false ∧
    ∃ turns added m', crew.InTurn .silent defaultGroup turns added m' ∧
      turns.map Turn.thread = [⟨0⟩, ⟨1⟩, ⟨2⟩] ∧ (m'.group defaultGroup).threads = [⟨1⟩] ∧
      m'.reports.map (·.thread) = [1] := by
  have hlawful := ExceptionHandler.lawful_silent defaultGroup
  have henrols : crew.Enrols defaultGroup := ⟨by decide +kernel, by decide +kernel, by decide +kernel⟩
  obtain ⟨hpass, hturns, hruns⟩ := update_ticks_once hlawful henrols rfl rfl
  have hends : (runAbove crew.stack 20 (crew.beginUpdate defaultGroup).1 (crew.beginUpdate defaultGroup).2).map
      (fun r => ((r.1.group defaultGroup).threads, (r.1.group defaultGroup).destroyed, r.1.reports.map (·.thread))) =
        some ([⟨1⟩], false, [1]) := by decide +kernel
  obtain ⟨⟨m', s'⟩, hrun, hresult⟩ := Option.map_eq_some_iff.mp hends
  obtain ⟨hthreads, hresult⟩ := Prod.mk.inj hresult
  obtain ⟨hactive, hreports⟩ := Prod.mk.inj hresult
  obtain ⟨added, hcompletes⟩ := (hruns m' s').mpr ⟨20, hrun⟩
  obtain ⟨-, turns, hpassed⟩ := (hpass added m' s').mp hcompletes
  have hinTurn := hturns turns added m' hpassed
  exact ⟨hlawful, henrols, rfl, rfl, turns, added, m', hinTurn, (hinTurn.thread.2 hactive).trans rfl, hthreads,
    hreports⟩

end Passes

section Failures

/-- A failed tick leaves no thread that cannot go on: it is ended, unless somebody is in the middle of a resume or call
of it, or the host has made it ready to run. -/
theorem Turn.ended_of_error {turn : Turn} {e : Error} (houtcome : turn.outcome = some (n, .error e)) :
    let after := turn.after handler g
    after.isBusy turn.thread = true ∨ (after.thread turn.thread).status.isResumable = true ∨
      (after.thread turn.thread).status = .dead := by
  have hafter : turn.after handler g = n.ticked.afterTick handler g turn.thread (.error e) := by
    rw [Turn.after, houtcome]
  intro after
  dsimp only [after]
  rw [hafter, afterTick, report?]
  dsimp only
  generalize handler.run _ _ = told
  by_cases hends : (!told.isBusy turn.thread && !(told.thread turn.thread).status.isResumable &&
      decide ((told.thread turn.thread).status ≠ .dead)) = true
  · rw [if_pos hends]
    exact .inr (.inr (status_destroyThread _ _))
  · rw [if_neg hends]
    simp only [Bool.and_eq_true, Bool.not_eq_true', decide_eq_true_eq, not_and, ne_eq, Decidable.not_not] at hends
    cases hbusy : told.isBusy turn.thread with
    | true => exact .inl rfl
    | false =>
      cases hruns : (told.thread turn.thread).status.isResumable with
      | true => exact .inr (.inl rfl)
      | false => exact .inr (.inr (hends ⟨hbusy, hruns⟩))

/-- A group that can be updated, but none of its threads can be ticked. -/
structure Stalled (m : Machine) (g : GroupId) : Prop where
  inRange : g.index < m.groups.size
  idle : ∀ t ∈ (m.group g).threads, ¬m.CanTick t
  suspended : (m.group g).suspended = false
  destroyed : (m.group g).destroyed = false

namespace Stalled

/-- An update only drops the dead threads of such a group. -/
theorem beginUpdate_eq (h : m.Stalled g) : m.beginUpdate g = (m.pruneGroup g, .values []) := by
  have hticks (rest : List ThreadId) (hrest : ∀ t ∈ rest, ¬m.CanTick t) :
      m.continueTicks g (m.group g).threads rest = (m.pruneGroup g, .values []) := by
    induction rest with
    | nil => rfl
    | cons t rest ih =>
      rw [continueTicks_of_not (hrest t List.mem_cons_self)]
      exact ih fun u hu => hrest u (List.mem_cons_of_mem t hu)
  rw [beginUpdate, h.suspended, h.destroyed]
  exact hticks _ h.idle

theorem group_pruneGroup (h : m.Stalled g) : (m.pruneGroup g).group g =
    { m.group g with threads := (m.group g).threads.filter fun t => !m.isGone t } :=
  Machine.group_modifyGroup h.inRange _

theorem pruneGroup (h : m.Stalled g) : (m.pruneGroup g).Stalled g where
  inRange := Nat.lt_of_lt_of_eq h.inRange (size_modifyGroup m g _).symm
  idle := fun t ht => by
    rw [h.group_pruneGroup] at ht
    exact h.idle t (List.mem_filter.mp ht).1
  suspended := by rw [h.group_pruneGroup, h.suspended]
  destroyed := by rw [h.group_pruneGroup, h.destroyed]

/-- A thread that an error stopped outside of a tick stays in its group as it is, however often the group is updated. -/
theorem mem_threads_of_endCall (h : m.Stalled g) (ht : t ∈ (m.group g).threads)
    (hstatus : (m.thread t).status = .endCall) (k : Nat) :
    let after := (fun m : Machine => (m.beginUpdate g).1)^[k] m
    t ∈ (after.group g).threads ∧ after.thread t = m.thread t := by
  induction k generalizing m with
  | zero => exact ⟨ht, rfl⟩
  | succ k ih =>
    have hgone : m.isGone t = false := isGone_of_status (by rw [hstatus]; decide)
    have hkept : t ∈ ((m.pruneGroup g).group g).threads := by
      rw [h.group_pruneGroup]
      exact List.mem_filter.mpr ⟨ht, by rw [hgone]; rfl⟩
    dsimp only
    rw [Function.iterate_succ_apply, h.beginUpdate_eq]
    exact ih h.pruneGroup hkept hstatus

end Stalled

end Failures

end Machine

end LuaMachine
