import LuaMachine.Proofs.Machine.Fatality
import LuaMachine.Proofs.Machine.Passes
import LuaMachine.Proofs.Machine.Teardown

namespace LuaMachine.Machine

variable {m m' n : Machine} {g : GroupId} {added : List ThreadId} {base : List Activation} {t : ThreadId}
  {r : Machine × Signal} {k : Nat}

/-- The group is destroyed and has no threads. -/
structure Disbanded (m : Machine) (g : GroupId) : Prop where
  range : g.index < m.groups.size
  destroyed : (m.group g).destroyed = true
  threads : (m.group g).threads = []

theorem Carries.disbanded (h : n.Carries g added m) (hn : n.Disbanded g) : m.Disbanded g :=
  have hdestroyed := h.destroyed hn.destroyed
  ⟨h.enrols.range, hdestroyed, h.enrols.destroyed hdestroyed⟩

namespace Disbanded

theorem enrols (h : m.Disbanded g) : m.Enrols g := by
  refine ⟨h.range, fun t ht => ?_, fun _ => h.threads⟩
  rw [h.threads] at ht
  cases ht

/-- An update of the group does nothing. -/
theorem beginUpdate_eq (h : m.Disbanded g) : m.beginUpdate g = (m, .values []) := by
  rw [beginUpdate, h.destroyed, Bool.or_true]
  rfl

/-- An update in progress ticks no further thread of the group. -/
theorem stepTick (h : m.Disbanded g) (members : List ThreadId) (t : ThreadId) (rest : List ThreadId) (s : Signal) :
    ∃ n, m.stepTick g members t rest s = (n, .values []) ∧ n.stack = m.stack := by
  have hends (n : Machine) (hgroups : n.groups = m.groups) : (n.group g).destroyed = true := by
    rw [group, hgroups]
    exact h.destroyed
  unfold Machine.stepTick
  cases s with
  | error e =>
    dsimp only
    set noted : Machine := { m with reports := ⟨g, (m.thread t).number, e⟩ :: m.reports } with hnoted
    have hconfined := noted.confined_destroyThread t
    split
    · exact ⟨_, if_pos (hends _ hconfined.groups), hconfined.stack⟩
    · exact ⟨_, if_pos (hends noted rfl), rfl⟩
  | go | invoke | values | yielded | frameLimit | sleeping => exact ⟨_, if_pos h.destroyed, rfl⟩

/-- Whatever a machine does, the group stays disbanded, and no thread that it dropped comes back. -/
theorem after (h : r.1.Disbanded g)
    (hgrounded : ∃ acts, r.1.stack = acts ++ base ∧ Grounded acts ∧ ∀ t ∈ r.2.serves?, current? acts = some t)
    (hworks : ∀ i < k, (after i r).1.isWorkingAbove base (after i r).2 = true) :
    (Machine.after k r).1.Disbanded g ∧ ∀ t, r.1.Dropped g t → (Machine.after k r).1.Dropped g t := by
  have hattends : ∃ added, Attends base g r.1 added (Machine.after k r).2.serves? (Machine.after k r).1 := by
    induction k with
    | zero => exact ⟨[], fun henrols => .refl henrols, hgrounded⟩
    | succ k ih =>
      obtain ⟨added, hattends⟩ := ih fun i hi => hworks i (Nat.lt_succ_of_lt hi)
      have hstepped := hattends.stepWith (ExceptionHandler.lawful_silent g) (hworks k (Nat.lt_succ_self k))
      rw [stepWith_silent] at hstepped
      rw [after_succ]
      exact ⟨_, hstepped⟩
  obtain ⟨added, hattends⟩ := hattends
  have hcarries := hattends.carries h.enrols
  exact ⟨hcarries.disbanded h, hcarries.dropped⟩

end Disbanded

section Destruction

/-- The threads of a group end, except for busy ones. -/
theorem destroyGroup_eq (m : Machine) (g : GroupId) : m.destroyGroup g =
    (m.group g).threads.foldl (fun m t => if m.isBusy t then m else m.destroyThread t)
      (m.modifyGroup g fun group => { group with destroyed := true, threads := [] }) := rfl

/-- A thread that nobody is in the middle of a resume or call of is over once its group is destroyed. -/
theorem over_destroyGroup (hcounts : m.Counts t) (ht : t ∈ (m.group g).threads) (hidle : m.isBusy t = false) :
    (m.destroyGroup g).Over t := by
  rw [destroyGroup_eq]
  refine foldl_of_mem (I := fun n : Machine => n.stack = m.stack ∧ n.Counts t) (P := fun n => n.Over t) ht
    ?_ ?_ ?_ ⟨rfl, hcounts⟩
  · rintro n u ⟨hstack, hcounts⟩
    split
    · exact ⟨hstack, hcounts⟩
    · exact ⟨(n.confined_destroyThread u).stack.trans hstack, counts_destroyThread hcounts u⟩
  · rintro n ⟨hstack, hcounts⟩
    have hfree : n.isBusy t = false := by rw [isBusy, hstack, ← isBusy, hidle]
    rw [if_neg (Bool.eq_false_iff.mp hfree)]
    exact over_destroyThread hcounts
  · rintro n u - hover
    split
    · exact hover
    · exact hover.destroyThread u

/-- Threads that somebody is in the middle of a resume or call of are left alone, and no thread comes or goes. -/
theorem destroyGroup_keeps (m : Machine) (g : GroupId) :
    (m.destroyGroup g).groups = (m.modifyGroup g fun group => { group with destroyed := true, threads := [] }).groups ∧
      (m.destroyGroup g).threads.size = m.threads.size ∧
      ∀ t, m.isBusy t = true → (m.destroyGroup g).thread t = m.thread t := by
  rw [destroyGroup_eq]
  set emptied := m.modifyGroup g fun group => { group with destroyed := true, threads := [] }
  have hbegins : emptied.stack = m.stack ∧ emptied.groups = emptied.groups ∧ emptied.threads.size = m.threads.size ∧
      ∀ t, m.isBusy t = true → emptied.thread t = m.thread t := ⟨rfl, rfl, rfl, fun _ _ => rfl⟩
  refine (List.foldlRecOn (motive := fun n : Machine => n.stack = m.stack ∧ n.groups = emptied.groups ∧
    n.threads.size = m.threads.size ∧ ∀ t, m.isBusy t = true → n.thread t = m.thread t) _ _ hbegins ?_).2
  rintro n ⟨hstack, hgroups, hsize, hsame⟩ u -
  split
  · exact ⟨hstack, hgroups, hsize, hsame⟩
  · rename_i hfree
    have hconfined := n.confined_destroyThread u
    refine ⟨hconfined.stack.trans hstack, hconfined.groups.trans hgroups, hconfined.size.trans hsize, fun t ht => ?_⟩
    have hne : t ≠ u := by
      rintro rfl
      exact hfree (by rw [isBusy, hstack]; exact ht)
    rw [hconfined.others t hne, hsame t ht]

/-- The destruction of a group disbands it. Each of its threads is over and gone for good, unless somebody is in the
middle of a resume or call of it: then it goes on as if nothing had happened. -/
theorem destroyGroup_disbands (henrols : m.Enrols g) (hcounts : ∀ t, m.Counts t) :
    (m.destroyGroup g).Disbanded g ∧ ∀ t ∈ (m.group g).threads,
      if m.isBusy t then (m.destroyGroup g).thread t = m.thread t
      else (m.destroyGroup g).Over t ∧ (m.destroyGroup g).Dropped g t := by
  obtain ⟨hgroups, hsize, hbusy⟩ := m.destroyGroup_keeps g
  have hcarries := (Carries.refl henrols).destroyGroup g
  have hdestroyed : ((m.destroyGroup g).group g).destroyed = true := by
    rw [group, hgroups, ← group, group_modifyGroup henrols.range]
  have hdisbanded : (m.destroyGroup g).Disbanded g :=
    ⟨hcarries.enrols.range, hdestroyed, hcarries.enrols.destroyed hdestroyed⟩
  refine ⟨hdisbanded, fun t ht => ?_⟩
  split
  · rename_i hthere
    exact hbusy t hthere
  · rename_i hfree
    have hidle := Bool.eq_false_iff.mpr hfree
    have hover := over_destroyGroup (hcounts t) ht hidle
    refine ⟨hover, ?_, isGone_iff.mpr ⟨?_, hover.status⟩, ?_⟩
    · rw [hsize]
      exact henrols.threads t ht
    · rw [isBusy, stack_destroyGroup]
      exact hidle
    · rw [hdisbanded.threads]
      exact List.not_mem_nil

end Destruction

end LuaMachine.Machine
