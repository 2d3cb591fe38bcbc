import LuaMachine.Proofs.Machine.NestingSteps

namespace LuaMachine.Machine

variable {m m' n : Machine} {g : GroupId} {added more : List ThreadId} {acts : List Activation} {t u : ThreadId}
  {a : Activation}

section Gone

/-- Whether a thread is dead, and nobody is in the middle of a resume or call of it. -/
def isGone (m : Machine) (t : ThreadId) : Bool := !m.isBusy t && (m.thread t).status = .dead

theorem isGone_iff : m.isGone t = true ↔ m.isBusy t = false ∧ (m.thread t).status = .dead := by
  rw [isGone, Bool.and_eq_true, Bool.not_eq_true', decide_eq_true_eq]

theorem isGone_of_busy (h : m.isBusy t = true) : m.isGone t = false := by
  rw [isGone, h]
  rfl

theorem isGone_of_status (h : (m.thread t).status ≠ .dead) : m.isGone t = false := by
  rw [isGone, decide_eq_false h, Bool.and_false]

theorem ne_of_isGone (ht : m.isGone t = false) (hu : m.isGone u = true) : u ≠ t := by
  rintro rfl
  rw [ht] at hu
  cases hu

/-- A dead thread stays so if its status does not change and nobody begins to resume or call it. -/
theorem isGone_mono (hbusy : m'.isBusy u = true → m.isBusy u = true)
    (hstatus : (m'.thread u).status = (m.thread u).status) (hu : m.isGone u = true) : m'.isGone u = true := by
  obtain ⟨hfree, hdead⟩ := isGone_iff.mp hu
  refine isGone_iff.mpr ⟨Bool.eq_false_iff.mpr fun hyes => Bool.eq_false_iff.mp hfree (hbusy hyes), ?_⟩
  rw [hstatus, hdead]

end Gone

section Groups

theorem group_modifyGroup (hrange : g.index < m.groups.size) (f : Group → Group) :
    (m.modifyGroup g f).group g = f (m.group g) := by
  simp [group, modifyGroup, modifyAt, Array.getElem?_modify, Array.getElem?_eq_getElem hrange]

theorem group_modifyGroup_of_ne {other : GroupId} (h : other ≠ g) (f : Group → Group) :
    (m.modifyGroup other f).group g = m.group g := by
  have hindex : other.index ≠ g.index := by
    intro heq
    cases other
    cases g
    simp_all
  simp [group, modifyGroup, modifyAt, Array.getElem?_modify, hindex]

theorem size_modifyGroup (m : Machine) (g : GroupId) (f : Group → Group) :
    (m.modifyGroup g f).groups.size = m.groups.size := by
  simp [modifyGroup, modifyAt]

/-- The group exists, and so do its threads; it has none once it is destroyed. -/
structure Enrols (m : Machine) (g : GroupId) : Prop where
  range : g.index < m.groups.size
  threads : ∀ t ∈ (m.group g).threads, t.index < m.threads.size
  destroyed : (m.group g).destroyed = true → (m.group g).threads = []

/-- A thread is dead and not among those of the group. -/
structure Dropped (m : Machine) (g : GroupId) (t : ThreadId) : Prop where
  range : t.index < m.threads.size
  gone : m.isGone t = true
  absent : t ∉ (m.group g).threads

/-- The group of the machine `m` has come to be as in `m'` by the addition of some threads, in this order, to those that
it had, and has dropped none but dead ones, or is destroyed. -/
structure Carries (m : Machine) (g : GroupId) (added : List ThreadId) (m' : Machine) : Prop where
  enrols : m'.Enrols g
  dropped : ∀ t, m.Dropped g t → m'.Dropped g t
  destroyed : (m.group g).destroyed = true → (m'.group g).destroyed = true
  threads : (m'.group g).destroyed = false →
    (m'.group g).threads = ((m.group g).threads ++ added).filter (· ∈ (m'.group g).threads)
  absent : (m'.group g).destroyed = false →
    ∀ t ∈ (m.group g).threads ++ added, t ∉ (m'.group g).threads → m'.Dropped g t

end Groups

namespace Carries

theorem refl (h : m.Enrols g) : m.Carries g [] m where
  enrols := h
  dropped := fun _ ht => ht
  destroyed := id
  threads := fun _ => by
    rw [List.append_nil, List.filter_eq_self.mpr]
    exact fun _ ht => decide_eq_true ht
  absent := fun _ t ht habsent => by
    rw [List.append_nil] at ht
    exact absurd ht habsent

theorem trans (h : n.Carries g added m) (h' : m.Carries g more m') : n.Carries g (added ++ more) m' := by
  have hactive (hnot : (m'.group g).destroyed = false) : (m.group g).destroyed = false :=
    Bool.eq_false_iff.mpr fun hyes => Bool.eq_false_iff.mp hnot (h'.destroyed hyes)
  refine ⟨h'.enrols, fun t ht => h'.dropped t (h.dropped t ht), fun hyes => h'.destroyed (h.destroyed hyes),
    fun hnot => ?_, fun hnot t ht habsent => ?_⟩
  · -- A thread that was dropped on the way is not there in the end.
    have hlater {t : ThreadId} (ht : t ∈ (n.group g).threads ++ added) (hthere : t ∈ (m'.group g).threads) :
        t ∈ (m.group g).threads :=
      Decidable.byContradiction fun habsent => (h'.dropped t (h.absent (hactive hnot) t ht habsent)).absent hthere
    have hfirst : (m.group g).threads.filter (· ∈ (m'.group g).threads) =
        ((n.group g).threads ++ added).filter (· ∈ (m'.group g).threads) := by
      rw [h.threads (hactive hnot), List.filter_filter]
      refine List.filter_congr fun t ht => ?_
      by_cases hthere : t ∈ (m'.group g).threads
      · simp [hthere, hlater ht hthere]
      · simp [hthere]
    rw [← List.append_assoc, List.filter_append, ← hfirst, ← List.filter_append]
    exact h'.threads hnot
  · rw [← List.append_assoc, List.mem_append] at ht
    obtain ht | hmore := ht
    · by_cases hthere : t ∈ (m.group g).threads
      · exact h'.absent hnot t (List.mem_append_left _ hthere) habsent
      · exact h'.dropped t (h.absent (hactive hnot) t ht hthere)
    · exact h'.absent hnot t (List.mem_append_right _ hmore) habsent

section Threads

/-- The group stays as it is, and no thread comes back to life. -/
theorem goesOn (h : n.Carries g added m) (hsize : m.threads.size ≤ m'.threads.size)
    (hgroups : m'.groups.size = m.groups.size) (hgroup : m'.group g = m.group g)
    (hgone : ∀ t, t.index < m.threads.size → m.isGone t = true → m'.isGone t = true) : n.Carries g added m' := by
  have hlater : m.Carries g [] m' := by
    have hself := refl h.enrols
    have hdropped (t : ThreadId) (ht : m.Dropped g t) : m'.Dropped g t :=
      ⟨Nat.lt_of_lt_of_le ht.range hsize, hgone t ht.range ht.gone, by rw [hgroup]; exact ht.absent⟩
    refine ⟨⟨by rw [hgroups]; exact h.enrols.range, fun t ht => ?_, ?_⟩, hdropped, ?_, ?_, ?_⟩
    · rw [hgroup] at ht
      exact Nat.lt_of_lt_of_le (h.enrols.threads t ht) hsize
    · rw [hgroup]
      exact h.enrols.destroyed
    · rw [hgroup]
      exact id
    · rw [hgroup]
      exact hself.threads
    · rw [hgroup]
      exact fun hnot t ht habsent => hdropped t (hself.absent hnot t ht habsent)
  have hboth := h.trans hlater
  rwa [List.append_nil] at hboth

/-- Nothing but a thread that is not dead has changed, and nobody else has become busy. -/
theorem others (h : n.Carries g added m) (ht : m.isGone t = false) (hsize : m'.threads.size = m.threads.size)
    (hothers : ∀ u, u ≠ t → m'.thread u = m.thread u) (hgroups : m'.groups = m.groups)
    (hbusy : ∀ u, u ≠ t → m'.isBusy u = true → m.isBusy u = true) : n.Carries g added m' :=
  h.goesOn (Nat.le_of_eq hsize.symm) (by rw [hgroups]) (by rw [group, hgroups, group]) fun u _ hu =>
    isGone_mono (hbusy u (ne_of_isGone ht hu)) (by rw [hothers u (ne_of_isGone ht hu)]) hu

theorem of_eq (h : n.Carries g added m) (hthreads : m'.threads = m.threads) (hgroups : m'.groups = m.groups)
    (hbusy : ∀ u, m'.isBusy u = true → m.isBusy u = true) : n.Carries g added m' :=
  h.goesOn (Nat.le_of_eq (by rw [hthreads])) (by rw [hgroups]) (by rw [group, hgroups, group]) fun u _ hu =>
    isGone_mono (hbusy u) (by rw [thread, hthreads, thread]) hu

theorem confined (h : n.Carries g added m) (ht : m.isGone t = false) (hconfined : m.Confined m' t) :
    n.Carries g added m' :=
  h.others ht hconfined.size hconfined.others hconfined.groups fun u _ hu => by rwa [isBusy, ← hconfined.stack]

/-- Work on a thread that is not dead comes to an end. -/
theorem ended (h : n.Carries g added m) (hstack : m.stack = a :: acts) (ht : m.isGone t = false)
    (hconfined : ({ m with stack := acts } : Machine).Confined m' t) : n.Carries g added m' :=
  h.others ht hconfined.size hconfined.others hconfined.groups fun u _ hu => by
    rw [isBusy, hconfined.stack] at hu
    rw [isBusy, hstack, List.any_cons, hu, Bool.or_true]

theorem push (h : n.Carries g added m) (a : Activation) (ha : ∀ t ∈ a.thread?, m.isGone t = false) :
    n.Carries g added (m.push a) := by
  refine h.goesOn (Nat.le_refl _) rfl rfl fun u _ hu => isGone_mono (m := m) (fun hbusy => ?_) rfl hu
  rw [isBusy, Machine.push, List.any_cons, Bool.or_eq_true] at hbusy
  obtain heq | hbusy := hbusy
  · exact absurd rfl (ne_of_isGone (ha u (beq_iff_eq.mp heq)) hu)
  · exact hbusy

/-- A thread changes, but not its status. -/
theorem modifyThread (h : n.Carries g added m) (t : ThreadId) {f : Thread → Thread}
    (hf : ∀ th : Thread, (f th).status = th.status) : n.Carries g added (m.modifyThread t f) := by
  refine h.goesOn (Nat.le_of_eq (m.confined_modifyThread t f).size.symm) rfl rfl fun u _ hu =>
    isGone_mono (m := m) id ?_ hu
  obtain hsame | hchanged := m.thread_modifyThread_cases t f u
  · rw [hsame]
  · rw [hchanged, hf]

theorem destroyThread (h : n.Carries g added m) (t : ThreadId) : n.Carries g added (m.destroyThread t) := by
  have hconfined := m.confined_destroyThread t
  refine h.goesOn (Nat.le_of_eq hconfined.size.symm) (by rw [hconfined.groups]) (by rw [group, hconfined.groups, group])
    fun u hrange hu => ?_
  by_cases hne : u = t
  · subst hne
    refine isGone_iff.mpr ⟨by rw [isBusy, hconfined.stack]; exact (isGone_iff.mp hu).1, ?_⟩
    rw [Machine.destroyThread, thread_modifyThread (by rw [(m.confined_unwind u 0).size]; exact hrange)]
  · exact isGone_mono (fun hbusy => by rwa [isBusy, ← hconfined.stack]) (by rw [hconfined.others u hne]) hu

theorem newThread (h : n.Carries g added m) (f : Value) (args : Values) : n.Carries g added (m.newThread f args).1 :=
  h.goesOn (m.spares_newThread ⟨0⟩ f args).size rfl rfl fun u hrange hu =>
    isGone_mono (m := m) id (congrArg Thread.status ((m.spares_newThread u f args).thread hrange)) hu

end Threads

section Groups

/-- Another group changes. -/
theorem modifyOther (h : n.Carries g added m) {other : GroupId} (hne : other ≠ g) (f : Group → Group) :
    n.Carries g added (m.modifyGroup other f) :=
  h.goesOn (Nat.le_refl _) (m.size_modifyGroup other f) (group_modifyGroup_of_ne hne f) fun _ _ hu => hu

/-- The group gets threads, which are not dead, or drops some that are. -/
theorem modifyOwn (h : n.Carries g added m) (f : Group → Group) (p : ThreadId → Bool)
    (hmore : ∀ t ∈ more, t.index < m.threads.size ∧ m.isGone t = false)
    (hthreads : (f (m.group g)).threads = ((m.group g).threads ++ more).filter p)
    (hdrops : ∀ t, p t = false → m.isGone t = true) (hdestroyed : (f (m.group g)).destroyed = (m.group g).destroyed)
    (hnone : (m.group g).destroyed = true → more = []) : n.Carries g (added ++ more) (m.modifyGroup g f) := by
  have hgroup := group_modifyGroup h.enrols.range f
  have hrange (t : ThreadId) (ht : t ∈ (m.group g).threads ++ more) : t.index < m.threads.size := by
    obtain hold | hnew := List.mem_append.mp ht
    · exact h.enrols.threads t hold
    · exact (hmore t hnew).1
  have habsent (t : ThreadId) (ht : t ∈ (m.group g).threads ++ more)
      (hnot : t ∉ ((m.modifyGroup g f).group g).threads) : (m.modifyGroup g f).Dropped g t := by
    refine ⟨hrange t ht, hdrops t (Bool.eq_false_iff.mpr fun hkept => hnot ?_), hnot⟩
    rw [hgroup, hthreads]
    exact List.mem_filter.mpr ⟨ht, hkept⟩
  refine h.trans ⟨⟨?_, fun t ht => ?_, fun hyes => ?_⟩, fun t ht => ⟨ht.range, ht.gone, fun hthere => ?_⟩, ?_,
    fun _ => ?_, fun _ => habsent⟩
  · rw [size_modifyGroup]
    exact h.enrols.range
  · rw [hgroup, hthreads] at ht
    exact hrange t (List.mem_filter.mp ht).1
  · rw [hgroup, hdestroyed] at hyes
    rw [hgroup, hthreads, hnone hyes, h.enrols.destroyed hyes]
    rfl
  · rw [hgroup, hthreads] at hthere
    obtain hold | hnew := List.mem_append.mp (List.mem_filter.mp hthere).1
    · exact ht.absent hold
    · exact absurd rfl (ne_of_isGone (hmore t hnew).2 ht.gone)
  · rw [hgroup, hdestroyed]
    exact id
  · rw [hgroup, hthreads]
    refine List.filter_congr fun t ht => ?_
    rw [Bool.eq_iff_iff, decide_eq_true_eq, List.mem_filter]
    exact ⟨fun hkept => ⟨ht, hkept⟩, And.right⟩

/-- The group is suspended, or goes on. -/
theorem setSuspended (h : n.Carries g added m) (other : GroupId) (suspended : Bool) :
    n.Carries g added (m.modifyGroup other fun group => { group with suspended }) := by
  by_cases hne : other = g
  · subst hne
    have hset : n.Carries other (added ++ []) _ := h.modifyOwn (fun group => { group with suspended }) (fun _ => true)
      (fun _ ht => nomatch ht) (by rw [List.filter_eq_self.mpr fun _ _ => rfl, List.append_nil])
      (fun _ hp => nomatch hp) rfl fun _ => rfl
    rwa [List.append_nil] at hset
  · exact h.modifyOther hne _

theorem pruneGroup (h : n.Carries g added m) (other : GroupId) : n.Carries g added (m.pruneGroup other) := by
  by_cases hne : other = g
  · subst hne
    have hpruned : n.Carries other (added ++ []) _ := h.modifyOwn
      (fun group => { group with threads := (m.group other).threads.filter fun t => !m.isGone t })
      (fun t => !m.isGone t) (fun _ ht => nomatch ht) (by rw [List.append_nil]) (fun _ hp => by simpa using hp) rfl
      fun _ => rfl
    rwa [List.append_nil] at hpruned
  · exact h.modifyOther hne _

theorem destroyGroup (h : n.Carries g added m) (other : GroupId) : n.Carries g added (m.destroyGroup other) := by
  have hended (threads : List ThreadId) {m : Machine} (h : n.Carries g added m) : n.Carries g added
      (threads.foldl (fun m t => if m.isBusy t then m else m.destroyThread t) m) := by
    refine List.foldlRecOn _ _ h fun m hm t _ => ?_
    split
    · exact hm
    · exact hm.destroyThread t
  refine hended _ ?_
  by_cases hne : other = g
  · subst hne
    have hgroup := group_modifyGroup h.enrols.range fun group => { group with destroyed := true, threads := [] }
    have hyes : ((m.modifyGroup other fun group => { group with destroyed := true, threads := [] }).group
        other).destroyed = true := by rw [hgroup]
    refine ⟨⟨by rw [size_modifyGroup]; exact h.enrols.range, fun t ht => ?_, fun _ => by rw [hgroup]⟩, fun t ht => ?_,
      fun _ => hyes, fun hnot => ?_, fun hnot => ?_⟩
    · rw [hgroup] at ht
      cases ht
    · have hdropped := h.dropped t ht
      exact ⟨hdropped.range, hdropped.gone, by rw [hgroup]; exact List.not_mem_nil⟩
    · rw [hyes] at hnot
      cases hnot
    · rw [hyes] at hnot
      cases hnot
  · exact h.modifyOther hne _

/-- A thread that is not dead comes behind those that the group has, unless it is destroyed. -/
theorem addToGroup (h : n.Carries g added m) (other : GroupId) (hrange : t.index < m.threads.size)
    (ht : m.isGone t = false) :
    n.Carries g (added ++ if other = g ∧ (m.group g).destroyed = false then [t] else []) (m.addToGroup other t) := by
  unfold Machine.addToGroup
  by_cases hdestroyed : (m.group other).destroyed = true
  · have hnone : ¬(other = g ∧ (m.group g).destroyed = false) := by
      rintro ⟨rfl, hnot⟩
      exact Bool.eq_false_iff.mp hnot hdestroyed
    rw [if_pos hdestroyed, if_neg hnone, List.append_nil]
    split
    · exact h
    · exact h.destroyThread t
  · rw [if_neg hdestroyed]
    by_cases hne : other = g
    · subst hne
      rw [if_pos ⟨rfl, Bool.eq_false_iff.mpr hdestroyed⟩]
      refine h.modifyOwn (fun group => { group with threads := group.threads ++ [t] }) (fun _ => true) (fun u hu => ?_)
        (List.filter_eq_self.mpr fun _ _ => rfl).symm (fun _ hp => nomatch hp) rfl fun hyes => absurd hyes hdestroyed
      rw [List.mem_singleton.mp hu]
      exact ⟨hrange, ht⟩
    · rw [if_neg fun hboth => hne hboth.1, List.append_nil]
      exact h.modifyOther hne _

end Groups

end Carries

end LuaMachine.Machine
