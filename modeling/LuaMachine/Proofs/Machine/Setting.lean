import LuaMachine.Proofs.Machine.Activity

namespace LuaMachine

variable {scope : Scope} {limits : Limits}

theorem Segment.ne_nil {n : Nat} {t : ThreadId} {starts hostReturn : Bool} {fs : List FrameOutline}
    {acts : List Activation} (h : Segment scope limits t starts hostReturn fs n acts) : acts ≠ [] := by
  cases h <;> exact List.cons_ne_nil _ _

theorem Ready.ne_nil {t : ThreadId} {th : ThreadOutline} {acts : List Activation} {s : Signal}
    (h : Ready scope limits t th acts s) : acts ≠ [] := by
  cases h with
  | go | pause => exact List.cons_ne_nil _ _
  | invoke hacts | values hacts | error _ _ _ hacts | yield hacts => exact Segment.ne_nil hacts

/-- The work of a segment keeps its thread busy and no other one. -/
theorem Segment.any_thread {n : Nat} {t : ThreadId} {starts hostReturn : Bool} {fs : List FrameOutline}
    {acts : List Activation} (h : Segment scope limits t starts hostReturn fs n acts) (id : ThreadId) :
    (acts.any fun a => a.thread? == some id) = true ↔ id = t := by
  have hown : (some t == some id) = true ↔ id = t := by
    rw [beq_iff_eq, Option.some.injEq]
    exact eq_comm
  induction h with
  | resume => simpa [Activation.thread?] using hown
  | visit => simpa [Activation.thread?] using hown
  | @call floor held _ _ _ _ _ _ ih =>
    have hself : (Activation.endCall t floor none held).thread? = some t := rfl
    simp only [List.any_cons, hself, Bool.or_eq_true, hown, ih, or_self]
  | @pass a _ _ _ ha _ ih =>
    have hnone : a.thread? = none := by
      cases a <;> first | rfl | cases ha
    simpa [hnone] using ih
  | started => simpa [Activation.thread?] using hown
  | wait _ _ _ _ _ _ ih =>
    simpa [Activation.thread?] using ih

theorem Below.any_thread {o : Outline} {below : List Activation} {ts : List ThreadId} (h : Below scope o below ts)
    (id : ThreadId) : (below.any fun a => a.thread? == some id) = true ↔ id ∈ ts ∨ scope.Occupies id := by
  induction h with
  | bottom => simp [Scope.Occupies]
  | resumed _ _ _ hacts _ ih =>
    rw [List.any_cons, List.any_append, Bool.or_eq_true, Bool.or_eq_true, hacts.any_thread, ih, List.mem_cons]
    simp [Activation.thread?, or_assoc]

theorem Below.base_suffix {o : Outline} {below : List Activation} {ts : List ThreadId} (h : Below scope o below ts) :
    scope.base <:+ below := by
  induction h with
  | bottom => exact List.suffix_rfl
  | resumed _ _ _ _ _ ih => exact (ih.trans (List.suffix_append _ _)).trans (List.suffix_cons _ _)

theorem Below.range {o : Outline} {below : List Activation} {ts : List ThreadId} (h : Below scope o below ts)
    {id : ThreadId} (hid : id ∈ ts) : id.index < o.threads.size := by
  induction h with
  | bottom => cases hid
  | resumed _ _ hrange _ _ ih =>
    rcases List.mem_cons.mp hid with rfl | hrest
    · exact hrange
    · exact ih hrest

theorem Below.congr {o o' : Outline} {below : List Activation} {ts : List ThreadId} (h : Below scope o below ts)
    (hlimits : o'.limits = o.limits) (hsize : o.threads.size ≤ o'.threads.size)
    (hthread : ∀ id ∈ ts, o'.thread id = o.thread id) : Below scope o' below ts := by
  induction h with
  | bottom => exact .bottom
  | @resumed t _ _ _ _ _ hstatus hfits hrange hacts _ ih =>
    have hsame := hthread t (by simp)
    refine .resumed (by rw [hsame]; exact hstatus) (by rw [hsame, hlimits]; exact hfits) (by omega) ?_
      (ih fun id hid => hthread id (by simp [hid]))
    rw [hsame, hlimits]
    exact hacts

namespace Outline.Setting

variable {o o' : Outline} {t : ThreadId} {below : List Activation} {ts : List ThreadId}

theorem congr (h : o.Setting scope t below ts) (hlimits : o'.limits = o.limits) (hregular : o'.Regular scope)
    (hsize : o.threads.size ≤ o'.threads.size) (hfits : (o'.thread t).Fits o.limits.callDepth)
    (hwaiting : ∀ id ∈ ts, o'.thread id = o.thread id)
    (hothers : ∀ id, id ∉ t :: ts → (o'.thread id).Rests scope o.limits.callDepth id) :
    o'.Setting scope t below ts :=
  ⟨hregular, h.below.congr hlimits hsize hwaiting, h.nodup, by have := h.range; omega, by rwa [hlimits],
    by rwa [hlimits]⟩

/-- Where the work in progress is does not matter for the surroundings. -/
theorem withStack (h : o.Setting scope t below ts) (stack : List Activation) :
    (o.withStack stack).Setting scope t below ts :=
  h.congr rfl h.regular (Nat.le_refl _) h.fits (fun _ _ => rfl) h.others

/-- The thread at work may change. -/
theorem modifyThread (h : o.Setting scope t below ts) {f : ThreadOutline → ThreadOutline}
    (hfits : (f (o.thread t)).Fits o.limits.callDepth) : (o.modifyThread t f).Setting scope t below ts := by
  have hnotin : t ∉ ts := (List.nodup_cons.mp h.nodup).1
  refine h.congr rfl h.regular (by simp) ?_ ?_ ?_
  · rwa [thread_modifyThread_self _ _ _ h.range]
  · intro id hid
    apply thread_modifyThread_of_ne
    rintro rfl
    exact hnotin hid
  · intro id hid
    rw [thread_modifyThread_of_ne _ _ _ fun heq => hid (by simp [heq])]
    exact h.others id hid

theorem setFrames (h : o.Setting scope t below ts) {fs : List FrameOutline} (hbound : fs.length ≤ o.limits.callDepth) :
    (o.setFrames t fs).Setting scope t below ts := h.modifyThread ⟨rfl, hbound⟩

/-- When the thread at work comes to rest, the one that resumed it takes the outcome. -/
theorem leave (h : o.Setting scope t below ts) (hidle : (o.thread t).Idle scope o.limits.callDepth) {s : Signal}
    (hs : s.IsOutcome scope) : (o.withStack below).Sound scope s := by
  have hrest (id : ThreadId) (hid : id ∉ ts) : (o.thread id).Rests scope o.limits.callDepth id := by
    by_cases heq : id = t
    · rw [heq]
      exact hidle.rests t
    · exact h.others id (by simp [heq, hid])
  have hbelow := h.below
  cases hbelow with
  | bottom => exact .atRest h.regular rfl (fun id => hrest id (by simp)) hs
  | resumed hstatus hfits hrange hacts hbelow =>
    have hnodup := (List.nodup_cons.mp h.nodup).2
    exact .back rfl ⟨h.regular, hbelow.congr rfl (Nat.le_refl _) (fun _ _ => rfl), hnodup, hrange, hfits, hrest⟩
      hacts hs

/-- The thread at work may resume a thread that nobody runs. -/
theorem enter (h : o.Setting scope t below ts) {acts : List Activation} (hstatus : (o.thread t).status = .normal)
    (hacts : (o.thread t).Under scope o.limits t (o.thread t).frames acts) {u : ThreadId} (hu : u ∉ t :: ts)
    (hfree : ¬scope.Occupies u) (hrange : u.index < o.threads.size) (wrapped : Bool) :
    o.Setting scope u (.resumed t .running wrapped u :: (acts ++ below)) (t :: ts) :=
  ⟨h.regular, .resumed hstatus h.fits h.range hacts h.below, List.nodup_cons.mpr ⟨hu, h.nodup⟩, hrange,
    ((h.others u hu).idle hfree).toFits, fun id hid => h.others id fun hmem => hid (List.mem_cons_of_mem _ hmem)⟩

end Outline.Setting

/-- Where nothing was in progress before, any work is new. -/
theorem Scope.Whole.ne_base (h : scope.Whole) {stack acts : List Activation} {a : Activation}
    (hstack : stack = a :: acts) : stack ≠ scope.base := by
  rw [hstack, h.base]
  exact List.cons_ne_nil _ _

/-- A thread is busy exactly if it is at work, waits for the one at work, or was busy before. -/
theorem Machine.isBusy_iff {m : Machine} {t : ThreadId} {acts below : List Activation} {ts : List ThreadId}
    (hstack : m.stack = acts ++ below) (hbelow : Below scope m.outline below ts)
    {n : Nat} {starts hostReturn : Bool} {fs : List FrameOutline}
    (hacts : Segment scope limits t starts hostReturn fs n acts) (id : ThreadId) :
    m.isBusy id = true ↔ id ∈ t :: ts ∨ scope.Occupies id := by
  rw [Machine.isBusy, hstack, List.any_append, Bool.or_eq_true, hacts.any_thread, hbelow.any_thread, List.mem_cons,
    or_assoc]

end LuaMachine
