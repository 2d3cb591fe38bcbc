import LuaMachine.Proofs.Machine.Roster
import LuaMachine.Proofs.Machine.Unwinding

namespace LuaMachine

/-- The thread that work is done for. -/
def Activation.serves? : Activation → Option ThreadId
  | .interpret i => some i.thread
  | .concat thread .. => some thread
  | .endCall thread .. => some thread
  | .startedNative thread _ => some thread
  | .print thread .. => some thread
  | .resumed thread .. => some thread
  | _ => none

/-- The thread that a native function is about to run for. -/
def Signal.serves? : Signal → Option ThreadId
  | .invoke thread .. => some thread
  | _ => none

/-- The thread of the innermost resume or call. -/
def current? (acts : List Activation) : Option ThreadId := acts.findSome? Activation.thread?

/-- All work is done for the thread of the innermost resume or call below it. -/
inductive Grounded : List Activation → Prop
  | nil : Grounded []
  | cons {a : Activation} {acts : List Activation} (ha : ∀ t ∈ a.serves?, current? acts = some t)
      (h : Grounded acts) : Grounded (a :: acts)

theorem current?_cons_of_none {a : Activation} (ha : a.thread? = none) (acts : List Activation) :
    current? (a :: acts) = current? acts := by
  rw [current?, List.findSome?_cons, ha]
  rfl

theorem current?_cons_of_some {a : Activation} {t : ThreadId} (ha : a.thread? = some t) (acts : List Activation) :
    current? (a :: acts) = some t := by
  rw [current?, List.findSome?_cons, ha]

theorem Signal.serves?_of_ne {s : Signal} (h : ∀ u id args, s ≠ .invoke u id args) : s.serves? = none := by
  cases s with
  | invoke u id args => exact absurd rfl (h u id args)
  | go | values | yielded | frameLimit | sleeping | error => rfl

namespace Machine

variable {m m' n : Machine} {g : GroupId} {added : List ThreadId} {base acts : List Activation} {t u : ThreadId}
  {who : Option ThreadId} {a : Activation} {s : Signal}

section Signals

variable (m) (t)

theorem serves?_pushFrame (id : ClosureId) (args : Values) (target : ReturnTarget) :
    (m.pushFrame t id args target).2.serves? = none := by
  unfold pushFrame
  dsimp only
  split <;> rfl

theorem serves?_deliver (target : ReturnTarget) (vs : Values) : (m.deliver t target vs).2.serves? = none := by
  have hstored : (m.storeResults t target vs).2.serves? = none := by
    unfold storeResults
    split
    · rfl
    · dsimp only
      split <;> rfl
  have hiterator (m : Machine) (a : Nat) : (m.iteratorStep t a).2.serves? = none := by
    unfold iteratorStep
    split
    · rfl
    · dsimp only
      split <;> rfl
  unfold deliver
  split
  · exact hstored
  · split
    · exact hiterator _ _
    · exact hstored
  · rfl

theorem serves?_finishReturn (vs : Values) (floor : Nat) : (m.finishReturn t vs floor).2.serves? = none := by
  unfold finishReturn
  split
  · rfl
  · dsimp only
    split
    · rfl
    · exact serves?_deliver _ t _ vs

theorem serves?_completePending (vs : Values) (floor : Nat) : (m.completePending t vs floor).2.serves? = none := by
  unfold completePending
  split
  · rfl
  · split
    · rfl
    · dsimp only
      split
      · exact serves?_finishReturn _ t vs floor
      · exact serves?_deliver _ t _ vs

theorem serves?_yieldNow (vs : Values) : (m.yieldNow t vs).2.serves? = none := by
  unfold yieldNow
  dsimp only
  split
  · rfl
  · split <;> rfl

end Signals

/-- Work above `base` is done for the threads that it belongs to, `who` among them being the one at work. Since the
machine `n` the group has got the threads `added`. -/
structure Attends (base : List Activation) (g : GroupId) (n : Machine) (added : List ThreadId)
    (who : Option ThreadId) (m : Machine) : Prop where
  carries : n.Enrols g → n.Carries g added m
  grounded : ∃ acts, m.stack = acts ++ base ∧ Grounded acts ∧ ∀ t ∈ who, current? acts = some t

namespace Attends

theorem isBusy (h : Attends base g n added (some t) m) : m.isBusy t = true := by
  obtain ⟨acts, hstack, -, hcurrent⟩ := h.grounded
  obtain ⟨a, ha, hthread⟩ := List.exists_of_findSome?_eq_some (hcurrent t rfl)
  rw [Machine.isBusy, hstack, List.any_append, Bool.or_eq_true]
  exact Or.inl (List.any_eq_true.mpr ⟨a, ha, beq_iff_eq.mpr hthread⟩)

theorem isGone (h : Attends base g n added (some t) m) : m.isGone t = false := isGone_of_busy h.isBusy

/-- Nobody is at work. -/
theorem of_grounded (hcarries : n.Enrols g → n.Carries g added m) (hstack : m.stack = acts ++ base)
    (hgrounded : Grounded acts) : Attends base g n added none m :=
  ⟨hcarries, acts, hstack, hgrounded, fun t ht => absurd ht (Option.not_mem_none t)⟩

theorem refl (m : Machine) (g : GroupId) : Attends m.stack g m [] none m :=
  of_grounded (fun henrols => .refl henrols) (List.nil_append m.stack).symm .nil

theorem idle (h : Attends base g n added who m) : Attends base g n added none m := by
  obtain ⟨acts, hstack, hgrounded, -⟩ := h.grounded
  exact of_grounded h.carries hstack hgrounded

theorem of_none (h : Attends base g n added who m) (hs : s.serves? = none) : Attends base g n added s.serves? m := by
  rw [hs]
  exact h.idle

theorem others (h : Attends base g n added who m) (ht : m.isGone t = false) (hconfined : m.Confined m' t) :
    Attends base g n added who m' := by
  obtain ⟨acts, hstack, hgrounded, hcurrent⟩ := h.grounded
  exact ⟨fun henrols => (h.carries henrols).confined ht hconfined, acts, hconfined.stack.trans hstack, hgrounded,
    hcurrent⟩

/-- The thread at work changes. -/
theorem confined (h : Attends base g n added (some t) m) (hconfined : m.Confined m' t) :
    Attends base g n added (some t) m' := h.others h.isGone hconfined

theorem of_eq (h : Attends base g n added who m) (hthreads : m'.threads = m.threads) (hgroups : m'.groups = m.groups)
    (hstack : m'.stack = m.stack) : Attends base g n added who m' := by
  obtain ⟨acts, hacts, hgrounded, hcurrent⟩ := h.grounded
  refine ⟨fun henrols => (h.carries henrols).of_eq hthreads hgroups fun u hu => ?_, acts, hstack.trans hacts, hgrounded,
    hcurrent⟩
  rwa [Machine.isBusy, ← hstack]

theorem modifyThread (h : Attends base g n added who m) (t : ThreadId) {f : Thread → Thread}
    (hf : ∀ th : Thread, (f th).status = th.status) : Attends base g n added who (m.modifyThread t f) :=
  ⟨fun henrols => (h.carries henrols).modifyThread t hf, h.grounded⟩

/-- Work for the thread at work, or for none, begins. -/
theorem push (h : Attends base g n added who m) (ha : ∀ t ∈ a.serves?, who = some t) (hnone : a.thread? = none) :
    Attends base g n added who (m.push a) := by
  obtain ⟨acts, hstack, hgrounded, hcurrent⟩ := h.grounded
  refine ⟨fun henrols => (h.carries henrols).push a fun t ht => ?_, a :: acts, ?_, .cons (fun t ht => ?_) hgrounded,
    fun t ht => ?_⟩
  · rw [hnone] at ht
    cases ht
  · rw [Machine.push, hstack]
    rfl
  · exact hcurrent t (ha t ht)
  · rw [current?_cons_of_none hnone]
    exact hcurrent t ht

/-- Work for nobody begins. -/
theorem pushOther (h : Attends base g n added who m) (hserves : a.serves? = none) (hnone : a.thread? = none) :
    Attends base g n added who (m.push a) :=
  h.push (fun t ht => absurd (hserves ▸ ht) (Option.not_mem_none t)) hnone

/-- A call from native code begins on the thread at work. -/
theorem pushCall (h : Attends base g n added (some t) m) (floor : Option Nat) (previous : Option Status)
    (held : Values) : Attends base g n added (some t) (m.push (.endCall t floor previous held)) := by
  obtain ⟨acts, hstack, hgrounded, hcurrent⟩ := h.grounded
  refine ⟨fun henrols => (h.carries henrols).push _ fun u hu => ?_, .endCall t floor previous held :: acts, ?_,
    .cons (fun u hu => ?_) hgrounded, fun u hu => ?_⟩
  · cases hu
    exact h.isGone
  · rw [Machine.push, hstack]
    rfl
  · cases hu
    exact hcurrent t rfl
  · cases hu
    exact current?_cons_of_some rfl _

/-- A thread that is not dead is resumed. -/
theorem pushResume (h : Attends base g n added who m) (ht : m.isGone t = false) (floor : Nat) (held : Values) :
    Attends base g n added (some t) (m.push (.endResume t floor held)) := by
  obtain ⟨acts, hstack, hgrounded, -⟩ := h.grounded
  refine ⟨fun henrols => (h.carries henrols).push _ fun u hu => ?_, .endResume t floor held :: acts, ?_,
    .cons (fun u hu => absurd hu (Option.not_mem_none u)) hgrounded, fun u hu => ?_⟩
  · cases hu
    exact ht
  · rw [Machine.push, hstack]
    rfl
  · cases hu
    exact current?_cons_of_some rfl _

/-- An interpreter begins to run the thread at work. -/
theorem interpret (h : Attends base g n added (some t) m) (floor : Nat) (limit : Option Nat) :
    Attends base g n added none (m.push (.interpret ⟨t, floor, limit, .entering⟩)) :=
  (h.push (a := .interpret ⟨t, floor, limit, .entering⟩) (fun _ hu => hu) rfl).idle

section Beginnings

theorem pushFrame (h : Attends base g n added (some t) m) (id : ClosureId) (args : Values) (target : ReturnTarget) :
    Attends base g n added (some t) (m.pushFrame t id args target).1 := by
  refine h.confined ?_
  cases hpushed : m.pushFrame t id args target with | mk m' s =>
  obtain ⟨-, hconfined, -⟩ | ⟨-, hretains, -⟩ := (Retains.refl m t).pushFrame hpushed
  · exact hconfined
  · exact hretains.toConfined

theorem beginCall (h : Attends base g n added (some t) m) (f : Value) (args held : Values) :
    Attends base g n added (m.beginCall t f args held).2.serves? (m.beginCall t f args held).1 := by
  unfold Machine.beginCall
  extract_lets th idle previous begun floor pushed
  split
  · exact h.idle
  · split
    · exact h.idle
    · rename_i callee args' _
      have hbegun : Attends base g n added (some t) begun := h.confined (m.confined_modifyThread t _)
      cases callee with
      | native id => exact hbegun.pushCall none previous _
      | closure id =>
        have hpushed := (hbegun.pushCall (some floor) previous (f :: held)).pushFrame id args' .host
        have hsignal := serves?_pushFrame pushed t id args' .host
        dsimp only
        split
        · rename_i heq
          rw [heq] at hpushed
          exact hpushed.interpret floor none
        · exact hpushed.of_none hsignal

theorem callHandler (h : Attends base g n added (some t) m) (handler : Handler) (held : Values) :
    Attends base g n added (m.callHandler t handler held).2.serves? (m.callHandler t handler held).1 :=
  (h.pushOther (a := .read handler.reading) rfl rfl).beginCall _ _ _

theorem attempt (h : Attends base g n added (some t) m) (a : Attempt) (held : Values) :
    Attends base g n added (m.attempt t a held).2.serves? (m.attempt t a held).1 := by
  cases a with
  | done | fail => exact h.idle
  | handler handler => exact h.callHandler handler held

theorem continueJoin (h : Attends base g n added (some t) m) (reversed held : Values) :
    Attends base g n added (m.continueJoin t reversed held).2.serves? (m.continueJoin t reversed held).1 := by
  unfold Machine.continueJoin
  split
  · exact h.idle
  · exact h.idle
  · exact (h.push (a := .concat t _ held) (fun _ hu => hu) rfl).callHandler _ _

theorem continuePrint (h : Attends base g n added (some t) m) (args : Values) (shown : List String) (rest : Values) :
    Attends base g n added (m.continuePrint t args shown rest).2.serves? (m.continuePrint t args shown rest).1 := by
  induction rest generalizing shown with
  | nil => exact h.idle.of_eq rfl rfl rfl
  | cons v rest ih =>
    unfold Machine.continuePrint
    split
    · exact (h.push (a := .print t shown args) (fun _ hu => hu) rfl).callHandler _ _
    · exact h.idle
    · exact ih _

theorem yieldNow (h : Attends base g n added (some t) m) (vs : Values) :
    Attends base g n added (some t) (m.yieldNow t vs).1 := by
  unfold Machine.yieldNow
  dsimp only
  split
  · exact h
  · split
    · exact h
    · exact h.confined (m.confined_modifyThread t _)

theorem beginStart (h : Attends base g n added (some t) m) (limit : Option Nat) (f : Value) (args : Values) :
    Attends base g n added (m.beginStart t limit f args).2.serves? (m.beginStart t limit f args).1 := by
  unfold Machine.beginStart
  split
  · exact h.idle
  · rename_i id args' _
    have hpushed := h.pushFrame id args' .host
    have hsignal := serves?_pushFrame m t id args' .host
    split
    · rename_i heq
      rw [heq] at hpushed
      exact hpushed.interpret 0 limit
    · exact hpushed.of_none hsignal
  · exact h.push (a := .startedNative t _) (fun _ hu => hu) rfl

theorem beginResumed (h : Attends base g n added who m) (ht : m.isGone t = false) (floor : Nat) (limit : Option Nat)
    (args : Values) :
    Attends base g n added (m.beginResumed t floor limit args).2.serves? (m.beginResumed t floor limit args).1 := by
  have hresumed (held : Values) := h.pushResume ht floor held
  have hchanged (f : Thread → Thread) := (hresumed []).confined (confined_modifyThread _ t f)
  unfold Machine.beginResumed
  dsimp only
  split
  · exact (hchanged _).beginStart limit _ _
  · split
    · exact (hchanged _).idle
    · split
      · exact (hresumed []).idle
      · split
        · exact (hresumed args).interpret 0 limit
        · have hcompleted := (hresumed []).confined (confined_completePending _ t args 0)
          have hsignal := serves?_completePending (m.push (.endResume t floor [])) t args 0
          split
          · rename_i heq
            rw [heq] at hcompleted
            exact hcompleted.interpret 0 limit
          · exact hcompleted.of_none hsignal

theorem beginResume (h : Attends base g n added who m) (budget : Option Nat) (args : Values) :
    Attends base g n added (m.beginResume t budget args).2.serves? (m.beginResume t budget args).1 := by
  unfold Machine.beginResume
  dsimp only
  split
  · exact (h.modifyThread t (f := fun th => { th with sleep := th.sleep - 1 }) fun _ => rfl).idle
  · split
    · exact h.idle
    · split
      · exact h.idle
      · rename_i hresumable
        have hdead : (m.thread t).status ≠ .dead := by
          intro hdead
          rw [hdead] at hresumable
          exact hresumable rfl
        have hrunning : ((m.modifyThread t fun th => { th with status := .running, instructions := 0 }).thread
            t).status ≠ .dead := by
          obtain hsame | hchanged := m.thread_modifyThread_cases t _ t
          · rw [hsame]
            exact hdead
          · rw [hchanged]
            exact nofun
        exact (h.others (isGone_of_status hdead) (m.confined_modifyThread t _)).beginResumed (isGone_of_status hrunning)
          _ _ args

theorem beginResumeFrom (h : Attends base g n added (some t) m) (target : ThreadId) (wrapped : Bool) (args : Values) :
    Attends base g n added (m.beginResumeFrom t target wrapped args).2.serves?
      (m.beginResumeFrom t target wrapped args).1 := by
  have hpushed := h.push (a := .resumed t (m.thread t).status wrapped target) (fun _ hu => hu) rfl
  unfold Machine.beginResumeFrom
  dsimp only
  split
  · exact hpushed.idle
  · exact (hpushed.confined (confined_modifyThread _ t _)).beginResume none args

end Beginnings

section Groups

/-- A thread that is not dead, or one that does not change, is ended. -/
theorem destroyThread (h : Attends base g n added who m) (t : ThreadId) :
    Attends base g n added who (m.destroyThread t) := by
  obtain ⟨acts, hstack, hgrounded, hcurrent⟩ := h.grounded
  exact ⟨fun henrols => (h.carries henrols).destroyThread t, acts, (m.confined_destroyThread t).stack.trans hstack,
    hgrounded, hcurrent⟩

theorem newThread (h : Attends base g n added who m) (f : Value) (args : Values) :
    Attends base g n added who (m.newThread f args).1 :=
  ⟨fun henrols => (h.carries henrols).newThread f args, h.grounded⟩

theorem destroyGroup (h : Attends base g n added who m) (other : GroupId) :
    Attends base g n added who (m.destroyGroup other) := by
  obtain ⟨acts, hstack, hgrounded, hcurrent⟩ := h.grounded
  exact ⟨fun henrols => (h.carries henrols).destroyGroup other, acts, (m.stack_destroyGroup other).trans hstack,
    hgrounded, hcurrent⟩

theorem continueTicks (h : Attends base g n added who m) (other : GroupId) (members rest : List ThreadId) :
    Attends base g n added (m.continueTicks other members rest).2.serves? (m.continueTicks other members rest).1 := by
  induction rest with
  | nil => exact ⟨fun henrols => (h.carries henrols).pruneGroup other, h.idle.grounded⟩
  | cons t rest ih =>
    unfold Machine.continueTicks
    split
    · exact ih
    · exact (h.pushOther (a := .tick other members t rest) rfl rfl).beginResume _ _

theorem beginUpdate (h : Attends base g n added who m) (other : GroupId) :
    Attends base g n added (m.beginUpdate other).2.serves? (m.beginUpdate other).1 := by
  unfold Machine.beginUpdate
  dsimp only
  split
  · exact h.idle
  · exact h.continueTicks other _ _

theorem continueUpdates (h : Attends base g n added who m) (groups : List GroupId) :
    Attends base g n added (m.continueUpdates groups).2.serves? (m.continueUpdates groups).1 := by
  cases groups with
  | nil => exact h.idle
  | cons other rest => exact (h.pushOther (a := .updateGroups rest) rfl rfl).beginUpdate other

theorem groupAction (h : Attends base g n added who m) (other : GroupId) (action : GroupAction) (args : Values) :
    Attends base g n added (m.groupAction other action args).2.serves? (m.groupAction other action args).1 := by
  cases action with
  | update => exact (h.pushOther (a := .groupSize other args) rfl rfl).beginUpdate other
  | suspend => exact ⟨fun henrols => (h.carries henrols).setSuspended other true, h.idle.grounded⟩
  | resume => exact ⟨fun henrols => (h.carries henrols).setSuspended other false, h.idle.grounded⟩
  | destroy => exact (h.destroyGroup other).idle

end Groups

end Attends

end Machine

end LuaMachine
