import LuaMachine.Proofs.Machine.Grounding
import LuaMachine.Proofs.Machine.Steady

namespace LuaMachine

/-- Work that a thread does for itself: it neither ends a resume nor waits for another thread. -/
def Activation.BelongsTo (t : ThreadId) : Activation → Prop
  | .interpret i => i.thread = t
  | .concat u .. => u = t
  | .endCall u _ previous _ => u = t ∧ previous = none
  | .startedNative u _ => u = t
  | .print u .. => u = t
  | .read _ => True
  | .protect => True
  | .forget => True
  | .endResume .. => False
  | .resumed .. => False
  | .tick .. => False
  | .groupSize .. => False
  | .updateGroups _ => False

/-- All work in progress, with the threads that have an active resume or call, the innermost first. The host resumed or
called the outermost one, `root`, and each other one was resumed by the one after it. -/
inductive ActiveChain (root : ThreadId) : List ThreadId → List Activation → Prop
  | resume {floor : Nat} {held : Values} : ActiveChain root [root] [.endResume root floor held]
  | call {floor : Option Nat} {previous : Status} {held : Values} (hprevious : previous.isActive = false) :
      ActiveChain root [root] [.endCall root floor (some previous) held]
  | work {a : Activation} {t : ThreadId} {ts : List ThreadId} {acts : List Activation} (ha : a.BelongsTo t)
      (h : ActiveChain root (t :: ts) acts) : ActiveChain root (t :: ts) (a :: acts)
  | nested {t u : ThreadId} {ts : List ThreadId} {floor : Nat} {held : Values} {wrapped : Bool}
      {acts : List Activation} (h : ActiveChain root (t :: ts) acts) :
      ActiveChain root (u :: t :: ts) (.endResume u floor held :: .resumed t .running wrapped u :: acts)

/-- Work that a thread does for itself is done for it, if for any. -/
theorem Activation.BelongsTo.eq_of_serves? {a : Activation} {t u : ThreadId} (h : a.BelongsTo t)
    (hu : u ∈ a.serves?) : u = t := by
  cases a with
  | interpret i => exact (Option.some.inj hu).symm.trans h
  | concat v | startedNative v | print v => exact (Option.some.inj hu).symm.trans h
  | endCall v => exact (Option.some.inj hu).symm.trans h.1
  | read | protect | forget => cases hu
  | endResume | resumed | tick | groupSize | updateGroups => cases h

/-- Work that a thread does for itself keeps no other thread busy. -/
theorem Activation.BelongsTo.eq_of_thread? {a : Activation} {t u : ThreadId} (h : a.BelongsTo t)
    (hu : a.thread? = some u) : u = t := by
  cases a with
  | endCall v => exact (Option.some.inj hu).symm.trans h.1
  | interpret | concat | startedNative | print | read | protect | forget => cases hu
  | endResume | resumed | tick | groupSize | updateGroups => cases h

namespace ActiveChain

variable {root t u v : ThreadId} {ts : List ThreadId} {a : Activation} {acts : List Activation}

/-- The threads of the chain are those that the work keeps busy. -/
theorem mem_iff (h : ActiveChain root ts acts) : u ∈ ts ↔ (acts.any fun a => a.thread? == some u) = true := by
  induction h with
  | resume | call =>
    rw [List.mem_singleton, List.any_cons, List.any_nil, Bool.or_false, beq_iff_eq]
    exact ⟨fun heq => congrArg some heq.symm, fun hbusy => (Option.some.inj hbusy).symm⟩
  | @work a t ts acts ha h ih =>
    rw [List.any_cons, Bool.or_eq_true, ← ih, beq_iff_eq]
    refine ⟨Or.inr, fun hbusy => hbusy.elim (fun hthread => ?_) id⟩
    rw [ha.eq_of_thread? hthread]
    exact List.mem_cons_self
  | nested h ih =>
    rw [List.mem_cons, ih, List.any_cons, List.any_cons, Bool.or_eq_true, beq_iff_eq]
    exact or_congr ⟨fun heq => congrArg some heq.symm, fun hbusy => (Option.some.inj hbusy).symm⟩ Iff.rfl

/-- The host resumed or called the outermost thread. -/
theorem getLast?_eq (h : ActiveChain root ts acts) : ts.getLast? = some root := by
  induction h with
  | resume | call => rfl
  | work _ _ ih => exact ih
  | nested _ ih =>
    rw [List.getLast?_cons_cons]
    exact ih

/-- A thread of the chain was resumed by the one after it, whose work waits under the end of the resume. -/
theorem exists_infix (h : ActiveChain root ts acts) {i : Nat} (hu : ts[i]? = some u) (hv : ts[i + 1]? = some v) :
    ∃ floor held wrapped, [.endResume u floor held, .resumed v .running wrapped u] <:+: acts := by
  induction h generalizing i with
  | resume | call => simp at hv
  | work ha h ih =>
    obtain ⟨floor, held, wrapped, hinfix⟩ := ih hu hv
    exact ⟨floor, held, wrapped, hinfix.trans (List.suffix_cons _ _).isInfix⟩
  | @nested t u' ts floor held wrapped acts h ih =>
    cases i with
    | zero =>
      cases hu
      cases hv
      exact ⟨floor, held, wrapped, (List.prefix_append [_, _] acts).isInfix⟩
    | succ i =>
      obtain ⟨floor', held', wrapped', hinfix⟩ := ih hu hv
      exact ⟨floor', held', wrapped', hinfix.trans (List.suffix_append [_, _] acts).isInfix⟩

/-- Of a chain the innermost work is done for its innermost thread. -/
theorem eq_of_serves? (h : ActiveChain root (t :: ts) (a :: acts)) (hu : u ∈ a.serves?) : u = t := by
  cases h with
  | resume | nested => cases hu
  | call => exact (Option.some.inj hu).symm
  | work ha => exact ha.eq_of_serves? hu

/-- The work in progress says which threads are in the chain. -/
theorem unique {us : List ThreadId} (h : ActiveChain root ts acts) (h' : ActiveChain root us acts) : ts = us := by
  induction h generalizing us with
  | resume => cases h' with
    | resume => rfl
    | work ha => cases ha
  | call => cases h' with
    | call => rfl
    | work ha => cases ha.2
  | work ha h ih => cases h' with
    | resume | nested => cases ha
    | call => cases ha.2
    | work _ h' => exact ih h'
  | nested h ih => cases h' with
    | work ha => cases ha
    | nested h' => rw [ih h']

end ActiveChain

namespace Machine

variable {m m' : Machine} {root t u : ThreadId} {ts : List ThreadId} {a : Activation} {acts : List Activation}
  {s : Signal}

/-- The thread `t` is at work. The threads `ts` wait for it, and no other one is active. -/
structure AtWork (m : Machine) (root t : ThreadId) (ts : List ThreadId) : Prop where
  chain : ActiveChain root (t :: ts) m.stack
  nodup : (t :: ts).Nodup
  running : (m.thread t).status = .running
  waiting : ∀ u ∈ ts, (m.thread u).status = .normal
  others : ∀ u, u ∉ t :: ts → (m.thread u).status.isActive = false

/-- The active threads of a machine form a chain: one is at work, control is on its way back to one from another that it
resumed, or nothing is left to do. -/
inductive Linked (m : Machine) (root : ThreadId) (s : Signal) : Prop
  | working {t : ThreadId} {ts : List ThreadId} (h : m.AtWork root t ts) (hs : ∀ u ∈ s.serves?, u = t)
  | back {t target : ThreadId} {ts : List ThreadId} {wrapped : Bool} {acts : List Activation}
      (hstack : m.stack = .resumed t .running wrapped target :: acts) (hchain : ActiveChain root (t :: ts) acts)
      (hnodup : (t :: ts).Nodup) (hactive : (m.thread t).status.isActive = true)
      (hwaiting : ∀ u ∈ ts, (m.thread u).status = .normal)
      (hothers : ∀ u, u ∉ t :: ts → (m.thread u).status.isActive = false) (hs : s.serves? = none)
  | done (hstack : m.stack = []) (hidle : ∀ u, (m.thread u).status.isActive = false) (hs : s.serves? = none)

theorem Linked.steady (h : m.Linked root s) (hsteady : m.Steady m') : m'.Linked root s := by
  have hnormal {ts : List ThreadId} (hwaiting : ∀ u ∈ ts, (m.thread u).status = .normal) (u : ThreadId)
      (hu : u ∈ ts) : (m'.thread u).status = .normal := by
    have hstatus := hwaiting u hu
    rw [hsteady.active u (by rw [hstatus]; rfl), hstatus]
  cases h with
  | working h hs =>
    refine .working ⟨by rw [hsteady.stack]; exact h.chain, h.nodup, ?_, hnormal h.waiting, fun u hu =>
      hsteady.idle u (h.others u hu)⟩ hs
    rw [hsteady.active _ (by rw [h.running]; rfl), h.running]
  | back hstack hchain hnodup hactive hwaiting hothers hs =>
    refine .back (hsteady.stack.trans hstack) hchain hnodup ?_ (hnormal hwaiting) (fun u hu =>
      hsteady.idle u (hothers u hu)) hs
    rw [hsteady.active _ hactive, hactive]
  | done hstack hidle hs => exact .done (hsteady.stack.trans hstack) (fun u => hsteady.idle u (hidle u)) hs

namespace AtWork

theorem linked (h : m.AtWork root t ts) (hs : s.serves? = none) : m.Linked root s :=
  .working h fun u hu => absurd (hs ▸ hu) (Option.not_mem_none u)

theorem steady (h : m.AtWork root t ts) (hsteady : m.Steady m') : m'.AtWork root t ts := by
  refine ⟨by rw [hsteady.stack]; exact h.chain, h.nodup, ?_, fun u hu => ?_, fun u hu =>
    hsteady.idle u (h.others u hu)⟩
  · rw [hsteady.active t (by rw [h.running]; rfl), h.running]
  · have hstatus := h.waiting u hu
    rw [hsteady.active u (by rw [hstatus]; rfl), hstatus]

/-- The thread at work begins more work for itself. -/
theorem push (h : m.AtWork root t ts) (ha : a.BelongsTo t) : (m.push a).AtWork root t ts :=
  ⟨.work ha h.chain, h.nodup, h.running, h.waiting, h.others⟩

/-- The thread at work is done with work for itself. -/
theorem pop (h : m.AtWork root t ts) (hstack : m.stack = a :: acts) (ha : a.BelongsTo t) :
    ({ m with stack := acts } : Machine).AtWork root t ts := by
  have hchain := h.chain
  rw [hstack] at hchain
  cases hchain with
  | resume | nested => cases ha
  | call => cases ha.2
  | work _ hchain => exact ⟨hchain, h.nodup, h.running, h.waiting, h.others⟩

theorem isBusy_iff (h : m.AtWork root t ts) : m.isBusy u = true ↔ u ∈ t :: ts := by
  rw [h.chain.mem_iff, isBusy]

/-- An interpreter begins to run the thread at work. -/
theorem interpret (h : m.AtWork root t ts) (floor : Nat) (limit : Option Nat) :
    (m.push (.interpret ⟨t, floor, limit, .entering⟩)).Linked root .go :=
  (h.push (a := .interpret ⟨t, floor, limit, .entering⟩) rfl).linked rfl

end AtWork

section Beginnings

/-- A call begins that has put its end on the stack. -/
theorem linked_beginCall (ts : List ThreadId) (hleft : ∀ e, m.Linked root (.error e))
    (hcalled : ∀ floor held, ((m.modifyThread t fun th => { th with
        status := if !(m.thread t).status.isActive then .running else th.status
        instructions := if !(m.thread t).status.isActive then 0 else th.instructions
        nativeDepth := th.nativeDepth + 1 }).push (.endCall t floor
          (if !(m.thread t).status.isActive then some (m.thread t).status else none) held)).AtWork root t ts)
    (f : Value) (args held : Values) : (m.beginCall t f args held).1.Linked root (m.beginCall t f args held).2 := by
  unfold beginCall
  extract_lets th idle previous begun floor pushed
  split
  · exact hleft _
  · split
    · exact hleft _
    · rename_i callee args' _
      cases callee with
      | native id => exact .working (hcalled none _) fun u hu => (Option.some.inj hu).symm
      | closure id =>
        have hpushed := (hcalled (some floor) (f :: held)).steady (pushed.steady_pushFrame t id args' .host)
        have hsignal := serves?_pushFrame pushed t id args' .host
        dsimp only
        split
        · rename_i heq
          rw [heq] at hpushed
          exact hpushed.interpret floor none
        · exact hpushed.linked hsignal

theorem linked_beginStart (h : m.AtWork root t ts) (limit : Option Nat) (f : Value) (args : Values) :
    (m.beginStart t limit f args).1.Linked root (m.beginStart t limit f args).2 := by
  unfold beginStart
  split
  · exact h.linked rfl
  · rename_i id args' _
    have hpushed := h.steady (m.steady_pushFrame t id args' .host)
    have hsignal := serves?_pushFrame m t id args' .host
    split
    · rename_i heq
      rw [heq] at hpushed
      exact hpushed.interpret 0 limit
    · exact hpushed.linked hsignal
  · exact .working (h.push (a := .startedNative t _) rfl) fun u hu => (Option.some.inj hu).symm

theorem linked_beginResumed (h : ∀ floor held, (m.push (.endResume t floor held)).AtWork root t ts) (floor : Nat)
    (limit : Option Nat) (args : Values) :
    (m.beginResumed t floor limit args).1.Linked root (m.beginResumed t floor limit args).2 := by
  unfold beginResumed
  dsimp only
  split
  · exact linked_beginStart ((h floor []).steady (.modifyThread _ t (by intro; exact ⟨rfl, rfl⟩))) limit _ _
  · split
    · exact ((h floor []).steady (.modifyThread _ t (by intro; exact ⟨rfl, rfl⟩))).linked rfl
    · split
      · exact (h floor []).linked rfl
      · split
        · exact (h floor args).interpret 0 limit
        · have hcompleted := (h floor []).steady (steady_completePending _ t args 0)
          have hsignal := serves?_completePending (m.push (.endResume t floor [])) t args 0
          split
          · rename_i heq
            rw [heq] at hcompleted
            exact hcompleted.interpret 0 limit
          · exact hcompleted.linked hsignal

/-- A resume is slept through or refused, or begins with its end on the stack. -/
theorem linked_beginResume (ts : List ThreadId) (hleft : ∀ s : Signal, s.serves? = none → m.Linked root s)
    (hopens : (m.thread t).status.isActive = false → (m.thread t).status.isResumable = true → ∀ floor held,
      ((m.modifyThread t fun th => { th with status := .running, instructions := 0 }).push
        (.endResume t floor held)).AtWork root t ts)
    (budget : Option Nat) (args : Values) :
    (m.beginResume t budget args).1.Linked root (m.beginResume t budget args).2 := by
  unfold beginResume
  dsimp only
  split
  · exact (hleft .sleeping rfl).steady (.modifyThread m t (by intro; exact ⟨rfl, rfl⟩))
  · split
    · exact hleft _ rfl
    · rename_i hidle
      split
      · exact hleft _ rfl
      · rename_i hresumable
        rw [Bool.not_eq_true', Bool.not_eq_false] at hresumable
        exact linked_beginResumed (hopens (Bool.eq_false_iff.mpr hidle) hresumable) _ _ args

/-- A thread that can be resumed is there, so that it runs from then on. -/
theorem running_of_isResumable (ht : (m.thread t).status.isResumable = true) :
    ((m.modifyThread t fun th => { th with status := .running, instructions := 0 }).thread t).status = .running := by
  rw [thread_modifyThread (index_lt_of_status fun hdead => ?_)]
  rw [hdead] at ht
  cases ht

/-- The host resumes a thread of a machine at rest. -/
theorem linked_resume (hstack : m.stack = []) (hidle : ∀ u, (m.thread u).status.isActive = false) (t : ThreadId)
    (budget : Option Nat) (args : Values) :
    (m.beginResume t budget args).1.Linked t (m.beginResume t budget args).2 := by
  refine linked_beginResume [] (fun s hs => .done hstack hidle hs) (fun _ ht floor held => ?_) budget args
  refine ⟨?_, by simp, running_of_isResumable ht, (fun u hu => nomatch hu), fun u hu => ?_⟩
  · rw [push, show (m.modifyThread t _).stack = [] from hstack]
    exact .resume
  · have hother := m.thread_modifyThread_of_ne (fun heq => hu (List.mem_singleton.mpr heq))
      (t := t) fun th => { th with status := .running, instructions := 0 }
    exact (congrArg (fun th => th.status.isActive) hother).trans (hidle u)

/-- The host calls a function on a thread of a machine at rest. -/
theorem linked_call (hstack : m.stack = []) (hidle : ∀ u, (m.thread u).status.isActive = false)
    (hrange : t.index < m.threads.size) (f : Value) (args held : Values) :
    (m.beginCall t f args held).1.Linked t (m.beginCall t f args held).2 := by
  refine linked_beginCall [] (fun e => .done hstack hidle rfl) (fun floor held => ?_) f args held
  rw [hidle t]
  refine ⟨?_, by simp, ?_, (fun u hu => nomatch hu), fun u hu => ?_⟩
  · rw [push, show (m.modifyThread t _).stack = [] from hstack]
    exact .call (hidle t)
  · exact congrArg Thread.status (thread_modifyThread hrange _)
  · have hother := m.thread_modifyThread_of_ne (fun heq => hu (List.mem_singleton.mpr heq)) (t := t)
    exact (congrArg (fun th => th.status.isActive) (hother _)).trans (hidle u)

end Beginnings

namespace AtWork

theorem beginCall (h : m.AtWork root t ts) (f : Value) (args held : Values) :
    (m.beginCall t f args held).1.Linked root (m.beginCall t f args held).2 := by
  refine linked_beginCall ts (fun e => h.linked rfl) (fun floor held => ?_) f args held
  rw [h.running]
  exact (h.steady (.modifyThread m t (by intro; exact ⟨rfl, rfl⟩))).push ⟨rfl, rfl⟩

theorem callHandler (h : m.AtWork root t ts) (handler : Handler) (held : Values) :
    (m.callHandler t handler held).1.Linked root (m.callHandler t handler held).2 :=
  (h.push (a := .read handler.reading) trivial).beginCall _ _ _

theorem attempt (h : m.AtWork root t ts) (a : Attempt) (held : Values) :
    (m.attempt t a held).1.Linked root (m.attempt t a held).2 := by
  cases a with
  | done | fail => exact h.linked rfl
  | handler handler => exact h.callHandler handler held

theorem continueJoin (h : m.AtWork root t ts) (reversed held : Values) :
    (m.continueJoin t reversed held).1.Linked root (m.continueJoin t reversed held).2 := by
  unfold Machine.continueJoin
  split
  · exact h.linked rfl
  · exact h.linked rfl
  · exact (h.push (a := .concat t _ held) rfl).callHandler _ _

theorem continuePrint (h : m.AtWork root t ts) (args : Values) (shown : List String) (rest : Values) :
    (m.continuePrint t args shown rest).1.Linked root (m.continuePrint t args shown rest).2 := by
  induction rest generalizing shown with
  | nil => exact (h.linked (s := .values []) rfl).steady (.of_eq rfl rfl rfl)
  | cons v rest ih =>
    unfold Machine.continuePrint
    split
    · exact (h.push (a := .print t shown args) rfl).callHandler _ _
    · exact h.linked rfl
    · exact ih _

/-- The thread at work gives way to another one, and waits. -/
theorem status_givenWay (h : m.AtWork root t ts) :
    (∀ u ∈ t :: ts, ((m.setStatus t .normal).thread u).status = .normal) ∧
      ∀ u, u ∉ t :: ts → ((m.setStatus t .normal).thread u).status.isActive = false := by
  have hrange : t.index < m.threads.size := index_lt_of_status (by rw [h.running]; exact nofun)
  have hothers (u : ThreadId) (hu : u ≠ t) : (m.setStatus t .normal).thread u = m.thread u :=
    m.thread_modifyThread_of_ne hu _
  refine ⟨fun u hu => ?_, fun u hu => ?_⟩
  · obtain rfl | hu := List.mem_cons.mp hu
    · exact status_setStatus hrange .normal
    · rw [hothers u fun heq => (List.nodup_cons.mp h.nodup).1 (heq ▸ hu)]
      exact h.waiting u hu
  · rw [hothers u fun heq => hu (heq ▸ List.mem_cons_self)]
    exact h.others u hu

/-- A thread that another one resumes is at work, and that one waits for it. -/
theorem of_resumed {target : ThreadId} {wrapped : Bool} {floor : Nat} {held : Values}
    (hstack : m.stack = .resumed t .running wrapped target :: acts) (hchain : ActiveChain root (t :: ts) acts)
    (hnodup : (t :: ts).Nodup) (hwaiting : ∀ u ∈ t :: ts, (m.thread u).status = .normal)
    (hothers : ∀ u, u ∉ t :: ts → (m.thread u).status.isActive = false) (hnew : target ∉ t :: ts)
    (hresumable : (m.thread target).status.isResumable = true) :
    ((m.modifyThread target fun th => { th with status := .running, instructions := 0 }).push
      (.endResume target floor held)).AtWork root target (t :: ts) := by
  have hsame (u : ThreadId) (hu : u ≠ target) :=
    m.thread_modifyThread_of_ne hu fun th => { th with status := .running, instructions := 0 }
  refine ⟨?_, List.nodup_cons.mpr ⟨hnew, hnodup⟩, running_of_isResumable hresumable, fun u hu => ?_, fun u hu => ?_⟩
  · rw [Machine.push, show (m.modifyThread target _).stack = m.stack from rfl, hstack]
    exact .nested hchain
  · exact (congrArg Thread.status (hsame u fun heq => hnew (heq ▸ hu))).trans (hwaiting u hu)
  · rw [List.mem_cons, not_or] at hu
    exact (congrArg (fun th => th.status.isActive) (hsame u hu.1)).trans (hothers u hu.2)

/-- The thread at work resumes another one. -/
theorem beginResumeFrom (h : m.AtWork root t ts) (target : ThreadId) (wrapped : Bool) (args : Values) :
    (m.beginResumeFrom t target wrapped args).1.Linked root (m.beginResumeFrom t target wrapped args).2 := by
  unfold Machine.beginResumeFrom
  rw [h.running]
  dsimp only
  split
  · have hactive : (m.thread t).status.isActive = true := by rw [h.running]; rfl
    exact .back rfl h.chain h.nodup hactive h.waiting h.others rfl
  · rename_i hfree
    have hnew : target ∉ t :: ts := fun hmem => hfree (Or.inr (h.isBusy_iff.mpr hmem))
    have hstack : ((m.push (.resumed t .running wrapped target)).setStatus t .normal).stack =
      .resumed t .running wrapped target :: m.stack := rfl
    obtain ⟨hwaiting, hothers⟩ : (∀ u ∈ t :: ts,
        (((m.push (.resumed t .running wrapped target)).setStatus t .normal).thread u).status = .normal) ∧ _ :=
      h.status_givenWay
    have hactive : (((m.push (.resumed t .running wrapped target)).setStatus t .normal).thread t).status.isActive =
        true := by
      rw [hwaiting t List.mem_cons_self]
      rfl
    exact linked_beginResume (t :: ts)
      (fun s hs => .back hstack h.chain h.nodup hactive (fun u hu => hwaiting u (List.mem_cons_of_mem t hu)) hothers hs)
      (fun _ hresumable floor held => of_resumed hstack h.chain h.nodup hwaiting hothers hnew hresumable) none args

end AtWork

section Groups

/-- Ending threads of a group that are not busy ends no active one. -/
theorem AtWork.destroyGroup (h : m.AtWork root t ts) (g : GroupId) : (m.destroyGroup g).AtWork root t ts := by
  have hended (threads : List ThreadId) {m : Machine} (h : m.AtWork root t ts) :
      (threads.foldl (fun m u => if m.isBusy u then m else m.destroyThread u) m).AtWork root t ts := by
    refine List.foldlRecOn (motive := fun m : Machine => m.AtWork root t ts) _ _ h fun m h u _ => ?_
    split
    · exact h
    · rename_i hfree
      exact h.steady (steady_destroyThread (h.others u fun hu => hfree (h.isBusy_iff.mpr hu)))
  exact hended _ (h.steady (.of_eq rfl rfl rfl))

theorem AtWork.addToGroup (h : m.AtWork root t ts) (g : GroupId) (u : ThreadId) :
    (m.addToGroup g u).AtWork root t ts := by
  unfold Machine.addToGroup
  split
  · split
    · exact h
    · rename_i hfree
      exact h.steady (steady_destroyThread (h.others u fun hu => hfree (h.isBusy_iff.mpr hu)))
  · exact h.steady (.of_eq rfl rfl rfl)

end Groups

end Machine

end LuaMachine
