import LuaMachine.Proofs.Machine.FrameLimit

namespace LuaMachine.Machine

variable {m m' n n' : Machine} {t u : ThreadId} {limit : Option Nat} {s : Signal} {i : Interpreter} {w : Window}

/-- The machines have the same heap, registers, groups and printed lines. They differ at most in the frames and the
status of the thread `t`, in how many instructions their threads have counted, and in where captured variables are
kept. -/
structure SameEffects (t : ThreadId) (m n : Machine) : Prop where
  rest : n = { m with threads := n.threads, cells := n.cells }
  size : n.threads.size = m.threads.size
  threads : ∀ u, u ≠ t → (n.thread u).bare = (m.thread u).bare
  cells : ∀ id, n.cellValue id = m.cellValue id

namespace SameEffects

theorem refl (m : Machine) : SameEffects t m m := ⟨rfl, rfl, fun _ _ => rfl, fun _ => rfl⟩

theorem symm (h : SameEffects t m n) : SameEffects t n m := by
  refine ⟨?_, h.size.symm, fun u hu => (h.threads u hu).symm, fun id => (h.cells id).symm⟩
  rw [h.rest]

theorem trans (h : SameEffects t m m') (h' : SameEffects t m' n) : SameEffects t m n := by
  refine ⟨?_, h'.size.trans h.size, fun u hu => (h'.threads u hu).trans (h.threads u hu),
    fun id => (h'.cells id).trans (h.cells id)⟩
  rw [h'.rest, h.rest]

/-- What a machine at rest hides of a budget. -/
theorem of_bare (h : m.bare t = n.bare t) (hstack : m.stack = n.stack) : SameEffects t m n := by
  refine ⟨?_, ?_, fun u _ => ?_, fun id => ?_⟩
  · rw [bare, bare, Machine.mk.injEq] at h
    obtain ⟨_, _, _, _, _, _, _, _, _, _, _, _, _, _, _, _, _, _, _⟩ := m
    simp_all
  · simpa [bare] using (congrArg (fun m : Machine => m.threads.size) h).symm
  · rw [← thread_bare (t := t), ← h, thread_bare]
  · rw [← cellValue_bare (t := t), ← h, cellValue_bare]

theorem modifyThread (m : Machine) (t : ThreadId) (f : Thread → Thread) : SameEffects t m (m.modifyThread t f) :=
  ⟨rfl, (m.confined_modifyThread t f).size, fun _ hu => congrArg Thread.bare (m.thread_modifyThread_of_ne hu f),
    fun _ => rfl⟩

/-- A closed variable keeps its value. -/
theorem closeCell (m : Machine) (id : CellId) : SameEffects t m (m.closeCell id) := by
  refine ⟨rfl, rfl, fun _ _ => rfl, fun other => ?_⟩
  have hcell : (m.closeCell id).cell other = m.cell other ∨
      id.index = other.index ∧ (m.closeCell id).cell other = .closed (m.cellValue id) := by
    rw [Machine.closeCell, setCell, cell, Array.getElem?_setIfInBounds]
    split
    · rename_i hindex
      split
      · exact Or.inr ⟨hindex, rfl⟩
      · rename_i hsize
        rw [cell, Array.getElem?_eq_none (by rw [← hindex]; exact Nat.le_of_not_lt hsize)]
        exact Or.inl rfl
    · exact Or.inl rfl
  obtain hsame | ⟨hindex, hclosed⟩ := hcell
  · rw [cellValue, hsame]
    rfl
  · rw [cellValue, hclosed]
    show m.cellValue id = _
    rw [cellValue, cellValue, cell, hindex]
    rfl

theorem closeCells (m : Machine) (start : Nat) (ids : List CellId) : SameEffects t m (m.closeCells start ids).1 := by
  induction ids generalizing m with
  | nil => exact refl m
  | cons id rest ih =>
    rw [Machine.closeCells]
    split
    · exact ih m
    · split
      · exact (closeCell m id).trans (ih _)
      · exact ih m

theorem popFrame (m : Machine) (t : ThreadId) (top : Frame) : SameEffects t m (m.popFrame t top) :=
  (closeCells m 0 top.openCells).trans (modifyThread _ t _)

theorem unwind (m : Machine) (t : ThreadId) (depth : Nat) : SameEffects t m (m.unwind t depth) := by
  have hframes (fuel : Nat) (m : Machine) : SameEffects t m (m.unwindFrames t depth fuel) := by
    induction fuel generalizing m with
    | zero => exact refl m
    | succ fuel ih =>
      rw [unwindFrames]
      split
      · exact refl m
      · split
        · exact modifyThread m t _
        · exact (popFrame m t _).trans (ih _)
  exact hframes _ m

end SameEffects

/-- Nobody runs the thread `t`, and a host may resume it. -/
structure Rested (m : Machine) (t : ThreadId) : Prop where
  rest : m.AtRest .host
  fuse : m.limits.fuse = none
  library : ∀ n ∈ m.natives, n.body.IsLibrary
  range : t.index < m.threads.size

/-- The thread can be resumed on two machines that hide the same. -/
structure Paired (m n : Machine) (t : ThreadId) : Prop where
  left : m.Rested t
  right : n.Rested t
  bare : m.bare t = n.bare t
  takes : (m.thread t).Takes

/-- Both machines work on a resume of the thread, which has a limit on the first one. -/
structure Abreast (m n : Machine) (t : ThreadId) (limit : Option Nat) (s : Signal) : Prop where
  left : m.InResume t limit s
  right : n.InResume t none s
  bare : m.bare t = n.bare t

theorem InResume.isWorking (h : m.InResume t limit s) : m.isWorking s = true := by
  have hsome : m.stack.isEmpty = false := by
    obtain ⟨a, ha, -⟩ := List.any_eq_true.mp h.busy
    exact List.isEmpty_eq_false_iff.mpr (List.ne_nil_of_mem ha)
  cases s with
  | invoke => rfl
  | _ => exact congrArg (!·) hsome

/-- A native function is never called at the end of a resume. -/
theorem InResume.ne_invoke {floor : Nat} {held : Values} {acts : List Activation} (h : m.InResume t limit s)
    (hstack : m.stack = .endResume t floor held :: acts) (u : ThreadId) (id : NativeId) (args : Values) :
    s ≠ .invoke u id args := by
  rintro rfl
  cases h.sound with
  | atRest _ _ _ hs => cases hs
  | back _ _ _ hs => cases hs
  | @working v own below ts hown hsetting hstatus hready =>
    rw [outline_stack, hstack] at hown
    cases hready with
    | pause hs => obtain hnot | ⟨vs, hnot⟩ := hs <;> cases hnot
    | invoke hunder htakes =>
      obtain ⟨a, rest, rfl⟩ := List.exists_cons_of_ne_nil (Segment.ne_nil hunder)
      obtain ⟨rfl, -⟩ := List.cons.inj hown
      obtain ⟨-, -, -, -, hnative, -⟩ := Segment.of_endResume hunder
      exact htakes hnative

/-- What sleeps is never a thread that runs. -/
theorem InResume.ne_sleeping {floor : Nat} {held : Values} {acts : List Activation} (h : m.InResume t limit s)
    (hstack : m.stack = .endResume t floor held :: acts) : s ≠ .sleeping := by
  rintro rfl
  cases h.sound with
  | atRest _ hnil =>
    rw [outline_stack, hstack] at hnil
    cases hnil
  | back hback =>
    rw [outline_stack, hstack] at hback
    cases hback
  | working _ _ _ hready =>
    cases hready with
    | pause hs => obtain hnot | ⟨vs, hnot⟩ := hs <;> cases hnot

namespace Abreast

/-- Without a limit, none is met. -/
theorem right_ne_frameLimit (h : Abreast m n t limit s)
    (hworks : ∀ floor held acts, n.stack ≠ .endResume t floor held :: acts) : (n.step s).2 ≠ .frameLimit := by
  intro hmeets
  obtain ⟨_, _, -, -, -, hlimit⟩ := h.right.of_frameLimit hworks hmeets
  exact hlimit rfl

/-- The machines have work of the same kind. -/
theorem stack_eq (h : Abreast m n t limit s) : m.stack.map (Activation.bare t) = n.stack.map (Activation.bare t) :=
  congrArg Machine.stack h.bare

/-- The resumes come to their ends together. -/
theorem exists_endResume (h : Abreast m n t limit s) {floor : Nat} {held : Values} {acts : List Activation}
    (hstack : m.stack = .endResume t floor held :: acts) :
    m.stack = [.endResume t floor held] ∧ ∃ floor' held', n.stack = [.endResume t floor' held'] := by
  obtain ⟨rfl, -⟩ := h.left.of_endResume hstack
  have hstacks := h.stack_eq
  rw [hstack] at hstacks
  obtain ⟨b, acts', hstack', hb, hacts⟩ := List.map_eq_cons_iff.mp hstacks.symm
  obtain rfl := List.map_eq_nil_iff.mp hacts
  refine ⟨hstack, ?_⟩
  obtain ⟨i, limit, hi, -⟩ | ⟨_, _, floor', _, held', hends, rfl, -⟩ | rfl := bare_eq_cases hb.symm
  · cases hi
  · cases hends
    exact ⟨floor', held', hstack'⟩
  · exact ⟨floor, held, hstack'⟩

theorem works (h : Abreast m n t limit s) (hworks : ∀ floor held acts, m.stack ≠ .endResume t floor held :: acts) :
    ∀ floor held acts, n.stack ≠ .endResume t floor held :: acts := by
  intro floor held acts hstack
  have hstacks := h.stack_eq
  rw [hstack] at hstacks
  obtain ⟨a, acts', hstack', ha, -⟩ := List.map_eq_cons_iff.mp hstacks
  obtain ⟨i, limit, hi, hends⟩ | ⟨_, floor', _, held', _, rfl, hends, -⟩ | rfl := bare_eq_cases ha
  · cases hends
  · cases hends
    exact hworks _ _ _ hstack'
  · exact hworks _ _ _ hstack'

/-- A step in which the limit is not met. -/
theorem step (h : Abreast m n t limit s) (hworks : ∀ floor held acts, m.stack ≠ .endResume t floor held :: acts)
    (hm : (m.step s).2 ≠ .frameLimit) :
    (n.step s).2 = (m.step s).2 ∧ Abreast (m.step s).1 (n.step s).1 t limit (m.step s).2 := by
  have hworks' := h.works hworks
  have hn := h.right_ne_frameLimit hworks'
  have hstepped : bareOf t (m.step s) = bareOf t (n.step s) := by
    by_cases hinvoke : ∃ u id args, s = .invoke u id args
    · obtain ⟨u, id, args, rfl⟩ := hinvoke
      exact bareOf_invoke u args h.bare (h.left.isLibrary u id args rfl)
    · refine bareOf_step h.bare h.left.fuse h.left.isLibrary (fun a acts hstack => ?_) hworks hm hn
      exact isSingle_of_sound h.left.sound (fun u id args hs => hinvoke ⟨u, id, args, hs⟩) hstack
  obtain ⟨hbare, hsignal⟩ := Prod.mk.inj hstepped
  refine ⟨hsignal.symm, h.left.step hworks hm, ?_, hbare⟩
  rw [hsignal]
  exact h.right.step hworks' hn

end Abreast

section Ends

/-- Where a resume began matters only for a raised error. -/
theorem stepEndResume_floor (m : Machine) (floor floor' : Nat) (hs : ∀ e, s ≠ .error (.raised e)) :
    m.stepEndResume t floor s = m.stepEndResume t floor' s := by
  cases s with
  | error e =>
    cases e with
    | raised e => exact absurd rfl (hs e)
    | _ => rfl
  | _ => rfl

theorem SameEffects.setStatus (m : Machine) (t : ThreadId) (status : Status) : SameEffects t m (m.setStatus t status) :=
  .modifyThread m t _

/-- The end of a resume passes on what it takes. -/
theorem eq_of_stepEndResume {floor : Nat} (h : ∀ e, (m.stepEndResume t floor s).2 ≠ .error e) :
    (m.stepEndResume t floor s).2 = s := by
  cases s with
  | error e => cases e <;> exact absurd rfl (h _)
  | _ => rfl

theorem bareOf_stepEndResume (h : m.bare t = n.bare t) (floor floor' : Nat) (hs : ∀ e, s ≠ .error (.raised e)) :
    bareOf t (m.stepEndResume t floor s) = bareOf t (n.stepEndResume t floor' s) := by
  rw [stepEndResume_floor m floor floor' hs]
  exact bareOf_congr (f := fun m => m.stepEndResume t floor' s) (fun _ => stepEndResume_bare t floor' s) h

/-- What the ends of two resumes leave. -/
theorem sameEffects_stepEndResume (h : m.bare t = n.bare t) (hstack : m.stack = n.stack) (floor floor' : Nat)
    (s : Signal) :
    (m.stepEndResume t floor s).2 = (n.stepEndResume t floor' s).2 ∧
      SameEffects t (m.stepEndResume t floor s).1 (n.stepEndResume t floor' s).1 := by
  by_cases hs : ∃ e, s = .error (.raised e)
  · obtain ⟨e, rfl⟩ := hs
    have hsame := SameEffects.of_bare h hstack
    refine ⟨rfl, ((SameEffects.unwind m t floor).trans (.setStatus _ t _)).symm.trans (hsame.trans ?_)⟩
    exact (SameEffects.unwind n t floor').trans (.setStatus _ t _)
  · obtain ⟨hbare, hsignal⟩ := Prod.mk.inj (bareOf_stepEndResume h floor floor' fun e he => hs ⟨e, he⟩)
    refine ⟨hsignal, .of_bare hbare ?_⟩
    rw [(confined_stepEndResume m t floor s).stack, hstack, (confined_stepEndResume n t floor' s).stack]

/-- The resumes have ended alike: with the same outcome and the same effects. After a yield, or if the thread sleeps,
they can be followed by others. -/
structure EndsAlike (t : ThreadId) (r r' : Machine × Signal) : Prop where
  signal : r.2 = r'.2
  effects : SameEffects t r.1 r'.1
  goesOn : (r.2 = .sleeping ∨ ∃ vs, r.2 = .yielded vs) → Paired r.1 r'.1 t

/-- The end of a resume is its last step, and leaves the machine at rest. -/
theorem InResume.ends (h : m.InResume t limit s) {floor : Nat} {held : Values}
    (hstack : m.stack = [.endResume t floor held]) :
    m.step s = ({ m with inUse := [], stack := [] } : Machine).stepEndResume t floor s ∧
      (m.step s).2.IsOutcome .host ∧ (m.step s).1.Rested t := by
  have hstep : m.step s = ({ m with inUse := [], stack := [] } : Machine).stepEndResume t floor s :=
    step_cons hstack (h.ne_invoke hstack)
  have hconfined := confined_stepEndResume { m with inUse := [], stack := [] } t floor s
  rw [← hstep] at hconfined
  obtain ⟨hrest, houtcome⟩ := atRest_of_sound .host (step_sound .host h.sound) hconfined.stack
  refine ⟨hstep, houtcome, hrest, ?_, fun n hn => h.library n (hconfined.natives ▸ hn),
    Nat.lt_of_lt_of_eq h.range hconfined.size.symm⟩
  obtain hsame | ⟨u, id, args, rfl, -⟩ := pace_step h.sound h.range h.busy h.isLibrary
  · rw [← h.fuse]
    exact congrArg (·.1.fuse) hsame
  · exact absurd rfl (h.ne_invoke hstack u id args)

/-- Resumes that come to their ends together end alike. -/
theorem Abreast.ends (h : Abreast m n t limit s) {floor : Nat} {held : Values} {acts : List Activation}
    (hstack : m.stack = .endResume t floor held :: acts) :
    (m.step s).1.isWorking (m.step s).2 = false ∧ (n.step s).1.isWorking (n.step s).2 = false ∧
      (m.step s).2 ≠ .frameLimit ∧ EndsAlike t (m.step s) (n.step s) := by
  obtain ⟨hstack, floor', held', hstack'⟩ := h.exists_endResume hstack
  obtain ⟨hstep, houtcome, hrested⟩ := h.left.ends hstack
  obtain ⟨hstep', houtcome', hrested'⟩ := h.right.ends hstack'
  have hpopped : ({ m with inUse := [], stack := [] } : Machine).bare t =
      ({ n with inUse := [], stack := [] } : Machine).bare t := by
    rw [bare_withStack, bare_withStack, h.bare]
  have hended := sameEffects_stepEndResume hpopped rfl floor floor' s
  rw [← hstep, ← hstep'] at hended
  have hdone {m : Machine} {s : Signal} (hrested : m.Rested t) (houtcome : s.IsOutcome .host) :
      m.isWorking s = false := by
    cases s with
    | invoke => cases houtcome
    | _ => exact congrArg (fun acts : List Activation => !acts.isEmpty) hrested.rest.stack
  have hpassed (hs : ∀ e, (m.step s).2 ≠ .error e) : (m.step s).2 = s := by
    rw [hstep] at hs ⊢
    exact eq_of_stepEndResume hs
  refine ⟨hdone hrested houtcome, hdone hrested' houtcome', ?_, hended.1, hended.2, ?_⟩
  · intro hs
    rw [hpassed (by rw [hs]; rintro _ ⟨⟩)] at hs
    exact h.left.unstopped hs
  · rintro (hs | ⟨vs, hs⟩) <;> rw [hpassed (by rw [hs]; rintro _ ⟨⟩)] at hs
    · exact absurd hs (h.left.ne_sleeping hstack)
    subst hs
    refine ⟨hrested, hrested', ?_, ?_⟩
    · rw [hstep, hstep']
      exact congrArg Prod.fst (bareOf_stepEndResume hpopped floor floor' (by rintro _ ⟨⟩))
    · have hframes : ((m.step (.yielded vs)).1.thread t).frames = (m.thread t).frames := by
        rw [hstep]
        exact frames_modifyThread (fun _ => rfl)
      exact (h.left.takes vs floor held [] rfl hstack).of_frames_eq hframes

end Ends

section Halts

/-- A resume of `t` that met its limit left `m` behind, whose next resume goes on as `n`, which has no limit, does. It
makes a frame at once, or ends in an error. -/
structure Halted (t : ThreadId) (m n : Machine) : Prop where
  working : n.isWorking .go = true
  goesOn : ∀ budget args, Values.objects args = [] → ∃ m' limit, m.beginResume t budget args = (m', .go) ∧
    m'.isWorking .go = true ∧ (n.step .go).2 = (m'.step .go).2 ∧
    Abreast (m'.step .go).1 (n.step .go).1 t limit (m'.step .go).2 ∧
    ((m'.step .go).2 = .go ∧ ((m'.step .go).1.thread t).depth = (m.thread t).depth + 1 ∨
      (∃ e, (m'.step .go).2 = .error e) ∧ ∃ floor held, (m'.step .go).1.stack = [.endResume t floor held])

/-- An interpreter of a resume without a limit has none. -/
theorem InResume.limit_of_foremost (h : n.InResume t none .go) (hforemost : n.Foremost t i w) : i.limit = none := by
  obtain ⟨floor, held, -, hreads⟩ := hforemost.reads
  obtain ⟨c, hc, hnests⟩ := h.exists_nests (by rw [hreads.stack]; rintro _ _ _ ⟨⟩)
  have hstage (w' : Window) (sequel : Sequel) : i.stage ≠ .waiting w' sequel := by
    rcases hreads.stage with hstage | ⟨hstage, -⟩ <;> rw [hstage] <;> rintro ⟨⟩
  obtain ⟨f, rest, fs, hruns, -⟩ := hnests.runsAbove_of_go hreads.stack (hc.ne_bottom hreads.stack)
    (hforemost.thread.trans hc.thread.symm) hstage
  obtain hnone | hlimit := hruns.limit
  · exact hnone
  · exact hlimit.trans hc.limit

/-- A budget allows one frame more at least. -/
theorem frameLimit_any (depth : Nat) (budget : Option Nat) : (frameLimit depth budget).any (· ≤ depth) = false := by
  cases budget with
  | none => rfl
  | some n =>
    show decide (depth + max n 1 ≤ depth) = false
    rw [decide_eq_false_iff_not]
    omega

/-- A resume that meets its limit ends at once, and another one goes on from there. -/
theorem Abreast.halts (h : Abreast m n t limit s)
    (hworks : ∀ floor held acts, m.stack ≠ .endResume t floor held :: acts)
    (hmeets : (m.step s).2 = .frameLimit) :
    s = .go ∧ (m.step .go).1.isWorking .frameLimit = true ∧
      ∃ m', (m.step .go).1.step .frameLimit = (m', .frameLimit) ∧ m'.isWorking .frameLimit = false ∧ Halted t m' n := by
  obtain ⟨i, w, rfl, hforemost, hstops, -⟩ := h.left.of_frameLimit hworks hmeets
  obtain ⟨-, ⟨floor, held, hends⟩, hstopped⟩ := hforemost.stops h.left.fuse hstops
  obtain ⟨limit', hforemost'⟩ := hforemost.congr h.bare
  obtain rfl : limit' = none := h.right.limit_of_foremost hforemost'
  have hsound := step_sound .host (step_sound .host h.left.sound)
  rw [hmeets, hstopped] at hsound
  obtain ⟨hrest, -⟩ := atRest_of_sound .host hsound rfl
  have hsize : (m.stopped t w).threads.size = m.threads.size := (m.confined_modifyThread t _).size
  refine ⟨rfl, ?_, m.stopped t w, hstopped, rfl, h.right.isWorking, fun budget args hplain => ?_⟩
  · show (!(m.step .go).1.stack.isEmpty) = true
    rw [hends]
    rfl
  have hbegins := hforemost.beginResume_stopped budget args
  obtain ⟨hbare, hprogress⟩ := hforemost.continues h.left.fuse hstops hforemost' h.bare
    (frameLimit_any (m.thread t).depth budget) hplain
  obtain ⟨hbare, hsignal⟩ := Prod.mk.inj hbare
  have hdepth : ((m.stopped t w).thread t).depth = (m.thread t).depth := by
    obtain ⟨f, rest, -, -, -, hthread⟩ := hforemost.thread_stopped
    rw [hthread]
  -- The machine that goes on works on a resume, and so does each machine after the next step.
  have hcontinued : (m.continued t w (frameLimit (m.thread t).depth budget) args).InResume t
      (frameLimit (m.thread t).depth budget) .go := by
    have hcases := hrest.beginResume_cases (t := t) h.left.fuse h.left.library (by rw [hsize]; exact h.left.range)
      args (Or.inr hplain) budget
    rw [hbegins, hdepth] at hcases
    obtain hsleeps | ⟨e, hrefused⟩ | hresumes := hcases
    · cases congrArg Prod.snd hsleeps
    · cases congrArg Prod.snd hrefused
    · exact hresumes
  have hgoes : ((m.continued t w (frameLimit (m.thread t).depth budget) args).step .go).2 ≠ .frameLimit := by
    obtain ⟨hgo, -⟩ | ⟨⟨e, he⟩, -⟩ := hprogress
    · rw [hgo]
      rintro ⟨⟩
    · rw [he]
      rintro ⟨⟩
  have hleft := hcontinued.step (by rintro _ _ _ ⟨⟩) hgoes
  have hright := h.right.step (h.works hworks) (by rw [← hsignal]; exact hgoes)
  rw [← hsignal] at hright
  refine ⟨_, _, hbegins, hcontinued.isWorking, hsignal.symm, ⟨hleft, hright, hbare⟩, ?_⟩
  rw [hdepth]
  exact hprogress.imp_right fun ⟨he, hstack⟩ => ⟨he, _, _, hstack⟩

end Halts

section Begins

/-- A resume that ends at once has skipped a tick of the thread, or was refused. -/
theorem Rested.beginResume_cases (h : m.Rested t) (htakes : (m.thread t).Takes) (budget : Option Nat) (args : Values) :
    (m.beginResume t budget args).1.InResume t (frameLimit (m.thread t).depth budget) (m.beginResume t budget args).2 ∨
      (m.beginResume t budget args).1.isWorking (m.beginResume t budget args).2 = false ∧
        (m.beginResume t budget args).1.stack = [] ∧
        ((m.beginResume t budget args).2 = .sleeping ∧ (m.beginResume t budget args).1.Rested t ∧
            ((m.beginResume t budget args).1.thread t).Takes ∨
          ∃ e, (m.beginResume t budget args).2 = .error e) := by
  have hsound := h.rest.resume .host h.range budget args
  have hidle : (!m.stack.isEmpty) = false := by
    rw [h.rest.stack]
    rfl
  obtain hsleeps | ⟨e, hrefused⟩ | hresumes :=
    h.rest.beginResume_cases h.fuse h.library h.range args (Or.inl htakes) budget
  · rw [hsleeps] at hsound ⊢
    have hrest := (atRest_of_sound .host hsound h.rest.stack).1
    refine Or.inr ⟨hidle, h.rest.stack, Or.inl ⟨rfl, ⟨hrest, h.fuse, h.library, ?_⟩, ?_⟩⟩
    · exact Nat.lt_of_lt_of_eq h.range (m.confined_modifyThread t _).size.symm
    · exact htakes.of_frames_eq (frames_modifyThread fun _ => rfl)
  · rw [hrefused]
    exact Or.inr ⟨hidle, h.rest.stack, Or.inr ⟨e, rfl⟩⟩
  · exact Or.inl hresumes

/-- Resumes of a thread with the same arguments end alike at once, or begin side by side. -/
theorem Paired.beginResume (h : Paired m n t) (budget : Option Nat) (args : Values) :
    (m.beginResume t budget args).2 = (n.beginResume t none args).2 ∧
      ((m.beginResume t budget args).1.isWorking (m.beginResume t budget args).2 = false ∧
          (n.beginResume t none args).1.isWorking (n.beginResume t none args).2 = false ∧
          (m.beginResume t budget args).2 ≠ .frameLimit ∧
          EndsAlike t (m.beginResume t budget args) (n.beginResume t none args) ∨
        ∃ limit, Abreast (m.beginResume t budget args).1 (n.beginResume t none args).1 t limit
          (m.beginResume t budget args).2) := by
  obtain ⟨hbare, hsignal⟩ := Prod.mk.inj (bareOf_beginResume t h.bare budget none args)
  have htakes : (n.thread t).Takes := h.takes.of_frames_eq (by rw [thread_congr t h.bare])
  have hstacks : (m.beginResume t budget args).1.stack.map (Activation.bare t) =
      (n.beginResume t none args).1.stack.map (Activation.bare t) := congrArg Machine.stack hbare
  have hbusy {m : Machine} {limit : Option Nat} {s : Signal} (h : m.InResume t limit s) : m.stack ≠ [] := by
    intro hnil
    have hworks := h.busy
    rw [isBusy, hnil] at hworks
    cases hworks
  refine ⟨hsignal, ?_⟩
  obtain hresumes | ⟨hdone, hnil, hcases⟩ := h.left.beginResume_cases h.takes budget args <;>
    obtain hresumes' | ⟨hdone', hnil', hcases'⟩ := h.right.beginResume_cases htakes none args
  · refine Or.inr ⟨_, hresumes, ?_, hbare⟩
    rw [hsignal]
    exact hresumes'
  · rw [hnil'] at hstacks
    exact absurd (List.map_eq_nil_iff.mp hstacks) (hbusy hresumes)
  · rw [hnil] at hstacks
    exact absurd (List.map_eq_nil_iff.mp hstacks.symm) (hbusy hresumes')
  · refine Or.inl ⟨hdone, hdone', ?_, hsignal, .of_bare hbare (hnil.trans hnil'.symm), fun hgoes => ?_⟩
    · obtain ⟨hs, -⟩ | ⟨e, hs⟩ := hcases <;> rw [hs] <;> rintro ⟨⟩
    · obtain ⟨hs, hrested, htakes⟩ | ⟨e, hs⟩ := hcases
      · obtain ⟨-, hrested', -⟩ | ⟨e, hs'⟩ := hcases'
        · exact ⟨hrested, hrested', hbare, htakes⟩
        · rw [← hsignal, hs] at hs'
          cases hs'
      · rw [hs] at hgoes
        obtain hs' | ⟨_, hs'⟩ := hgoes <;> cases hs'

end Begins

end LuaMachine.Machine
