import LuaMachine.Proofs.Machine.Pace

namespace LuaMachine

/-- A resume pauses, and the next one goes on from there. -/
def Signal.Pauses : Signal → Prop
  | .yielded _ => True
  | .frameLimit => True
  | _ => False

/-- The interpreter makes the resume pause. -/
def Ending.Pauses : Ending → Prop
  | .stop s => s.Pauses
  | _ => False

theorem Ending.not_pauses_ofSignal {s : Signal} (h : ¬s.Pauses) : ¬(Ending.ofSignal s).Pauses := by
  cases s with
  | go => exact id
  | invoke | values | yielded | frameLimit | sleeping | error => exact h

theorem Signal.IsResult.not_pauses {s : Signal} (h : s.IsResult) : ¬s.Pauses := by
  cases s with
  | go | values | error => exact not_false
  | invoke | yielded | frameLimit | sleeping => cases h

/-- Whatever a resume gives a thread with frames goes to a native call. -/
def Thread.Takes (th : Thread) : Prop := ∀ f ∈ th.frames.head?, f.pending ≠ none

theorem Thread.Takes.of_frames_eq {th th' : Thread} (h : th.Takes) (hframes : th'.frames = th.frames) : th'.Takes := by
  rw [Takes, hframes]
  exact h

namespace Machine

variable {m n : Machine} {t u : ThreadId}

section Calls

theorem entering_not_pauses (u : ThreadId) (limit : Option Nat) :
    Entering u limit (fun _ => True) fun _ s => ¬s.Pauses where
  hands _ hs _ := hs.not_pauses
  enters _ _ h := h
  completes _ h := h
  starts h := h
  returns h := h
  waits _ h := h
  invokes _ _ _ := not_false
  runs _ _ := not_false

/-- What a thread does for itself is no reason to pause. -/
theorem upkeep_not_pauses (u : ThreadId) : Upkeep u (fun _ => True) fun _ s => ¬s.Pauses where
  answers _ hs := hs.isResult.not_pauses
  edits _ _ _ h := h
  names _ h := h
  begins h _ := h
  calls f args held _ := (entering_not_pauses u none).beginCall (fun _ => not_false) (fun _ _ => trivial) f args held

theorem not_pauses_beginResume (m : Machine) (u : ThreadId) (budget : Option Nat) (args : Values) :
    ¬(m.beginResume u budget args).2.Pauses := by
  unfold beginResume
  dsimp only
  split
  · exact not_false
  · split
    · exact not_false
    · split
      · exact not_false
      · exact (entering_not_pauses u _).beginResumed _ (fun _ => trivial) args

theorem not_pauses_beginResumeFrom (m : Machine) (u target : ThreadId) (wrapped : Bool) (args : Values) :
    ¬(m.beginResumeFrom u target wrapped args).2.Pauses := by
  unfold beginResumeFrom
  dsimp only
  split
  · exact not_false
  · exact not_pauses_beginResume _ target none args

end Calls

section Natives

theorem CoroutineEffect.not_pauses {args : Values} {effect : Effect} (h : CoroutineEffect u args effect) (m : Machine) :
    ¬(effect m).2.Pauses := by
  cases h with
  | answer | create | wrap => exact not_false
  | resume target => exact m.not_pauses_beginResumeFrom u target false _
  | yield => exact (m.isResult_yieldNow u args).not_pauses
  | wait ticks =>
    have hyielded := (m.isResult_yieldNow u []).not_pauses
    dsimp only
    split
    · exact not_false
    · exact hyielded

theorem not_pauses_effect (m : Machine) (u : ThreadId) {body : Builtin}
    (hlibrary : body.IsLibrary ∨ body = .host .nothing) (args : Values) :
    Checked (fun effect => ∀ m, ¬(effect m).2.Pauses) (m.effect u body args) := by
  cases body with
  | base f => exact (m.checked_base u f args).imp fun _ heffect m => (upkeep_not_pauses u).baseEffect trivial heffect
  | coroutine f => exact (m.checked_coroutine u f args).imp fun _ => CoroutineEffect.not_pauses
  | wrapped target => exact fun m => m.not_pauses_beginResumeFrom u target true args
  | spawn name =>
    refine (m.checked_requireArg u args 1 _).bind fun f _ m => ?_
    exact not_false
  | host op =>
    obtain hnot | hop := hlibrary
    · cases hnot
    · cases hop
      exact fun _ => not_false
  | group =>
    obtain hnot | hop := hlibrary
    · cases hnot
    · cases hop

theorem not_pauses_invoke (m : Machine) (u : ThreadId) {id : NativeId}
    (hlibrary : (m.native id).body.IsLibrary ∨ (m.native id).body = .host .nothing) (args : Values) :
    ¬(m.invoke u id args).2.Pauses :=
  invoke_of_checked (Q := fun _ s => ¬s.Pauses)
    ((not_pauses_effect { m with inUse := args } u hlibrary args).imp fun _ h => h _) fun _ _ => not_false

end Natives

section Instructions

variable {i : Interpreter} {w : Window}

theorem not_pauses_attempted {a : Attempt} (w : Window) (r : Nat) (expected : Bool) :
    ¬(m.storeAttempt w r a).2.Pauses ∧ ¬(m.branchAttempt w expected a).2.Pauses ∧ ¬(m.assignAttempt w a).2.Pauses := by
  cases a <;> exact ⟨not_false, not_false, not_false⟩

theorem not_pauses_jump (m : Machine) (pc : Nat) (offset : Int) : ¬(m.jump pc offset).2.Pauses := by
  unfold jump
  split <;> exact not_false

theorem not_pauses_forPrep (m : Machine) (w : Window) (a : Nat) (offset : Int) :
    ¬(m.forPrep u w a offset).2.Pauses := by
  unfold forPrep
  split
  · exact not_false
  · split
    · exact not_false
    · split
      · exact not_false
      · exact not_pauses_jump _ _ _

theorem not_pauses_forLoop (m : Machine) (w : Window) (a : Nat) (offset : Int) : ¬(m.forLoop w a offset).2.Pauses := by
  unfold forLoop
  dsimp only
  split
  · split <;> exact not_false
  · exact not_false

theorem not_pauses_setList (m : Machine) (file : FileId) (top a b block pc : Nat) :
    ¬(m.setList u file top a b block pc).2.Pauses := by
  unfold setList
  dsimp only
  split <;> exact not_false

theorem not_pauses_makeClosure (m : Machine) (w : Window) (a bx : Nat) : ¬(m.makeClosure u w a bx).2.Pauses := by
  unfold makeClosure
  dsimp only
  split
  · exact not_false
  · split <;> exact not_false

theorem not_pauses_tailCallFrom (m : Machine) (i : Interpreter) (f : Value) (args : Values) :
    ¬(m.tailCallFrom i f args).2.Pauses := by
  unfold tailCallFrom
  split <;> exact not_false

/-- A call stops at a limit if it is one of a closure, which would be entered otherwise. -/
theorem callFrom_pauses {f : Value} {args : Values} {target : ReturnTarget}
    (h : (m.callFrom i w f args target).2.Pauses) :
    i.limit ≠ none ∧ m.callFrom i w f args target = (m.setPc i.thread (w.pc - 1), .stop .frameLimit) ∧
      ∃ id args', m.callee? f args [] = some (.closure id, args') := by
  unfold callFrom at h ⊢
  split at h
  · cases h
  · rename_i id args' hcallee
    split at h
    · rename_i hfull
      refine ⟨?_, if_pos hfull, id, args', hcallee⟩
      rintro hnone
      rw [hnone] at hfull
      cases hfull
    · exact absurd h (Ending.not_pauses_ofSignal (m.isResult_pushFrame _ id args' target).not_pauses)
  · cases h

/-- Of a call that stopped at a limit an interpreter that has not met its own one makes a new frame. -/
theorem callFrom_eq_pushFrame {id : ClosureId} {f : Value} {args args' : Values} (target : ReturnTarget)
    (hcallee : m.callee? f args [] = some (.closure id, args'))
    (hlimit : i.limit.any (· ≤ (m.thread i.thread).depth) = false) : m.callFrom i w f args target =
      ((m.pushFrame i.thread id args' target).1, .ofSignal (m.pushFrame i.thread id args' target).2) := by
  unfold callFrom
  rw [hcallee]
  exact if_neg (by rw [hlimit]; exact Bool.false_ne_true)

/-- An instruction that stops at the limit is to be run again, and then enters a closure on any machine that is
alike. -/
theorem perform_pauses {word : Instruction} {op : Opcode} (h : (m.perform i w word op).2.Pauses) :
    i.limit ≠ none ∧ m.perform i w word op = (m.setPc i.thread (w.pc - 1), .stop .frameLimit) ∧
      ∀ (n : Machine) (j : Interpreter), m.bare t = n.bare t → j.thread = i.thread →
        j.limit.any (· ≤ (n.thread i.thread).depth) = false → ∃ id args target, n.perform j w word op =
          ((n.pushFrame i.thread id args target).1, .ofSignal (n.pushFrame i.thread id args target).2) := by
  have hcalls {f : Value} {args : Values} {target : ReturnTarget} (h : (m.callFrom i w f args target).2.Pauses) :
      i.limit ≠ none ∧ m.callFrom i w f args target = (m.setPc i.thread (w.pc - 1), .stop .frameLimit) ∧
        ∀ (n : Machine) (j : Interpreter), m.bare t = n.bare t → j.thread = i.thread →
          j.limit.any (· ≤ (n.thread i.thread).depth) = false → ∃ id args' target', n.callFrom j w f args target =
            ((n.pushFrame i.thread id args' target').1, .ofSignal (n.pushFrame i.thread id args' target').2) := by
    obtain ⟨hlimited, hstops, id, args', hcallee⟩ := callFrom_pauses h
    refine ⟨hlimited, hstops, fun n j hbare hthread hlimit => ⟨id, args', target, ?_⟩⟩
    rw [← hthread] at hlimit ⊢
    refine callFrom_eq_pushFrame target ?_ hlimit
    rw [← callee?_bare (t := t), ← hbare, callee?_bare, hcallee]
  cases op with
  | call | tForLoop =>
    obtain ⟨hlimited, hstops, hagain⟩ := hcalls h
    refine ⟨hlimited, hstops, fun n j hbare hthread hlimit => ?_⟩
    have hregister (file : FileId) (r : Nat) : n.register file r = m.register file r := by
      rw [← register_bare (t := t), ← hbare, register_bare]
    have hopen : n.openEnd j.thread = m.openEnd i.thread := by
      rw [hthread, ← openEnd_bare (t := t), ← hbare, openEnd_bare]
    obtain ⟨id, args, target, heq⟩ := hagain n j hbare hthread hlimit
    refine ⟨id, args, target, ?_⟩
    simp only [perform, hregister, hopen, collect]
    exact heq
  | tailCall => exact absurd h (m.not_pauses_tailCallFrom i _ _)
  | ret => exact absurd h (Ending.not_pauses_ofSignal (m.isResult_finishReturn _ _ _).not_pauses)
  | forLoop => exact absurd h (not_pauses_forLoop m _ _ _)
  | forPrep => exact absurd h (not_pauses_forPrep m _ _ _)
  | closure => exact absurd h (not_pauses_makeClosure m _ _ _)
  | jmp =>
    refine absurd h ?_
    simp only [perform, jumpFrom]
    split <;> exact not_pauses_jump _ _ _
  | setList =>
    refine absurd h ?_
    simp only [perform]
    split
    · split
      · exact not_false
      · exact not_pauses_setList _ _ _ _ _ _ _
    · exact not_pauses_setList _ _ _ _ _ _ _
  | setUpval =>
    refine absurd h ?_
    simp only [perform]
    split <;> exact not_false
  | testSet =>
    refine absurd h ?_
    simp only [perform]
    split <;> exact not_false
  | getGlobal | getTable | self | add | sub | mul | div | mod | pow | unm | len =>
    exact absurd h (not_pauses_attempted _ _ true).1
  | eq | lt | le => exact absurd h (not_pauses_attempted _ 0 _).2.1
  | setGlobal | setTable => exact absurd h (not_pauses_attempted _ 0 true).2.2
  | _ => exact absurd h not_false

/-- Fetching an instruction that stops at the limit leaves the frame in front of it. On any machine that is alike once
the frame has moved on, the instruction enters a closure. -/
theorem fetch_pauses (h : (m.fetch i w).2.Pauses) :
    i.limit ≠ none ∧
      m.fetch i w = ((m.modifyThread i.thread (·.movedTo (w.pc + 1))).setPc i.thread w.pc, .stop .frameLimit) ∧
      (∃ word, (m.closure w.closure).proto.code[w.pc]? = some word) ∧
      ∀ (n : Machine) (j : Interpreter), j.thread = i.thread →
        (m.modifyThread i.thread (·.movedTo (w.pc + 1))).bare t =
          (n.modifyThread i.thread (·.movedTo (w.pc + 1))).bare t →
        (n.thread i.thread).frames.isEmpty = false →
        j.limit.any (· ≤ ((n.modifyThread i.thread (·.movedTo (w.pc + 1))).thread i.thread).depth) = false →
        ∃ id args target, n.fetch j w =
          (((n.modifyThread i.thread (·.movedTo (w.pc + 1))).pushFrame i.thread id args target).1,
            .ofSignal ((n.modifyThread i.thread (·.movedTo (w.pc + 1))).pushFrame i.thread id args target).2) := by
  cases hword : (m.closure w.closure).proto.code[w.pc]? with
  | none =>
    rw [fetch, hword] at h
    cases h
  | some word =>
    cases hframes : (m.thread i.thread).frames.isEmpty with
    | true =>
      simp only [fetch, hword, hframes, if_true] at h
      cases h
    | false =>
      cases hop : word.opcode? with
      | none =>
        simp only [fetch, hword, hframes, hop, Bool.false_eq_true, if_false] at h
        cases h
      | some op =>
        have hfetch {n : Machine} {j : Interpreter} (hcode : (n.closure w.closure).proto.code[w.pc]? = some word)
            (hthread : j.thread = i.thread) (hsome : (n.thread i.thread).frames.isEmpty = false) : n.fetch j w =
              (n.modifyThread i.thread (·.movedTo (w.pc + 1))).perform j { w with pc := w.pc + 1 } word op := by
          simp only [fetch, hcode, hthread, hsome, hop, Bool.false_eq_true, if_false]
        rw [hfetch hword rfl hframes] at h ⊢
        obtain ⟨hlimited, hstops, hagain⟩ := perform_pauses (t := t) h
        refine ⟨hlimited, hstops, ⟨word, rfl⟩, fun n j hthread hbare hsome hlimit => ?_⟩
        have hclosure : n.closure w.closure = m.closure w.closure :=
          closure_congr (m := m.modifyThread i.thread _) (n := n.modifyThread i.thread _) hbare w.closure
        rw [hfetch (by rw [hclosure, hword]) hthread hsome]
        exact hagain _ j hbare hthread hlimit

/-- Without a fuse nothing else makes an instruction stop. -/
theorem execute_eq_fetch (hfuse : m.limits.fuse = none) : m.execute i w = m.fetch i w := by
  unfold execute
  rw [hfuse]

end Instructions

section Interpreters

variable {i : Interpreter} {w : Window} {s : Signal} {a : Activation} {acts : List Activation}

/-- An interpreter is about to run the instruction at `w`. -/
structure Reads (m : Machine) (i : Interpreter) (w : Window) (acts : List Activation) : Prop where
  stack : m.stack = .interpret i :: acts
  stage : i.stage = .running w ∨
    i.stage = .entering ∧ ∃ top ∈ m.topFrame? i.thread, w = ⟨top.closure, top.file, top.pc⟩

/-- The machine as the interpreter finds it when it runs the instruction. -/
def reading (m : Machine) (i : Interpreter) (w : Window) : Machine :=
  { m with inUse := [] }.replaceTop (.interpret { i with stage := .running w })

theorem Reads.step_eq (h : m.Reads i w acts) : m.step .go = (m.reading i w).advance i w := by
  rw [step_cons h.stack (by rintro _ _ _ ⟨⟩)]
  show ({ m with inUse := [] } : Machine).interpret i .go = _
  unfold interpret
  rcases h.stage with hstage | ⟨hstage, top, htop, rfl⟩
  · have hsame : m.reading i w = { m with inUse := [] } := by
      have hhead : Activation.interpret { i with stage := .running w } :: m.stack.tail = m.stack := by
        rw [h.stack, ← hstage]
        rfl
      rw [reading, replaceTop, hhead]
    rw [hstage, hsame]
  · have htop' : ({ m with inUse := [] } : Machine).topFrame? i.thread = some top := htop
    rw [hstage]
    dsimp only
    rw [enter, htop']
    rfl

/-- An instruction that stops is the last one of its interpreter for now. -/
theorem Reads.step_eq_of_pauses (h : m.Reads i w acts) (hfuse : m.limits.fuse = none)
    (hstops : ((m.reading i w).fetch i w).2.Pauses) : m.step .go =
      ((((m.reading i w).modifyThread i.thread (·.movedTo (w.pc + 1))).setPc i.thread w.pc).pop, .frameLimit) := by
  obtain ⟨-, hfetch, -⟩ := fetch_pauses (t := i.thread) hstops
  rw [h.step_eq, advance, execute_eq_fetch (m := m.reading i w) hfuse, hfetch]
  rfl

/-- However an instruction makes an interpreter pause, the interpreter is done. -/
theorem conclude_pauses {e : Ending} (h : (m.conclude i w e).2.Pauses) :
    ∃ s, e = .stop s ∧ s.Pauses ∧ m.conclude i w e = (m.pop, s) := by
  cases e with
  | goOn | enter | invoke => cases h
  | handle handler => exact absurd h ((upkeep_not_pauses i.thread).callHandler trivial handler [])
  | join reversed => exact absurd h ((upkeep_not_pauses i.thread).continueJoin trivial reversed [])
  | stop s =>
    cases s with
    | yielded vs => exact ⟨_, rfl, trivial, rfl⟩
    | frameLimit => exact ⟨_, rfl, trivial, rfl⟩
    | go | invoke | values | sleeping | error => cases h

theorem not_pauses_settle (m : Machine) (i : Interpreter) (w : Window) (vs : Values) (sequel : Sequel) :
    ¬(m.settle i w vs sequel).2.Pauses := by
  cases sequel with
  | discard | store | branch => exact not_false
  | leave => exact Ending.not_pauses_ofSignal (m.isResult_finishReturn _ vs _).not_pauses
  | deliver target =>
    have hdelivered := (m.isResult_deliver i.thread target vs).not_pauses
    unfold settle
    dsimp only
    split
    · split <;> exact not_false
    · rename_i heq
      rw [heq] at hdelivered
      exact hdelivered

theorem frames_modifyThread {f : Thread → Thread} (hf : ∀ th, (f th).frames = th.frames) :
    ((m.modifyThread u f).thread t).frames = (m.thread t).frames := by
  obtain hsame | hchanged := m.thread_modifyThread_cases u f t
  · rw [hsame]
  · rw [hchanged, hf]

/-- A thread yields by leaving a native call pending. -/
theorem suspend_pauses {pending : Frame → PendingCall} (h : (m.suspend u pending).2.Pauses) :
    ∃ vs, (m.suspend u pending).2 = .stop (.yielded vs) ∧ ((m.suspend u pending).1.thread u).Takes := by
  unfold suspend at h ⊢
  cases htop : m.topFrame? u with
  | none =>
    rw [htop] at h
    cases h
  | some top =>
    have hrange := lt_size_of_topFrame htop
    obtain ⟨rest, hframes⟩ := List.head?_eq_some_iff.mp htop
    have hsuspended := thread_modifyTop hrange hframes fun f => { f with pending := some (pending top) }
    refine ⟨_, rfl, ?_⟩
    show Thread.Takes ((takeYielded _ u).1.thread u)
    rw [Thread.Takes, takeYielded, frames_modifyThread (by intro; rfl), hsuspended]
    intro f hf
    cases hf
    exact Option.some_ne_none _

/-- An interpreter that is told of something else than a pause pauses for a yield only. -/
theorem interrupted_pauses {sequel : Sequel} (hs : ¬s.Pauses) (h : (m.interrupted i s sequel).2.Pauses) :
    ∃ vs, (m.interrupted i s sequel).2 = .stop (.yielded vs) ∧
      ((m.interrupted i s sequel).1.thread i.thread).Takes := by
  unfold interrupted at h ⊢
  split at h
  · split at h
    · exact suspend_pauses h
    · exact absurd h hs
  · split at h
    · exact suspend_pauses h
    · exact absurd h hs
  · exact absurd h hs

/-- An interpreter pauses because an instruction stops, or because its thread yields. -/
theorem step_interpret_pauses (hfuse : m.limits.fuse = none) (hstack : m.stack = .interpret i :: acts) (hs : ¬s.Pauses)
    (hinvoke : ∀ u id args, s ≠ .invoke u id args) (h : (m.step s).2.Pauses) :
    (s = .go ∧ ∃ w, m.Reads i w acts ∧ ((m.reading i w).fetch i w).2.Pauses) ∨
      ∃ vs, (m.step s).2 = .yielded vs ∧ (m.step s).1.stack = acts ∧ ((m.step s).1.thread i.thread).Takes := by
  have hreads {w : Window} (hreads : m.Reads i w acts) (h : (m.step .go).2.Pauses) :
      ((m.reading i w).fetch i w).2.Pauses := by
    rw [hreads.step_eq] at h
    obtain ⟨s, hstop, hpauses, -⟩ := conclude_pauses h
    have hstop : ((m.reading i w).execute i w).2 = .stop s := hstop
    rw [execute_eq_fetch (m := m.reading i w) hfuse] at hstop
    rw [hstop]
    exact hpauses
  have hwaits {w : Window} {sequel : Sequel} {n : Machine} (hn : n = { m with inUse := [] })
      (h : ((n.interrupted i s sequel).1.conclude i w (n.interrupted i s sequel).2).2.Pauses) :
      ∃ vs, ((n.interrupted i s sequel).1.conclude i w (n.interrupted i s sequel).2).2 = .yielded vs ∧
        ((n.interrupted i s sequel).1.conclude i w (n.interrupted i s sequel).2).1.stack = acts ∧
        (((n.interrupted i s sequel).1.conclude i w (n.interrupted i s sequel).2).1.thread i.thread).Takes := by
    obtain ⟨s', hstop, hpauses, -⟩ := conclude_pauses h
    obtain ⟨vs, hyields, htakes⟩ := interrupted_pauses hs (by rw [hstop]; exact hpauses)
    have hkept := (ends_interrupted n i s sequel).confined.stack
    rw [hyields]
    refine ⟨vs, rfl, ?_, htakes⟩
    show (n.interrupted i s sequel).1.stack.tail = acts
    rw [hkept, hn]
    show m.stack.tail = acts
    rw [hstack]
    rfl
  have hstep : m.step s = ({ m with inUse := [] } : Machine).interpret i s := step_cons hstack hinvoke
  obtain ⟨u, floor, limit, stage⟩ := i
  cases stage with
  | entering =>
    cases s with
    | go =>
      cases htop : m.topFrame? u with
      | none =>
        have htop' : ({ m with inUse := [] } : Machine).topFrame? u = none := htop
        have hentered : m.step .go = ({ m with inUse := [] } : Machine).enter ⟨u, floor, limit, .entering⟩ := hstep
        rw [hentered, enter, htop'] at h
        cases h
      | some top =>
        have hown : m.Reads ⟨u, floor, limit, .entering⟩ ⟨top.closure, top.file, top.pc⟩ acts :=
          ⟨hstack, Or.inr ⟨rfl, top, htop, rfl⟩⟩
        exact Or.inl ⟨rfl, _, hown, hreads hown h⟩
    | invoke u id args => exact absurd rfl (hinvoke u id args)
    | yielded | frameLimit => exact absurd trivial hs
    | values | sleeping | error =>
      rw [hstep] at h
      cases h
  | running w =>
    cases s with
    | go =>
      have hown : m.Reads ⟨u, floor, limit, .running w⟩ w acts := ⟨hstack, Or.inl rfl⟩
      exact Or.inl ⟨rfl, _, hown, hreads hown h⟩
    | invoke u id args => exact absurd rfl (hinvoke u id args)
    | yielded | frameLimit => exact absurd trivial hs
    | values | sleeping | error =>
      rw [hstep] at h
      cases h
  | waiting w sequel =>
    cases s with
    | values vs =>
      rw [hstep] at h
      obtain ⟨s', hstop, hpauses, -⟩ := conclude_pauses h
      exact absurd ((congrArg Ending.Pauses hstop).mpr hpauses)
        (not_pauses_settle { m with inUse := [] } ⟨u, floor, limit, .waiting w sequel⟩ w vs sequel)
    | invoke u id args => exact absurd rfl (hinvoke u id args)
    | yielded | frameLimit => exact absurd trivial hs
    | go | sleeping | error =>
      rw [hstep] at h ⊢
      exact Or.inr (hwaits rfl h)

/-- Of the other work on a thread a native start function alone makes a resume pause. -/
theorem resumeWork_pauses (ha : a.IsSingle) (hinterpret : ∀ i, a ≠ .interpret i) (hs : ¬s.Pauses)
    (h : (m.resumeWork a acts s).2.Pauses) : ∃ u held vs, a = .startedNative u held ∧ s = .error .yield ∧
      m.resumeWork a acts s = ((({ m with stack := acts } : Machine).takeYielded u).1.modifyThread u
        (fun th => { th with hostReturnPending := true }), .yielded vs) := by
  cases a with
  | interpret i => exact absurd rfl (hinterpret i)
  | tick | groupSize | updateGroups => cases ha
  | endCall u floor previous held =>
    refine absurd h ?_
    show ¬Signal.Pauses (Prod.snd (stepEndCall _ _ _ _ _))
    cases s <;> exact not_false
  | startedNative u held =>
    cases s with
    | error e =>
      cases e with
      | yield => exact ⟨u, held, _, rfl, rfl, rfl⟩
      | raised | fatal => cases h
    | go | invoke | values | sleeping => cases h
    | yielded | frameLimit => exact absurd trivial hs
  | endResume u floor held =>
    refine absurd h ?_
    show ¬Signal.Pauses (Prod.snd (stepEndResume _ _ _ _))
    unfold stepEndResume
    split <;> first | exact not_false | exact hs
  | protect =>
    refine absurd h ?_
    show ¬Signal.Pauses (stepProtect s)
    unfold stepProtect
    split <;> first | exact not_false | exact hs
  | resumed u previous wrapped target =>
    refine absurd h ?_
    show ¬Signal.Pauses (Prod.snd (stepResumed _ _ _ _ _))
    unfold stepResumed
    dsimp only
    split
    · exact not_false
    · exact not_false
    · exact not_false
    · split
      · split <;> exact not_false
      · exact not_false
    · exact not_false
  | forget | read => cases s <;> first | exact absurd trivial hs | cases h
  | concat u left held =>
    cases s with
    | values vs => exact absurd h ((upkeep_not_pauses u).continueJoin trivial _ held)
    | go | invoke | sleeping | error => cases h
    | yielded | frameLimit => exact absurd trivial hs
  | print u shown args =>
    cases s with
    | values vs =>
      refine absurd h ?_
      show ¬Signal.Pauses (Prod.snd (stepPrint _ _ _ _ _))
      unfold stepPrint
      split
      · exact (upkeep_not_pauses u).continuePrint trivial args _ _
      · exact not_false
    | go | invoke | sleeping | error => cases h
    | yielded | frameLimit => exact absurd trivial hs

end Interpreters

section Steps

variable {s : Signal}

/-- An interpreter that stands on a resume runs all frames of its thread, and there is nothing else to do on that. -/
theorem Interprets.of_endResume {i : Interpreter} {band fs : List FrameOutline} {own below acts : List Activation}
    {ts : List ThreadId} {floor : Nat} {held : Values} (h : m.Interprets .host t i band fs own below ts)
    (hstack : m.stack.tail = .endResume u floor held :: acts) : u = t ∧ acts = below ∧ fs = [] ∧ i.floor = 0 ∧
      (m.outline.thread t).starts = false ∧ (m.outline.thread t).hostReturnPending = false ∧
        (m.outline.thread t).nativeDepth = 0 := by
  rw [h.stack] at hstack
  have hunder := h.under
  cases h.stands with
  | onResume hfloor =>
    obtain ⟨-, hstarts, hhost, -, hnative, rfl⟩ := Segment.of_endResume hunder
    cases hstack
    exact ⟨rfl, rfl, rfl, hfloor, hstarts, hhost, hnative⟩
  | onCall => cases hstack

/-- A yield is on its way to the end of a resume, below which there is no other one, or has met it. -/
theorem sound_yielded_cases {vs : Values} {o : Outline} (h : o.Sound .host (.yielded vs)) : o.stack = [] ∨
    (∃ u floor held acts, o.stack = .endResume u floor held :: acts ∧
      ∀ v floor' held' acts', acts ≠ .endResume v floor' held' :: acts') ∨
    ∃ u previous wrapped target acts, o.stack = .resumed u previous wrapped target :: acts := by
  cases h with
  | atRest _ hnil => exact Or.inl hnil
  | back hstack => exact Or.inr (Or.inr ⟨_, _, _, _, _, hstack⟩)
  | @working u own below ts hstack hsetting _ hready =>
    cases hready with
    | pause =>
      refine Or.inr (Or.inl ⟨_, _, _, _, hstack, fun v floor held acts hacts => ?_⟩)
      have hbelow := hsetting.below
      rw [show below = _ from hacts] at hbelow
      cases hbelow

/-- A native start function yields to the resume that began its thread, which has no frames. -/
theorem startedNative_yields {held : Values} {acts : List Activation} (h : m.outline.Sound .host (.error .yield))
    (hstack : m.stack = .startedNative u held :: acts) :
    (∃ floor held below, acts = .endResume u floor held :: below) ∧ (m.thread u).frames = [] := by
  cases h with
  | atRest _ hnil =>
    rw [outline_stack, hstack] at hnil
    cases hnil
  | back hback =>
    rw [outline_stack, hstack] at hback
    cases hback
  | @working t own below ts hown _ _ hready =>
    rw [outline_stack, hstack] at hown
    cases hready with
    | error he => cases he
    | yield hacts hnative htakes =>
      obtain ⟨b, own, rfl⟩ := List.exists_cons_of_ne_nil (show own ≠ [] by rintro rfl; cases htakes)
      cases hown
      obtain ⟨rfl, hframes, -, ⟨floor, held', rfl⟩, -⟩ := Segment.of_startedNative hacts
      rw [← map_outline_frames, List.map_eq_nil_iff] at hframes
      exact ⟨⟨floor, held', below, rfl⟩, hframes⟩
    | pause hs => obtain hnot | ⟨vs, hnot⟩ := hs <;> cases hnot

/-- A step makes a resume pause because an instruction stops, or because a thread yields, which then waits for what the
next resume gives it. -/
theorem step_pauses (hsound : m.outline.Sound .host s) (hfuse : m.limits.fuse = none)
    (hlibrary : ∀ u id args, s = .invoke u id args →
      (m.native id).body.IsLibrary ∨ (m.native id).body = .host .nothing)
    (hs : s ≠ .frameLimit) (h : (m.step s).2.Pauses) :
    (∃ i w acts, s = .go ∧ m.Reads i w acts ∧ ((m.reading i w).fetch i w).2.Pauses) ∨
      ∃ vs, (m.step s).2 = .yielded vs ∧ ∀ u floor held acts, (m.step s).1.stack = .endResume u floor held :: acts →
        ((m.step s).1.thread u).Takes := by
  by_cases hinvoke : ∃ u id args, s = .invoke u id args
  · obtain ⟨u, id, args, rfl⟩ := hinvoke
    exact absurd h (not_pauses_invoke m u (hlibrary u id args rfl) args)
  have hnot (u : ThreadId) (id : NativeId) (args : Values) : s ≠ .invoke u id args :=
    fun heq => hinvoke ⟨u, id, args, heq⟩
  by_cases hpauses : s.Pauses
  · -- A pause goes on until it meets the thread that resumed the one that pauses.
    obtain ⟨vs, rfl⟩ : ∃ vs, s = .yielded vs := by
      cases s with
      | yielded vs => exact ⟨vs, rfl⟩
      | frameLimit => exact absurd rfl hs
      | go | invoke | values | sleeping | error => cases hpauses
    obtain hnil | ⟨u, floor, held, acts, hstack, hno⟩ | ⟨u, previous, wrapped, target, acts, hstack⟩ :=
      sound_yielded_cases hsound
    · rw [step_nil hnil hnot]
      refine Or.inr ⟨vs, rfl, fun u floor held acts hstack => ?_⟩
      rw [show m.stack = [] from hnil] at hstack
      cases hstack
    · rw [step_cons hstack hnot]
      exact Or.inr ⟨vs, rfl, fun v floor' held' acts' hacts => absurd hacts (hno v floor' held' acts')⟩
    · rw [step_cons hstack hnot] at h
      cases h
  cases hstack : m.stack with
  | nil =>
    rw [step_nil hstack hnot] at h
    exact absurd h hpauses
  | cons a acts =>
    by_cases hinterpret : ∃ i, a = .interpret i
    · obtain ⟨i, rfl⟩ := hinterpret
      obtain ⟨rfl, w, hreads, hstops⟩ | ⟨vs, hyields, hleft, htakes⟩ :=
        step_interpret_pauses hfuse hstack hpauses hnot h
      · exact Or.inl ⟨i, w, acts, rfl, hreads, hstops⟩
      · refine Or.inr ⟨vs, hyields, fun u floor held acts' hacts => ?_⟩
        obtain ⟨band, fs, own, below, ts, hinterprets, -⟩ :=
          hsound.interprets (Scope.Whole.host.ne_base hstack) hstack hnot
        have htail : m.stack.tail = .endResume u floor held :: acts' := by
          rw [hstack, ← hacts, hleft]
          rfl
        obtain ⟨rfl, -⟩ := hinterprets.of_endResume htail
        exact htakes
    · have hwork := step_cons hstack hnot
      rw [hwork] at h
      have hsingle := isSingle_of_sound hsound hnot hstack
      obtain ⟨u, held, vs, rfl, rfl, hstarted⟩ :=
        resumeWork_pauses (m := { m with inUse := [] }) hsingle (fun i hi => hinterpret ⟨i, hi⟩) hpauses h
      obtain ⟨⟨floor, held', below, rfl⟩, hframes⟩ := startedNative_yields hsound hstack
      rw [hwork, hstarted]
      refine Or.inr ⟨vs, rfl, fun v floor' held'' acts' hacts => ?_⟩
      cases hacts
      rw [Thread.Takes, frames_modifyThread (by intro; rfl), takeYielded, frames_modifyThread (by intro; rfl)]
      show ∀ f ∈ (m.thread u).frames.head?, f.pending ≠ none
      rw [hframes]
      rintro _ ⟨⟩

end Steps

end Machine

end LuaMachine
