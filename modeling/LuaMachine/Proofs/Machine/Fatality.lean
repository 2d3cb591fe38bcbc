import LuaMachine.Proofs.Machine.GroundingSteps
import LuaMachine.Proofs.Machine.Tracking
import Mathlib.Logic.Function.Iterate

namespace LuaMachine

/-- Work is about the thread that it is done for, and about the one that it keeps busy. -/
def Activation.Concerns (a : Activation) (t : ThreadId) : Prop := t ∈ a.serves? ∨ t ∈ a.thread?

/-- Whether a group waits for the end of a tick. -/
def Activation.isTick : Activation → Bool
  | .tick .. => true
  | _ => false

/-- The thread whose resume the work ends. -/
def Activation.resumes? : Activation → Option ThreadId
  | .endResume thread .. => some thread
  | _ => none

/-- The end of a resume of a thread is part of the work. -/
def Resuming (t : ThreadId) (acts : List Activation) : Prop := ∃ a ∈ acts, a.resumes? = some t

instance (t : ThreadId) (acts : List Activation) : Decidable (Resuming t acts) :=
  inferInstanceAs (Decidable (∃ a ∈ acts, a.resumes? = some t))

variable {a : Activation} {acts more : List Activation} {t : ThreadId}

theorem Activation.resumes?_eq_some : a.resumes? = some t ↔ ∃ floor held, a = .endResume t floor held := by
  constructor
  · intro h
    cases a with
    | endResume u floor held => exact ⟨floor, held, by rw [Option.some.inj h]⟩
    | interpret | read | concat | endCall | startedNative | protect | print | resumed | forget | tick | groupSize
    | updateGroups => cases h
  · rintro ⟨floor, held, rfl⟩
    rfl

theorem Resuming.mono (h : Resuming t acts) (hsubset : acts ⊆ more) : Resuming t more := by
  obtain ⟨a, hmem, ha⟩ := h
  exact ⟨a, hsubset hmem, ha⟩

namespace Grounded

/-- Calls are made by a thread that is being resumed. -/
theorem resuming_of_current? (h : Grounded acts) (ht : current? acts = some t) : Resuming t acts := by
  induction h with
  | nil => cases ht
  | @cons a acts ha h ih =>
    have hbelow (hcurrent : current? acts = some t) : Resuming t (a :: acts) :=
      (ih hcurrent).mono (List.subset_cons_self a acts)
    cases a with
    | endResume u floor held =>
      rw [current?_cons_of_some (t := u) rfl] at ht
      exact ⟨_, List.mem_cons_self, ht⟩
    | endCall u floor previous held =>
      rw [current?_cons_of_some (t := u) rfl] at ht
      exact hbelow (ha t ht)
    | interpret | read | concat | startedNative | protect | print | resumed | forget | tick | groupSize
    | updateGroups =>
      rw [current?_cons_of_none rfl] at ht
      exact hbelow ht

/-- All work is about threads that are being resumed. -/
theorem resuming (h : Grounded acts) (ha : a ∈ acts) (ht : a.Concerns t) : Resuming t acts := by
  induction h with
  | nil => cases ha
  | @cons b acts hb h ih =>
    obtain rfl | ha := List.mem_cons.mp ha
    · obtain hserves | hthread := ht
      · exact (h.resuming_of_current? (hb t hserves)).mono (List.subset_cons_self a acts)
      · exact resuming_of_current? (.cons hb h) (current?_cons_of_some hthread acts)
    · exact (ih ha).mono (List.subset_cons_self b acts)

end Grounded

namespace Machine

variable {m : Machine} {base rest : List Activation} {s : Signal} {r : Machine × Signal} {f : Fatal} {k : Nat}

section Runs

/-- A machine and its signal after some steps. -/
def after (k : Nat) (r : Machine × Signal) : Machine × Signal := (fun r => r.1.step r.2)^[k] r

theorem after_succ (k : Nat) (r : Machine × Signal) : after (k + 1) r = (after k r).1.step (after k r).2 :=
  Function.iterate_succ_apply' ..

theorem after_succ' (k : Nat) (m : Machine) (s : Signal) : after (k + 1) (m, s) = after k (m.step s) :=
  Function.iterate_succ_apply ..

theorem after_add (j k : Nat) (r : Machine × Signal) : after (j + k) r = after j (after k r) :=
  Function.iterate_add_apply ..

/-- A machine that works above some work until it is done. -/
theorem runAbove_eq_after (hworks : ∀ i < k, (after i r).1.isWorkingAbove base (after i r).2 = true)
    (hdone : (after k r).1.isWorkingAbove base (after k r).2 = false) :
    runAbove base k r.1 r.2 = some (after k r) := by
  induction k generalizing r with
  | zero => exact if_neg (Bool.eq_false_iff.mp hdone)
  | succ k ih =>
    have hfirst : r.1.isWorkingAbove base r.2 = true := hworks 0 (Nat.succ_pos k)
    rw [runAbove, if_pos hfirst]
    exact ih (fun i hi => hworks (i + 1) (Nat.succ_lt_succ hi)) hdone

theorem counts_after (h : ∀ u, r.1.Counts u) (k : Nat) : ∀ u, (after k r).1.Counts u := by
  induction k with
  | zero => exact h
  | succ k ih =>
    rw [after_succ]
    exact counts_of_evolves ih ((Becomes.refl _).step _)

/-- Whatever is above some work is done for threads that are being resumed there. -/
theorem exists_grounded_after
    (h : ∃ acts, r.1.stack = acts ++ base ∧ Grounded acts ∧ ∀ t ∈ r.2.serves?, current? acts = some t)
    (hworks : ∀ i < k, (after i r).1.isWorkingAbove base (after i r).2 = true) : ∃ acts,
      (after k r).1.stack = acts ++ base ∧ Grounded acts ∧ ∀ t ∈ (after k r).2.serves?, current? acts = some t := by
  induction k with
  | zero => exact h
  | succ k ih =>
    have hgrounded := ih fun i hi => hworks i (Nat.lt_succ_of_lt hi)
    have hattends : Attends base defaultGroup (after k r).1 [] (after k r).2.serves? (after k r).1 :=
      ⟨.refl, hgrounded⟩
    have hstepped := hattends.stepWith (ExceptionHandler.lawful_silent defaultGroup) (hworks k (Nat.lt_succ_self k))
    rw [stepWith_silent] at hstepped
    rw [after_succ]
    exact hstepped.grounded

end Runs

section Errors

/-- Work that waits, other than for a tick, hands a fatal error on, and changes no thread that it is not about. -/
theorem step_fatal (hstack : m.stack = a :: rest) (htick : a.isTick = false) (f : Fatal) :
    (m.step (.error (.fatal f))).2 = .error (.fatal f) ∧ (m.step (.error (.fatal f))).1.stack = rest ∧
      ∀ u, ¬a.Concerns u → (m.step (.error (.fatal f))).1.thread u = m.thread u := by
  let n : Machine := { m with inUse := [], stack := rest }
  have hconfined {m' : Machine} {t : ThreadId} (hconfined : n.Confined m' t) (ht : a.Concerns t) :
      m'.stack = rest ∧ ∀ u, ¬a.Concerns u → m'.thread u = m.thread u :=
    ⟨hconfined.stack, fun u hu => hconfined.others u fun heq => hu (heq ▸ ht)⟩
  rw [step_cons hstack (by rintro _ _ _ ⟨⟩)]
  cases a with
  | interpret i =>
    have hpopped : ({ m with inUse := [] } : Machine).interpret i (.error (.fatal f)) =
        (({ m with inUse := [] } : Machine).pop, .error (.fatal f)) := by
      unfold interpret
      cases i.stage with
      | entering | running => rfl
      | waiting w sequel => cases sequel <;> rfl
    refine ⟨congrArg Prod.snd hpopped, (congrArg (·.1.stack) hpopped).trans ?_, fun u _ => ?_⟩
    · rw [pop, hstack, List.tail_cons]
    · exact congrArg (·.1.thread u) hpopped
  | endCall t floor previous held => exact ⟨rfl, hconfined (n.confined_stepEndCall t floor previous _) (Or.inl rfl)⟩
  | endResume t floor held => exact ⟨rfl, hconfined (n.confined_stepEndResume t floor _) (Or.inr rfl)⟩
  | resumed t previous wrapped target => exact ⟨rfl, hconfined (n.confined_modifyThread t _) (Or.inl rfl)⟩
  | tick g members t todo => cases htick
  | read | concat | startedNative | protect | print | forget | groupSize | updateGroups =>
    exact ⟨rfl, rfl, fun u _ => rfl⟩

/-- The end of a resume that takes a fatal error finishes the thread. -/
theorem dead_of_endResume {floor : Nat} {held : Values} (hstack : m.stack = .endResume t floor held :: rest)
    (hcounts : m.Counts t) (f : Fatal) :
    ((m.step (.error (.fatal f))).1.thread t).status = .dead ∧
      ((m.step (.error (.fatal f))).1.thread t).frames = [] := by
  let n : Machine := { m with inUse := [], stack := rest }
  have hframes : ((n.unwind t 0).thread t).frames = [] := by
    rw [frames_unwind (m := n) hcounts, Nat.sub_zero, List.drop_length]
  have hended : (m.step (.error (.fatal f))).1 = (n.unwind t 0).setStatus t .dead := by
    rw [step_cons hstack (by rintro _ _ _ ⟨⟩)]
    rfl
  rw [hended, frames_setStatus]
  refine ⟨?_, hframes⟩
  by_cases hrange : t.index < (n.unwind t 0).threads.size
  · rw [setStatus, thread_modifyThread hrange]
  · have houtside : ((n.unwind t 0).setStatus t .dead).threads.size ≤ t.index := by
      rw [setStatus, (confined_modifyThread _ t _).size]
      exact Nat.not_lt.mp hrange
    rw [thread_of_le houtside]

theorem after_succ_fatal (hstack : m.stack = a :: rest) (htick : a.isTick = false) (f : Fatal) (k : Nat) :
    after (k + 1) (m, .error (.fatal f)) = after k ((m.step (.error (.fatal f))).1, .error (.fatal f)) := by
  have hpasses := (step_fatal hstack htick f).1
  rw [after_succ']
  exact congrArg (after k) (Prod.ext rfl hpasses)

/-- A fatal error goes through work in which no group waits for a tick. -/
theorem after_fatal (hstack : m.stack = acts ++ base) (hticks : ∀ a ∈ acts, a.isTick = false) (f : Fatal)
    (hk : k ≤ acts.length) :
    (after k (m, .error (.fatal f))).1.stack = acts.drop k ++ base ∧
      (after k (m, .error (.fatal f))).2 = .error (.fatal f) := by
  induction k with
  | zero => exact ⟨hstack, rfl⟩
  | succ k ih =>
    obtain ⟨hleft, hsignal⟩ := ih (Nat.le_of_succ_le hk)
    rw [List.drop_eq_getElem_cons hk, List.cons_append] at hleft
    obtain ⟨hpasses, hrest, -⟩ := step_fatal hleft (hticks _ (List.getElem_mem hk)) f
    rw [after_succ, hsignal]
    exact ⟨hrest, hpasses⟩

/-- Meanwhile the threads that the work is not about are left alone. -/
theorem thread_after_fatal {u : ThreadId} (hstack : m.stack = acts ++ base) (hticks : ∀ a ∈ acts, a.isTick = false)
    (f : Fatal) (hu : ∀ a ∈ acts, ¬a.Concerns u) :
    (after acts.length (m, .error (.fatal f))).1.thread u = m.thread u := by
  induction acts generalizing m with
  | nil => rfl
  | cons a acts ih =>
    have htick := hticks a List.mem_cons_self
    obtain ⟨-, hrest, hthread⟩ := step_fatal hstack htick f
    rw [List.length_cons, after_succ_fatal hstack htick, ih hrest (fun b hb => hticks b (List.mem_cons_of_mem a hb))
      fun b hb => hu b (List.mem_cons_of_mem a hb)]
    exact hthread u (hu a List.mem_cons_self)

/-- In the end the threads that were being resumed are finished. The outermost end of a resume of a thread is below all
work that is about it, so what comes after does not change the thread again. -/
theorem dead_after_fatal (hcounts : ∀ u, m.Counts u) (hstack : m.stack = acts ++ base)
    (hticks : ∀ a ∈ acts, a.isTick = false) (hgrounded : Grounded acts) (f : Fatal) (ht : Resuming t acts) :
    ((after acts.length (m, .error (.fatal f))).1.thread t).status = .dead ∧
      ((after acts.length (m, .error (.fatal f))).1.thread t).frames = [] := by
  induction hgrounded generalizing m with
  | nil =>
    obtain ⟨a, hmem, -⟩ := ht
    cases hmem
  | @cons a acts _ hgrounded ih =>
    have htick := hticks a List.mem_cons_self
    have hbelow (b : Activation) (hb : b ∈ acts) : b.isTick = false := hticks b (List.mem_cons_of_mem a hb)
    obtain ⟨-, hrest, -⟩ := step_fatal hstack htick f
    rw [List.length_cons, after_succ_fatal hstack htick]
    by_cases hresuming : Resuming t acts
    · exact ih (counts_of_evolves hcounts ((Becomes.refl m).step _)) hrest hbelow hresuming
    · obtain ⟨b, hb, hends⟩ := ht
      obtain rfl | hb := List.mem_cons.mp hb
      · obtain ⟨floor, held, rfl⟩ := Activation.resumes?_eq_some.mp hends
        rw [thread_after_fatal hrest hbelow f fun b hb hconcerns => hresuming (hgrounded.resuming hb hconcerns)]
        exact dead_of_endResume hstack (hcounts t) f
      · exact absurd ⟨b, hb, hends⟩ hresuming

end Errors

section Resumes

theorem after_add_fatal (hfatal : (after k r).2 = .error (.fatal f)) (j : Nat) :
    after (k + j) r = after j ((after k r).1, .error (.fatal f)) := by
  rw [Nat.add_comm, after_add]
  exact congrArg (after j) (Prod.ext rfl hfatal)

/-- Work that meets a fatal error ends with it. -/
theorem runAbove_of_fatal (hworks : ∀ i ≤ k, (after i r).1.isWorkingAbove base (after i r).2 = true)
    (hfatal : (after k r).2 = .error (.fatal f)) (hstack : (after k r).1.stack = acts ++ base)
    (hticks : ∀ a ∈ acts, a.isTick = false) : runAbove base (k + acts.length) r.1 r.2 =
      some ((after (k + acts.length) r).1, .error (.fatal f)) := by
  have hpasses {j : Nat} (hj : j ≤ acts.length) : (after (k + j) r).1.stack = acts.drop j ++ base ∧
      (after (k + j) r).2 = .error (.fatal f) := by
    rw [after_add_fatal hfatal]
    exact after_fatal hstack hticks f hj
  have hgoes (i : Nat) (hi : i < k + acts.length) : (after i r).1.isWorkingAbove base (after i r).2 = true := by
    by_cases hbefore : i ≤ k
    · exact hworks i hbefore
    · obtain ⟨j, rfl⟩ := Nat.exists_eq_add_of_le (Nat.le_of_not_le hbefore)
      have hj := Nat.lt_of_add_lt_add_left hi
      rw [isWorkingAbove_iff, (hpasses (Nat.le_of_lt hj)).1, List.length_append, List.length_drop]
      exact Or.inr (Nat.lt_add_of_pos_left (Nat.sub_pos_of_lt hj))
  obtain ⟨hbottom, hsignal⟩ := hpasses (Nat.le_refl _)
  have hdone : (after (k + acts.length) r).1.isWorkingAbove base (after (k + acts.length) r).2 = false := by
    rw [hsignal]
    exact isWorkingAbove_eq_false (by rw [hbottom, List.drop_length, List.nil_append]) (by rintro _ _ _ ⟨⟩)
  rw [runAbove_eq_after hgoes hdone, ← hsignal]

/-- Until a resume is over, its end is on the stack. -/
theorem suffix_after {floor : Nat} {held : Values} (h : .endResume t floor held :: base <:+ r.1.stack)
    (hworks : ∀ i ≤ k, (after i r).1.isWorkingAbove base (after i r).2 = true) :
    .endResume t floor held :: base <:+ (after k r).1.stack := by
  induction k with
  | zero => exact h
  | succ k ih =>
    have hleft := ih fun i hi => hworks i (Nat.le_succ_of_le hi)
    have hlast := hworks (k + 1) (Nat.le_refl _)
    rw [after_succ] at hlast ⊢
    by_cases hinside : (after k r).1.isWorkingAbove (.endResume t floor held :: base) (after k r).2 = true
    · exact suffix_step hleft hinside
    · -- The end of the resume takes the signal, and nothing is left to do.
      rw [isWorkingAbove_iff, not_or] at hinside
      have hstack := (hleft.eq_of_length_le (Nat.not_lt.mp hinside.2)).symm
      have hinvoke (u : ThreadId) (id : NativeId) (args : Values) : (after k r).2 ≠ .invoke u id args :=
        fun heq => hinside.1 ⟨u, id, args, heq⟩
      let n : Machine := { (after k r).1 with inUse := [], stack := base }
      have hdone := isWorkingAbove_eq_false (n.confined_stepEndResume t floor (after k r).2).stack
        (n.ne_invoke_stepEndResume t floor hinvoke)
      rw [step_cons hstack hinvoke] at hlast
      exact absurd hlast (Bool.eq_false_iff.mp hdone)

/-- Above the work that a resume was begun on, everything is done for threads that are being resumed. -/
theorem exists_grounded_of_resume {budget : Option Nat} {args : Values} (hbegun : m.beginResume t budget args = r)
    (hworks : ∀ i < k, (after i r).1.isWorkingAbove m.stack (after i r).2 = true) : ∃ acts,
      (after k r).1.stack = acts ++ m.stack ∧ Grounded acts ∧ ∀ t ∈ (after k r).2.serves?, current? acts = some t := by
  subst hbegun
  exact exists_grounded_after ((Attends.refl m defaultGroup).beginResume budget args).grounded hworks

/-- The thread that a step works for is being resumed, and the step does not end that. -/
theorem resuming_of_step {a : Activation} {u : ThreadId}
    (h : ∃ acts, m.stack = acts ++ base ∧ Grounded acts ∧ ∀ t ∈ s.serves?, current? acts = some t)
    (hworks : m.isWorkingAbove base s = true) (hstack : m.stack = a :: rest) (hserves : u ∈ a.serves?)
    (hlater : (m.step s).1.stack = more ++ base) : Resuming u more := by
  obtain ⟨acts, hacts, hgrounded, hcurrent⟩ := h
  cases hgrounded with
  | nil =>
    obtain ⟨t, id, args, rfl⟩ | hlonger := (isWorkingAbove_iff m base s).mp hworks
    · cases hcurrent t rfl
    · rw [hacts] at hlonger
      exact absurd hlonger (Nat.lt_irrefl _)
  | @cons b acts hb hgrounded =>
    rw [hstack] at hacts
    obtain ⟨rfl, rfl⟩ := List.cons.inj hacts
    have hsuffix := suffix_step (hstack ▸ List.suffix_cons a (acts ++ base)) (isWorkingAbove_of_cons hstack s)
    rw [hlater] at hsuffix
    exact (hgrounded.resuming_of_current? (hb u hserves)).mono (List.suffix_append_self_iff.mp hsuffix).subset

/-- A resume that has not refused to begin has its end below all its work. -/
theorem resuming_of_working {budget : Option Nat} {args : Values} (hbegun : m.beginResume t budget args = r)
    (hworks : ∀ i ≤ k, (after i r).1.isWorkingAbove m.stack (after i r).2 = true)
    (hstack : (after k r).1.stack = acts ++ m.stack) : Resuming t acts := by
  have hfirst : r.1.isWorkingAbove m.stack r.2 = true := hworks 0 (Nat.zero_le k)
  have hnot (hsame : r.1.stack = m.stack) (hinvoke : ∀ u id args, r.2 ≠ .invoke u id args) : False := by
    rw [isWorkingAbove_eq_false hsame hinvoke] at hfirst
    cases hfirst
  subst hbegun
  obtain ⟨hsleeps, hsame⟩ | ⟨e, hrefused⟩ | ⟨held, hends⟩ := m.beginResume_cases t budget args
  · exact (hnot hsame (by rw [hsleeps]; rintro _ _ _ ⟨⟩)).elim
  · exact (hnot (by rw [hrefused]) (by rw [hrefused]; rintro _ _ _ ⟨⟩)).elim
  · have hsuffix := suffix_after hends hworks
    rw [hstack] at hsuffix
    have hbelow : [.endResume t (m.thread t).depth held] <:+ acts := List.suffix_append_self_iff.mp hsuffix
    exact ⟨_, hbelow.subset List.mem_cons_self, rfl⟩

/-- A fatal error that is met before a resume is over cannot be caught, in a machine that keeps count of its frames as
all do that come from a new one. Unless a group waits for a tick in between, which reports the error, all work of the
resume in turn hands it on. The resume ends with it, and the threads that were being resumed are finished: the one that
the resume is of, the one that the error was met on, and all those in between. -/
theorem fatal_ends_resumes (hcounts : ∀ u, m.Counts u) {budget : Option Nat} {args : Values}
    (hbegun : m.beginResume t budget args = r)
    (hworks : ∀ i ≤ k, (after i r).1.isWorkingAbove m.stack (after i r).2 = true)
    (hfatal : (after k r).2 = .error (.fatal f)) :
    ∃ acts, (after k r).1.stack = acts ++ m.stack ∧ Resuming t acts ∧
      (∀ i a rest u, i + 1 = k → (after i r).1.stack = a :: rest → u ∈ a.serves? → Resuming u acts) ∧
      ((∀ a ∈ acts, a.isTick = false) →
        (∀ j ≤ acts.length, (after (k + j) r).1.stack = acts.drop j ++ m.stack ∧
          (after (k + j) r).2 = .error (.fatal f)) ∧
        ∃ m', runAbove m.stack (k + acts.length) r.1 r.2 = some (m', .error (.fatal f)) ∧
          ∀ u, Resuming u acts → (m'.thread u).status = .dead ∧ (m'.thread u).frames = []) := by
  obtain ⟨acts, hstack, hgrounded, -⟩ := exists_grounded_of_resume hbegun fun i hi => hworks i (Nat.le_of_lt hi)
  refine ⟨acts, hstack, resuming_of_working hbegun hworks hstack, fun i a rest u hi hbefore hserves => ?_,
    fun hticks => ⟨fun j hj => ?_, _, runAbove_of_fatal hworks hfatal hstack hticks, fun u hu => ?_⟩⟩
  · subst hi
    rw [after_succ] at hstack
    exact resuming_of_step (exists_grounded_of_resume hbegun fun j hj => hworks j (Nat.le_of_lt (Nat.lt_succ_of_lt hj)))
      (hworks i (Nat.le_succ i)) hbefore hserves hstack
  · rw [after_add_fatal hfatal]
    exact after_fatal hstack hticks f hj
  · have hbegins : ∀ u, r.1.Counts u := hbegun ▸ counts_of_evolves hcounts ((Becomes.refl m).beginResume t budget args)
    rw [after_add_fatal hfatal]
    exact dead_after_fatal (counts_after hbegins k) hstack hticks hgrounded f hu

/-- A thread that resumes another one, which makes a protected call of a function without instructions. -/
def chained : Machine :=
  let natives := #[⟨"pcall", .base .pcall⟩, ⟨"coroutine.resume", .coroutine .resume⟩]
  let (m, c) := ({ Machine.new {} with natives } : Machine).addClosure ⟨{}, [], ⟨0⟩⟩
  let (m, t) := m.newThread (.native ⟨0⟩) [.closure c]
  (m.newThread (.native ⟨1⟩) [.thread t]).1

/-- The error goes through the protected call and finishes both threads. -/
theorem fatal_ends_resumes_chained :
    let begun := chained.beginResume ⟨1⟩ none []
    (∀ u, chained.Counts u) ∧
      (∀ i ≤ 3, (after i begun).1.isWorkingAbove chained.stack (after i begun).2 = true) ∧
      (after 3 begun).2 = .error (.fatal (.badProgramCounter 0)) ∧ .protect ∈ (after 3 begun).1.stack ∧
      ∃ m', runAbove chained.stack 10 begun.1 begun.2 = some (m', .error (.fatal (.badProgramCounter 0))) ∧
        ∀ u ∈ [(⟨0⟩ : ThreadId), ⟨1⟩], (m'.thread u).status = .dead ∧ (m'.thread u).frames = [] := by
  intro begun
  have hbecomes : (Machine.new {}).Becomes chained := by
    have hnatives : (Machine.new {}).Becomes { Machine.new {} with
        natives := #[⟨"pcall", .base .pcall⟩, ⟨"coroutine.resume", .coroutine .resume⟩] } :=
      (Becomes.refl _).of_eq rfl rfl rfl
    exact ((hnatives.addClosure _).newThread _ _).newThread _ _
  have hcounts := counts_of_evolves (tracked_new {}).counted hbecomes
  have hworks : ∀ i ≤ 3, (after i begun).1.isWorkingAbove chained.stack (after i begun).2 = true := by decide +kernel
  have hfatal : (after 3 begun).2 = .error (.fatal (.badProgramCounter 0)) := by decide +kernel
  have hlength : (after 3 begun).1.stack.length = 7 := by decide +kernel
  have hticks : ∀ a ∈ (after 3 begun).1.stack, a.isTick = false := by decide +kernel
  have hresuming : ∀ u ∈ [(⟨0⟩ : ThreadId), ⟨1⟩], Resuming u (after 3 begun).1.stack := by decide +kernel
  have hbegun : chained.beginResume ⟨1⟩ none [] = begun := rfl
  have hprotects : .protect ∈ (after 3 begun).1.stack := by decide +kernel
  have hrest : chained.stack = [] := rfl
  clear_value begun
  obtain ⟨acts, hstack, -, -, hends⟩ := fatal_ends_resumes hcounts hbegun hworks hfatal
  rw [hrest, List.append_nil] at hstack
  subst hstack
  obtain ⟨-, m', hrun, hdead⟩ := hends hticks
  rw [hlength] at hrun
  exact ⟨hcounts, hworks, hfatal, hprotects, m', hrun, fun u hu => hdead u (hresuming u hu)⟩

end Resumes

end Machine

end LuaMachine
