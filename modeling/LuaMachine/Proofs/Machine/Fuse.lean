import LuaMachine.Proofs.Machine.InstructionCount
import LuaMachine.Proofs.Machine.NumericLoop
import Mathlib.Data.Nat.Init

namespace LuaMachine.Machine

variable {limits : Limits} {below acts : List Activation} {c : ThreadId} {k : Nat} {m : Machine} {i : Interpreter}
  {w : Window} {s : Signal} {r : Machine × Signal}

section Instructions

/-- Whether an interpreter is about to run an instruction of the thread `c`, if the fuse leaves it one. -/
def attemptsInstruction (m : Machine) (c : ThreadId) : Signal → Bool
  | .go =>
    match m.stack with
    | .interpret i :: _ =>
      i.thread == c && match i.stage with
        | .running _ => true
        | .entering => (m.topFrame? i.thread).isSome
        | .waiting .. => false
    | _ => false
  | _ => false

instance (m : Machine) (t : ThreadId) : Decidable (m.MayRun t) :=
  inferInstanceAs (Decidable (∀ fuse ∈ m.limits.fuse, (m.thread t).instructions < fuse))

/-- Whether the next step runs an instruction of the thread `c`. -/
def runsInstruction (m : Machine) (c : ThreadId) (s : Signal) : Bool := m.attemptsInstruction c s && decide (m.MayRun c)

/-- How many instructions of the thread `c` the next `k` steps run. -/
def instructionsRun (c : ThreadId) (k : Nat) (r : Machine × Signal) : Nat :=
  (List.range k).countP fun i => (after i r).1.runsInstruction c (after i r).2

theorem attemptsInstruction_iff : m.attemptsInstruction c s = true ↔
    s = .go ∧ ∃ i w acts, i.thread = c ∧ m.Reads i w acts := by
  constructor
  · intro h
    unfold attemptsInstruction at h
    split at h
    · split at h
      · rename_i i acts hstack
        obtain ⟨hthread, hstage⟩ := Bool.and_eq_true_iff.mp h
        refine ⟨rfl, i, ?_⟩
        split at hstage
        · rename_i w hrunning
          exact ⟨w, acts, beq_iff_eq.mp hthread, hstack, Or.inl hrunning⟩
        · rename_i hentering
          obtain ⟨top, htop⟩ := Option.isSome_iff_exists.mp hstage
          exact ⟨_, acts, beq_iff_eq.mp hthread, hstack, Or.inr ⟨hentering, top, htop, rfl⟩⟩
        · cases hstage
      · cases h
    · cases h
  · rintro ⟨rfl, i, w, acts, hthread, hstack, hstage⟩
    unfold attemptsInstruction
    rw [hstack]
    dsimp only
    rw [beq_iff_eq.mpr hthread, Bool.true_and]
    obtain hrunning | ⟨hentering, top, htop, -⟩ := hstage
    · rw [hrunning]
    · rw [hentering]
      exact Option.isSome_iff_exists.mpr ⟨top, htop⟩

theorem instructionsRun_succ (c : ThreadId) (k : Nat) (r : Machine × Signal) : instructionsRun c (k + 1) r =
    instructionsRun c k r + if (after k r).1.runsInstruction c (after k r).2 then 1 else 0 := by
  rw [instructionsRun, List.range_succ, List.countP_append, List.countP_singleton, instructionsRun]

/-- An instruction that the fuse does not leave to the thread is refused. -/
theorem Reads.step_spent (h : m.Reads i w acts) {n : Nat} (hfuse : m.limits.fuse = some n)
    (hspent : n ≤ (m.thread i.thread).instructions) :
    (m.step .go).2 = .error (.fatal (.instructionFuse n)) := by
  rw [h.step_eq, advance, Machine.execute, show (m.reading i w).limits.fuse = some n from hfuse]
  dsimp only
  rw [if_pos (show n ≤ ((m.reading i w).thread i.thread).instructions from hspent)]
  rfl

/-- A step before the end of a resume counts the instruction that it runs, unless it ends the thread. -/
theorem Counting.step (h : Counting limits below c k m)
    (hends : ∀ id args, s = .invoke c id args → (m.native id).body.endsThread = false)
    (hlater : (m.step s).1.isWorkingAbove below (m.step s).2 = true) :
    Counting limits below c (k + if m.runsInstruction c s then 1 else 0) (m.step s).1 := by
  by_cases hinvoke : ∃ u id args, s = .invoke u id args
  · obtain ⟨u, id, args, rfl⟩ := hinvoke
    refine h.invoke (fun huc => hends id args ?_) args
    rw [huc]
  · have hnot (u : ThreadId) (id : NativeId) (args : Values) : s ≠ .invoke u id args :=
      fun heq => hinvoke ⟨u, id, args, heq⟩
    obtain ⟨acts, floor, held, hstack, -⟩ := h.above
    cases acts with
    | nil =>
      -- The end of the resume takes the signal.
      let n : Machine := { m with inUse := [], stack := below }
      have hdone := isWorkingAbove_eq_false (n.confined_stepEndResume c floor s).stack
        (n.ne_invoke_stepEndResume c floor hnot)
      rw [step_cons hstack hnot] at hlater
      exact absurd hlater (Bool.eq_false_iff.mp hdone)
    | cons a acts =>
      have habove : below.length < (acts ++ .endResume c floor held :: below).length := by
        rw [List.length_append, List.length_cons]
        omega
      have hcleared : Counting limits below c k ({ m with inUse := [] } : Machine) := h.of_eq rfl rfl rfl
      split
      · rename_i hruns
        obtain ⟨rfl, i, w, rest, rfl, hreads⟩ := attemptsInstruction_iff.mp (Bool.and_eq_true_iff.mp hruns).1
        obtain ⟨rfl, rfl⟩ := List.cons.inj (hstack.symm.trans hreads.stack)
        have hreading : Counting limits below i.thread k (m.reading i w) :=
          (hcleared.popTop hstack habove).interpret _
        have hbelow : (m.reading i w).stack = .interpret { i with stage := .running w } :: _ :=
          congrArg _ (congrArg List.tail hstack)
        rw [hreads.step_eq, advance]
        exact (hreading.execute w).conclude ((ends_execute _ i w).confined.stack.trans hbelow) habove i _ _
      · rw [step_cons hstack hnot]
        exact hcleared.resumeWork hstack habove s

end Instructions

section Resumes

variable {budget : Option Nat} {args : Values} {n j : Nat}

/-- As long as a resume is not over, its thread has counted the instructions that it ran. -/
theorem counting_after (hbegun : m.beginResume c budget args = r)
    (hworks : ∀ i ≤ k, (after i r).1.isWorkingAbove m.stack (after i r).2 = true)
    (hends : ∀ i < k, ∀ id args, (after i r).2 = .invoke c id args →
      ((after i r).1.native id).body.endsThread = false) :
    Counting m.limits m.stack c (instructionsRun c k r) (after k r).1 := by
  induction k with
  | zero => exact .of_beginResume hbegun (hworks 0 (Nat.le_refl 0))
  | succ k ih =>
    have hcounting := ih (fun i hi => hworks i (Nat.le_succ_of_le hi)) fun i hi => hends i (Nat.lt_succ_of_lt hi)
    have hlater := hworks (k + 1) (Nat.le_refl _)
    rw [after_succ] at hlater ⊢
    rw [instructionsRun_succ]
    exact hcounting.step (hends k (Nat.lt_succ_self k)) hlater

/-- The count of the thread does not go back before the resume is over. -/
theorem instructions_mono (hbegun : m.beginResume c budget args = r)
    (hworks : ∀ i ≤ k, (after i r).1.isWorkingAbove m.stack (after i r).2 = true)
    (hends : ∀ i < k, ∀ id args, (after i r).2 = .invoke c id args →
      ((after i r).1.native id).body.endsThread = false) (hj : j ≤ k) :
    ((after j r).1.thread c).instructions ≤ ((after k r).1.thread c).instructions := by
  induction k, hj using Nat.le_induction with
  | base => exact Nat.le_refl _
  | succ k _ ih =>
    have hearlier (i : Nat) (hi : i ≤ k) := hworks i (Nat.le_succ_of_le hi)
    have hkept (i : Nat) (hi : i < k) := hends i (Nat.lt_succ_of_lt hi)
    have hcounting := (counting_after hbegun hearlier hkept).recount
    have hlater := hworks (k + 1) (Nat.le_refl _)
    rw [after_succ] at hlater ⊢
    calc ((after j r).1.thread c).instructions
      _ ≤ ((after k r).1.thread c).instructions := ih hearlier hkept
      _ ≤ _ := Nat.le_add_right _ _
      _ ≤ _ := (hcounting.step (hends k (Nat.lt_succ_self k)) hlater).count

/-- An instruction that a spent fuse refuses fails for good, and so does the resume. -/
theorem fatal_of_refused {fuse : Nat} (hfuse : m.limits.fuse = some fuse)
    (hworks : ∀ i ≤ k, (after i r).1.isWorkingAbove m.stack (after i r).2 = true)
    (hcounting : Counting m.limits m.stack c n (after k r).1)
    (hattempts : (after k r).1.attemptsInstruction c (after k r).2 = true)
    (hrefused : (after k r).1.runsInstruction c (after k r).2 = false) :
    (after (k + 1) r).2 = .error (.fatal (.instructionFuse fuse)) ∧
      ∃ acts, (after (k + 1) r).1.stack = acts ++ m.stack ∧ ((∀ a ∈ acts, a.isTick = false) →
        ∃ m', runAbove m.stack (k + 1 + acts.length) r.1 r.2 = some (m', .error (.fatal (.instructionFuse fuse)))) := by
  obtain ⟨hgo, i, w, rest, hthread, hreads⟩ := attemptsInstruction_iff.mp hattempts
  have hspent : ¬(after k r).1.MayRun c := by
    rw [runsInstruction, hattempts, Bool.true_and] at hrefused
    exact of_decide_eq_false hrefused
  have hlimit : (after k r).1.limits.fuse = some fuse := by rw [hcounting.limits, hfuse]
  have hfails : (after (k + 1) r).2 = .error (.fatal (.instructionFuse fuse)) := by
    rw [after_succ, hgo]
    refine hreads.step_spent hlimit ?_
    rw [hthread]
    refine Nat.not_lt.mp fun hleft => hspent fun other hother => ?_
    obtain rfl : fuse = other := Option.some.inj (hlimit.symm.trans hother)
    exact hleft
  obtain ⟨acts, floor, held, hstack, -⟩ := hcounting.above
  have hsuffix : .endResume c floor held :: m.stack <:+ (after (k + 1) r).1.stack := by
    rw [after_succ]
    refine suffix_step (hstack ▸ List.suffix_append acts _) ((isWorkingAbove_iff _ _ _).mpr (Or.inr ?_))
    cases acts with
    | nil => cases hstack.symm.trans hreads.stack
    | cons a acts =>
      rw [hstack, List.length_append, List.length_cons]
      exact Nat.lt_add_of_pos_left (Nat.succ_pos acts.length)
  obtain ⟨above, habove⟩ := (List.suffix_cons _ m.stack).trans hsuffix
  refine ⟨hfails, above, habove.symm, fun hticks => ⟨_, runAbove_of_fatal (fun i hi => ?_) hfails habove.symm hticks⟩⟩
  obtain hi | rfl := Nat.lt_or_eq_of_le hi
  · exact hworks i (Nat.lt_succ_iff.mp hi)
  · exact (isWorkingAbove_iff _ _ _).mpr (Or.inr hsuffix.length_le)

/-- The fuse bounds a whole resume, unless a native function ends the thread in the middle of it. Whatever interpreters
run, the thread runs at most as many instructions as the fuse allows and nothing takes its count back. With the next
instruction the resume fails for good. It ends with the error of the fuse, unless a group waits for a tick in
between. -/
theorem fuse_bounds_resume {fuse : Nat} (hfuse : m.limits.fuse = some fuse) (hbegun : m.beginResume c budget args = r)
    (hworks : ∀ i < k, (after i r).1.isWorkingAbove m.stack (after i r).2 = true)
    (hends : ∀ i < k, ∀ id args, (after i r).2 = .invoke c id args →
      ((after i r).1.native id).body.endsThread = false) :
    instructionsRun c k r ≤ fuse ∧
      (∀ i j, i ≤ j → j < k → ((after i r).1.thread c).instructions ≤ ((after j r).1.thread c).instructions) ∧
      ∀ i < k, (after i r).1.attemptsInstruction c (after i r).2 = true →
        (after i r).1.runsInstruction c (after i r).2 = false →
        (after (i + 1) r).2 = .error (.fatal (.instructionFuse fuse)) ∧
          ∃ acts, (after (i + 1) r).1.stack = acts ++ m.stack ∧ ((∀ a ∈ acts, a.isTick = false) → ∃ m',
            runAbove m.stack (i + 1 + acts.length) r.1 r.2 = some (m', .error (.fatal (.instructionFuse fuse)))) := by
  have hcounting (i : Nat) (hi : i < k) : Counting m.limits m.stack c (instructionsRun c i r) (after i r).1 :=
    counting_after hbegun (fun j hj => hworks j (Nat.lt_of_le_of_lt hj hi)) fun j hj => hends j (Nat.lt_trans hj hi)
  refine ⟨?_, fun i j hij hj => ?_, fun i hi hattempts hrefused => ?_⟩
  · induction k with
    | zero => exact Nat.zero_le _
    | succ k ih =>
      rw [instructionsRun_succ]
      split
      · -- The instruction ran because the count, and with it what ran before, was below the fuse.
        rename_i hruns
        have hlast := hcounting k (Nat.lt_succ_self k)
        have hmay := of_decide_eq_true (Bool.and_eq_true_iff.mp hruns).2
        exact Nat.lt_of_le_of_lt hlast.count (hmay fuse (by rw [hlast.limits]; exact hfuse))
      · exact ih (fun i hi => hworks i (Nat.lt_succ_of_lt hi)) (fun i hi => hends i (Nat.lt_succ_of_lt hi))
          fun i hi => hcounting i (Nat.lt_succ_of_lt hi)
  · exact instructions_mono hbegun (fun i hi => hworks i (Nat.lt_of_le_of_lt hi hj))
      (fun i hi => hends i (Nat.lt_trans hi hj)) hij
  · exact fatal_of_refused hfuse (fun j hj => hworks j (Nat.lt_of_le_of_lt hj hi)) (hcounting i hi) hattempts
      hrefused

/-- A function of three instructions. -/
def threeInstructions : Prototype :=
  { stackSize := 1, code := #[.ofABC .loadNil 0 0 0, .ofABC .loadNil 0 0 0, .ofABC .ret 0 1 0] }

/-- With a fuse of two instructions it is not over in time. -/
example :
    let m := ({ Machine.new { fuse := some 2 } with closures := #[⟨threeInstructions, [], ⟨0⟩⟩] }.newThread
      (.closure ⟨0⟩) []).1
    instructionsRun ⟨0⟩ 3 (m.beginResume ⟨0⟩ none []) = 2 ∧
      (m.operate 4 (.resume ⟨0⟩ none [])).map Prod.snd = some (.error (.fatal (.instructionFuse 2))) := by
  decide +kernel

end Resumes

end LuaMachine.Machine
