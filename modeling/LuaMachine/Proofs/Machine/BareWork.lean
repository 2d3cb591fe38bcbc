import LuaMachine.Proofs.Machine.Bare
import LuaMachine.Proofs.Machine.Levels
import LuaMachine.Proofs.Machine.BaseLibrary

namespace LuaMachine.Machine

variable {m n : Machine} {t : ThreadId}

section Calls

variable (u : ThreadId)

@[simp]
theorem callee?_bare (f : Value) (args inUse : Values) : (m.bare t).callee? f args inUse = m.callee? f args inUse := by
  cases f <;> simp [callee?]

@[simp]
theorem setStatus_bare (status : Status) : (m.bare t).setStatus u status = (m.setStatus u status).bare t :=
  modifyThread_bare fun _ => rfl

@[simp]
theorem beginCall_bare (f : Value) (args held : Values) :
    (m.bare t).beginCall u f args held = bareOf t (m.beginCall u f args held) := by
  have hbegun (idle : Bool) : (m.bare t).modifyThread u (fun th => { th with
        status := if idle then .running else th.status
        instructions := if idle then 0 else th.instructions
        nativeDepth := th.nativeDepth + 1 }) = (m.modifyThread u fun th => { th with
          status := if idle then .running else th.status
          instructions := if idle then 0 else th.instructions
          nativeDepth := th.nativeDepth + 1 }).bare t :=
    modifyThread_bare fun _ => by cases idle <;> rfl
  unfold beginCall
  dsimp only
  simp only [limits_bare, thread_bare, Thread.nativeDepth_bare, Thread.status_bare, Thread.errorHere_bare, callee?_bare,
    hbegun]
  split
  · rfl
  · split
    · rfl
    · generalize m.modifyThread u _ = begun
      rename_i callee args' _
      cases callee with
      | native id => exact congrArg (·, _) (push_bare rfl)
      | closure id =>
        simp only [Thread.depth_bare]
        rw [push_bare rfl, pushFrame_bare]
        rcases Machine.pushFrame _ u id args' .host with ⟨entered, s⟩
        cases s with
        | go => exact congrArg (·, _) (push_bare rfl)
        | _ => rfl

@[simp]
theorem callHandler_bare (h : Handler) (held : Values) :
    (m.bare t).callHandler u h held = bareOf t (m.callHandler u h held) := by
  rw [callHandler, push_bare rfl, beginCall_bare]
  rfl

@[simp]
theorem attempt_bare (a : Attempt) (held : Values) : (m.bare t).attempt u a held = bareOf t (m.attempt u a held) := by
  cases a with
  | handler h => exact callHandler_bare u h held
  | _ => rfl

@[simp]
theorem continueJoin_bare (reversed held : Values) :
    (m.bare t).continueJoin u reversed held = bareOf t (m.continueJoin u reversed held) := by
  unfold continueJoin
  rw [join_bare]
  split
  · rfl
  · rfl
  · rw [push_bare rfl, callHandler_bare]

@[simp]
theorem continuePrint_bare (args : Values) (shown : List String) (rest : Values) :
    (m.bare t).continuePrint u args shown rest = bareOf t (m.continuePrint u args shown rest) := by
  induction rest generalizing shown with
  | nil => rfl
  | cons v rest ih =>
    unfold continuePrint
    rw [toText_bare]
    split
    · rw [push_bare rfl, callHandler_bare]
    · rfl
    · exact ih _

@[simp]
theorem yieldNow_bare (vs : Values) : (m.bare t).yieldNow u vs = bareOf t (m.yieldNow u vs) := by
  unfold yieldNow
  simp only [thread_bare, Thread.status_bare, Thread.nativeDepth_bare, Thread.errorHere_bare]
  split
  · rfl
  · split
    · rfl
    · exact congrArg (·, _) (modifyThread_bare fun _ => rfl)

@[simp]
theorem takeYielded_bare : (m.bare t).takeYielded u = bareOf t (m.takeYielded u) := by
  unfold takeYielded
  rw [thread_bare]
  exact congrArg (·, _) (modifyThread_bare fun _ => rfl)

end Calls

section Resumes

variable (u : ThreadId)

/-- What respects the traces of a budget is alike on alike machines. -/
theorem bareOf_congr {α : Type} {f : Machine → Machine × α} (hf : ∀ m : Machine, f (m.bare t) = bareOf t (f m))
    (h : m.bare t = n.bare t) : bareOf t (f m) = bareOf t (f n) := by
  rw [← hf, h, hf]

theorem bare_modifyThread_congr (h : m.bare t = n.bare t) {f : Thread → Thread}
    (hf : ∀ th, (f th.bare).bare = (f th).bare) : (m.modifyThread u f).bare t = (n.modifyThread u f).bare t := by
  have hbare (m : Machine) : (m.modifyThread u f).bare t = (m.bare t).modifyThread u fun th => (f th).bare :=
    (modifyThread_bare hf).symm
  rw [hbare, h, hbare]

/-- The threads of alike machines differ in their counts only. -/
theorem thread_congr (h : m.bare t = n.bare t) :
    n.thread u = { m.thread u with instructions := (n.thread u).instructions } := by
  have hbare : (m.thread u).bare = (n.thread u).bare := by
    rw [← thread_bare (t := t), h, thread_bare]
  rw [Thread.bare, Thread.bare, Thread.mk.injEq] at hbare
  rw [Thread.mk.injEq]
  simp_all

/-- Alike work comes on top of alike machines. -/
theorem bare_push_congr (h : m.bare t = n.bare t) {a b : Activation} (hab : a.bare t = b.bare t) :
    (m.push a).bare t = (n.push b).bare t := by
  rw [bare, bare, Machine.mk.injEq] at h ⊢
  simp_all [push]

/-- Whatever the budgets, a thread begins alike with its start function. -/
theorem bareOf_beginStart (h : m.bare t = n.bare t) (limit limit' : Option Nat) (f : Value) (args : Values) :
    bareOf t (m.beginStart u limit f args) = bareOf t (n.beginStart u limit' f args) := by
  have hcallee : n.callee? f args [] = m.callee? f args [] := by
    rw [← callee?_bare (t := t), ← h, callee?_bare]
  unfold beginStart
  rw [hcallee]
  split
  · exact congrArg (·, _) h
  · rename_i id args' _
    have hpushed := bareOf_congr (f := fun m => m.pushFrame u id args' .host) (fun _ => by simp) h
    rcases hm : m.pushFrame u id args' .host with ⟨m', s⟩
    rcases hn : n.pushFrame u id args' .host with ⟨n', s'⟩
    rw [hm, hn] at hpushed
    obtain ⟨hentered, rfl⟩ := Prod.mk.inj hpushed
    cases s with
    | go => exact congrArg (·, _) (bare_push_congr hentered rfl)
    | _ => exact congrArg (·, _) hentered
  · exact congrArg (·, _) (bare_push_congr h rfl)

/-- The end of a resume of the thread itself may be anywhere. -/
theorem bare_endResume_congr {floor floor' : Nat} (hfloor : u = t ∨ floor = floor') (held : Values) :
    (Activation.endResume u floor held).bare t = (Activation.endResume u floor' held).bare t := by
  rw [Activation.bare_endResume, Activation.bare_endResume]
  obtain rfl | rfl := hfloor
  · rw [if_pos rfl, if_pos rfl]
  · rfl

theorem bareOf_beginResumed (h : m.bare t = n.bare t) {floor floor' : Nat} (hfloor : u = t ∨ floor = floor')
    (limit limit' : Option Nat) (args : Values) :
    bareOf t (m.beginResumed u floor limit args) = bareOf t (n.beginResumed u floor' limit' args) := by
  have hstart : (n.thread u).start = (m.thread u).start := by rw [thread_congr u h]
  have hpending : (n.thread u).hostReturnPending = (m.thread u).hostReturnPending := by
    rw [thread_congr u h]
  have hframes : (n.thread u).frames = (m.thread u).frames := by rw [thread_congr u h]
  have hbegun (held : Values) := bare_push_congr h (bare_endResume_congr u hfloor held)
  unfold beginResumed
  dsimp only
  rw [hstart, hpending, hframes]
  split
  · exact bareOf_beginStart u (bare_modifyThread_congr u (hbegun []) (by intro; rfl)) _ _ _ _
  · split
    · exact congrArg (·, _) (bare_modifyThread_congr u (hbegun []) (by intro; rfl))
    · split
      · exact congrArg (·, _) (hbegun [])
      · split
        · exact congrArg (·, _) (bare_push_congr (hbegun args) rfl)
        · have hcompleted := bareOf_congr (f := fun m => m.completePending u args 0) (fun _ => by simp) (hbegun [])
          rcases hm : (m.push (.endResume u floor [])).completePending u args 0 with ⟨m', s⟩
          rcases hn : (n.push (.endResume u floor' [])).completePending u args 0 with ⟨n', s'⟩
          rw [hm, hn] at hcompleted
          obtain ⟨hdone, rfl⟩ := Prod.mk.inj hcompleted
          cases s with
          | go => exact congrArg (·, _) (bare_push_congr hdone rfl)
          | _ => exact congrArg (·, _) hdone

/-- Whatever the budgets, resumes begin alike. -/
theorem bareOf_beginResume (h : m.bare t = n.bare t) (budget budget' : Option Nat) (args : Values) :
    bareOf t (m.beginResume u budget args) = bareOf t (n.beginResume u budget' args) := by
  have hsleep : (n.thread u).sleep = (m.thread u).sleep := by rw [thread_congr u h]
  have hstatus : (n.thread u).status = (m.thread u).status := by rw [thread_congr u h]
  have hdepth : (n.thread u).depth = (m.thread u).depth := by rw [thread_congr u h]
  unfold beginResume
  dsimp only
  rw [hsleep, hstatus, hdepth]
  split
  · exact congrArg (·, _) (bare_modifyThread_congr u h (by intro; rfl))
  · split
    · exact congrArg (·, _) h
    · split
      · exact congrArg (·, _) h
      · exact bareOf_beginResumed u (bare_modifyThread_congr u h (by intro; rfl)) (Or.inr rfl) _ _ args

theorem bareOf_beginResumeFrom (h : m.bare t = n.bare t) (target : ThreadId) (wrapped : Bool) (args : Values) :
    bareOf t (m.beginResumeFrom u target wrapped args) = bareOf t (n.beginResumeFrom u target wrapped args) := by
  have hstatus : (n.thread u).status = (m.thread u).status := by rw [thread_congr u h]
  have hpushed := bare_push_congr h (rfl : (Activation.resumed u (m.thread u).status wrapped target).bare t = _)
  have hbusy : (n.push (.resumed u (m.thread u).status wrapped target)).isBusy target =
      (m.push (.resumed u (m.thread u).status wrapped target)).isBusy target := by
    rw [← isBusy_bare (t := t), ← hpushed, isBusy_bare]
  unfold beginResumeFrom
  dsimp only
  rw [hstatus, hbusy]
  split
  · exact congrArg (·, _) hpushed
  · exact bareOf_beginResume target (bare_modifyThread_congr u hpushed (by intro; rfl)) _ _ args

@[simp]
theorem addToGroup_bare (g : GroupId) : (m.bare t).addToGroup g u = (m.addToGroup g u).bare t := by
  unfold addToGroup
  rw [isBusy_bare, destroyThread_bare]
  simp only [apply_ite (fun m : Machine => m.bare t)]
  rfl

end Resumes

section Library

variable (u : ThreadId) (args : Values)

@[simp]
theorem argumentError_bare (i : Nat) (name expected : String) (got : Value) :
    (m.bare t).argumentError u i name expected got = m.argumentError u i name expected got := by
  simp [argumentError]

@[simp]
theorem requireArg_bare (i : Nat) (name : String) :
    (m.bare t).requireArg u args i name = m.requireArg u args i name := by
  simp [requireArg]

@[simp]
theorem optionalInteger_bare (i : Nat) (name : String) (fallback : Int64) :
    (m.bare t).optionalInteger u args i name fallback = m.optionalInteger u args i name fallback := by
  simp [optionalInteger]

@[simp]
theorem requireTable_bare (i : Nat) (name : String) :
    (m.bare t).requireTable u args i name = m.requireTable u args i name := by
  simp [requireTable]

@[simp]
theorem requireThread_bare (i : Nat) (name : String) :
    (m.bare t).requireThread u args i name = m.requireThread u args i name := by
  simp [requireThread]

@[simp]
theorem requireFunction_bare (name : String) :
    (m.bare t).requireFunction u args name = m.requireFunction u args name := by
  simp [requireFunction]

/-- Base functions check their arguments alike. -/
@[simp]
theorem base_bare (f : BaseFunction) : (m.bare t).base u f args = m.base u f args := by
  cases f with
  | assert => simp [base, baseAssert]
  | error => simp [base, baseError, Thread.position]
  | next => simp [base, baseNext]
  | ipairsNext => simp [base, baseIpairsNext]
  | select => simp [base, baseSelect]
  | tonumber => simp [base, baseTonumber]
  | rawset => simp [base, baseRawset]
  | setmetatable => simp [base, baseSetmetatable]
  | getmetatable => simp [base, baseGetmetatable]
  | unpack => simp [base, baseUnpack]
  | _ => simp [base]

/-- An effect that is alike on alike machines. -/
def Respects (t : ThreadId) (effect : Effect) : Prop :=
  ∀ m n : Machine, m.bare t = n.bare t → bareOf t (effect m) = bareOf t (effect n)

theorem Respects.of_bare {effect : Effect} (h : ∀ m, effect (m.bare t) = bareOf t (effect m)) : Respects t effect :=
  fun _ _ hbare => bareOf_congr h hbare

theorem BaseEffect.respects {effect : Effect} (h : BaseEffect u args effect) : Respects t effect := by
  apply Respects.of_bare
  intro m
  cases h with
  | answer | iterate => rfl
  | protect f =>
    dsimp only
    rw [push_bare rfl, beginCall_bare]
  | convert v => simp
  | store id key value => simp
  | install id metatable => simp [setMetatable]
  | print => simp

@[simp]
theorem coroutine_bare (f : CoroutineFunction) : (m.bare t).coroutine u f args = m.coroutine u f args := by
  cases f <;> simp [coroutine]

theorem checked_respects_coroutine (f : CoroutineFunction) : Checked (Respects t) (m.coroutine u f args) := by
  cases f with
  | create =>
    refine (m.checked_requireFunction u args _).bind fun f _ => .of_bare fun m => ?_
    simp [bareOf]
  | resume =>
    refine (m.checked_requireThread u args 1 _).bind fun target _ => ?_
    exact fun _ _ h => bareOf_beginResumeFrom u h target false _
  | yield => exact Respects.of_bare fun _ => yieldNow_bare u args
  | status =>
    refine (m.checked_requireThread u args 1 _).bind fun target _ => ?_
    exact Respects.of_bare fun _ => rfl
  | wrap =>
    refine (m.checked_requireFunction u args _).bind fun f _ => .of_bare fun m => ?_
    simp [bareOf]
  | running => exact Respects.of_bare fun _ => rfl
  | wait =>
    refine (m.checked_optionalInteger u args 1 _ 1).bind fun ticks _ => .of_bare fun m => ?_
    dsimp only
    rw [yieldNow_bare]
    rcases m.yieldNow u [] with ⟨yielded, s⟩
    cases s with
    | error e =>
      cases e with
      | yield => exact congrArg (·, Signal.error .yield) (modifyThread_bare fun _ => rfl)
      | _ => rfl
    | _ => rfl

theorem checked_respects_spawn (name : String) (g : GroupId) : Checked (Respects t) (m.spawnFrom u name g args) := by
  refine (m.checked_requireArg u args 1 _).bind fun f _ => .of_bare fun m => ?_
  simp [bareOf]

/-- The functions of the library check their arguments alike, and have effects that are alike. -/
theorem effect_bare {body : Builtin} (h : body.IsLibrary ∨ body = .host .nothing) :
    (m.bare t).effect u body args = m.effect u body args ∧ Checked (Respects t) (m.effect u body args) := by
  cases body with
  | base f => exact ⟨base_bare u args f, (m.checked_base u f args).imp fun _ => BaseEffect.respects u args⟩
  | coroutine f => exact ⟨coroutine_bare u args f, checked_respects_coroutine u args f⟩
  | wrapped target => exact ⟨rfl, fun _ _ hbare => bareOf_beginResumeFrom u hbare target true args⟩
  | spawn name => exact ⟨by simp [effect, spawnFrom], checked_respects_spawn u args name ⟨0⟩⟩
  | host op =>
    obtain hnot | hop := h
    · cases hnot
    · cases hop
      exact ⟨rfl, Respects.of_bare fun _ => rfl⟩
  | group id action =>
    obtain hnot | hop := h
    · cases hnot
    · cases hop

/-- Alike machines invoke functions of the library alike. -/
theorem bareOf_invoke (h : m.bare t = n.bare t) {id : NativeId}
    (hlibrary : (m.native id).body.IsLibrary ∨ (m.native id).body = .host .nothing) :
    bareOf t (m.invoke u id args) = bareOf t (n.invoke u id args) := by
  have hused : ({ m with inUse := args } : Machine).bare t = ({ n with inUse := args } : Machine).bare t :=
    congrArg (fun m : Machine => { m with inUse := args }) h
  have hnative : n.native id = m.native id := by
    rw [← native_bare (t := t), ← h, native_bare]
  have heffect : ({ n with inUse := args } : Machine).effect u (m.native id).body args =
      ({ m with inUse := args } : Machine).effect u (m.native id).body args := by
    rw [← (effect_bare (t := t) u args hlibrary).1, ← hused, (effect_bare u args hlibrary).1]
  have hrespects := (effect_bare (m := { m with inUse := args }) (t := t) u args hlibrary).2
  unfold invoke
  dsimp only
  rw [show ({ n with inUse := args } : Machine).native id = m.native id from hnative, heffect]
  rw [show ({ m with inUse := args } : Machine).native id = m.native id from rfl]
  generalize Machine.effect _ u (m.native id).body args = checked at hrespects ⊢
  cases checked with
  | ok effect => exact hrespects _ _ hused
  | error e => exact congrArg (·, _) hused

end Library

end LuaMachine.Machine
