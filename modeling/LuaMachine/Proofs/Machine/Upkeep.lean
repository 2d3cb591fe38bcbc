import LuaMachine.Library.Host
import LuaMachine.Machine.Step
import LuaMachine.Proofs.Machine.BaseLibrary
import LuaMachine.Proofs.Machine.Results

namespace LuaMachine

/-- What a native function hands to its caller: values, or an error that a program can raise itself. -/
def Signal.IsAnswer : Signal → Prop
  | .values _ => True
  | .error e => e.IsRaised
  | _ => False

/-- What comes of entering a closure, of leaving a frame and of passing values on: there is more to run, or there are
values or an error for whoever waits for them. -/
def Signal.IsResult : Signal → Prop
  | .go => True
  | .values _ => True
  | .error _ => True
  | _ => False

theorem Signal.IsAnswer.isResult {s : Signal} (h : s.IsAnswer) : s.IsResult := by
  cases s with
  | values | error => trivial
  | go | invoke | yielded | frameLimit | sleeping => cases h

/-- Whether an operation of a host leaves its thread running, and reports only what a program can raise itself. -/
def HostOperation.IsPlain : HostOperation → Bool
  | .yield => false
  | .sleep => false
  | .destroy => false
  | .jump => false
  | .resume => false
  | .failFatal => false
  | .escapeYield => false
  | _ => true

namespace Machine

variable {m : Machine} {t : ThreadId} {P : Machine → Prop} {Q : Machine → Signal → Prop}

section Results

variable (m) (t)

theorem isResult_pushFrame (id : ClosureId) (args : Values) (target : ReturnTarget) :
    (m.pushFrame t id args target).2.IsResult := by
  unfold pushFrame
  dsimp only
  split <;> trivial

theorem isResult_deliver (target : ReturnTarget) (vs : Values) : (m.deliver t target vs).2.IsResult := by
  have hstored : (m.storeResults t target vs).2.IsResult := by
    unfold storeResults
    split
    · trivial
    · dsimp only
      split <;> trivial
  have hiterator (m : Machine) (a : Nat) : (m.iteratorStep t a).2.IsResult := by
    unfold iteratorStep
    split
    · trivial
    · dsimp only
      split <;> trivial
  unfold deliver
  split
  · exact hstored
  · split
    · exact hiterator _ _
    · exact hstored
  · trivial

theorem isResult_finishReturn (vs : Values) (floor : Nat) : (m.finishReturn t vs floor).2.IsResult := by
  unfold finishReturn
  split
  · trivial
  · dsimp only
    split
    · trivial
    · exact isResult_deliver _ t _ vs

theorem isResult_completePending (vs : Values) (floor : Nat) : (m.completePending t vs floor).2.IsResult := by
  unfold completePending
  split
  · trivial
  · split
    · trivial
    · dsimp only
      split
      · exact isResult_finishReturn _ t vs floor
      · exact isResult_deliver _ t _ vs

theorem isResult_yieldNow (vs : Values) : (m.yieldNow t vs).2.IsResult := by
  unfold yieldNow
  dsimp only
  split
  · trivial
  · split <;> trivial

end Results

section Beginnings

/-- The machine while a call from native code is in progress on the thread `t`, which counts as running. -/
def called (m : Machine) (t : ThreadId) : Machine :=
  let idle := !(m.thread t).status.isActive
  m.modifyThread t fun th => { th with
    status := if idle then .running else th.status
    instructions := if idle then 0 else th.instructions
    nativeDepth := th.nativeDepth + 1 }

/-- The end of such a call, which gives the thread the status back that it had if it was idle. -/
def endOfCall (m : Machine) (t : ThreadId) (floor : Option Nat) (held : Values) : Activation :=
  let idle := !(m.thread t).status.isActive
  .endCall t floor (if idle then some (m.thread t).status else none) held

/-- Entering a closure and going on after a call keep the property `P` of machines, and `Q` holds once the thread `t`
has begun to run with the frame limit `limit`, or has failed to. -/
structure Entering (t : ThreadId) (limit : Option Nat) (P : Machine → Prop) (Q : Machine → Signal → Prop) : Prop where
  hands : ∀ {m : Machine} {s : Signal}, P m → s.IsResult → s ≠ .go → Q m s
  enters : ∀ {m : Machine} (id : ClosureId) (args : Values), P m → P (m.pushFrame t id args .host).1
  completes : ∀ {m : Machine} (args : Values), P m → P (m.completePending t args 0).1
  starts : ∀ {m : Machine}, P m → P (m.modifyThread t fun th => { th with start := none })
  returns : ∀ {m : Machine}, P m → P (m.modifyThread t fun th => { th with hostReturnPending := false })
  waits : ∀ {m : Machine} (held : Values), P m → P (m.push (.startedNative t held))
  invokes : ∀ {m : Machine} (id : NativeId) (args : Values), P m → Q m (.invoke t id args)
  runs : ∀ {m : Machine} (floor : Nat), P m → Q (m.push (.interpret ⟨t, floor, limit, .entering⟩)) .go

namespace Entering

variable {limit : Option Nat}

theorem beginCall (e : Entering t none P Q) (hfails : ∀ error, Q m (.error error))
    (hcalled : ∀ floor held, P ((m.called t).push (m.endOfCall t floor held))) (f : Value) (args held : Values) :
    Q (m.beginCall t f args held).1 (m.beginCall t f args held).2 := by
  unfold Machine.beginCall
  extract_lets th idle previous begun floor pushed
  split
  · exact hfails _
  · split
    · exact hfails _
    · rename_i callee args' _
      cases callee with
      | native id => exact e.invokes _ _ (hcalled none _)
      | closure id =>
        have hentered : P (pushed.pushFrame t id args' .host).1 := e.enters id args' (hcalled (some floor) (f :: held))
        have hresult := isResult_pushFrame pushed t id args' .host
        dsimp only
        split
        · rename_i heq
          rw [heq] at hentered
          exact e.runs floor hentered
        · rename_i hfailed
          exact e.hands hentered hresult fun hgo => hfailed _ (Prod.ext rfl hgo)

theorem beginStart (e : Entering t limit P Q) (h : P m) (f : Value) (args : Values) :
    Q (m.beginStart t limit f args).1 (m.beginStart t limit f args).2 := by
  unfold Machine.beginStart
  split
  · exact e.hands (s := .error _) h trivial (by rintro ⟨⟩)
  · rename_i id args' _
    have hentered := e.enters id args' h
    have hresult := isResult_pushFrame m t id args' .host
    split
    · rename_i heq
      rw [heq] at hentered
      exact e.runs 0 hentered
    · rename_i hfailed
      exact e.hands hentered hresult fun hgo => hfailed _ (Prod.ext rfl hgo)
  · exact e.invokes _ _ (e.waits _ h)

/-- A thread is resumed, with the end of the resume below its work. -/
theorem beginResumed (e : Entering t limit P Q) (floor : Nat) (h : ∀ held, P (m.push (.endResume t floor held)))
    (args : Values) : Q (m.beginResumed t floor limit args).1 (m.beginResumed t floor limit args).2 := by
  unfold Machine.beginResumed
  dsimp only
  split
  · exact e.beginStart (e.starts (h [])) _ _
  · split
    · exact e.hands (s := .values _) (e.returns (h [])) trivial (by rintro ⟨⟩)
    · split
      · exact e.hands (s := .error _) (h []) trivial (by rintro ⟨⟩)
      · split
        · exact e.runs 0 (h args)
        · have hcompleted := e.completes args (h [])
          have hresult := isResult_completePending (m.push (.endResume t floor [])) t args 0
          split
          · rename_i heq
            rw [heq] at hcompleted
            exact e.runs 0 hcompleted
          · rename_i hother
            exact e.hands hcompleted hresult fun hgo => hother _ (Prod.ext rfl hgo)

end Entering

end Beginnings

section Natives

/-- What the thread `t` does for itself keeps the property `P` of machines, and `Q` holds of what it hands on. -/
structure Upkeep (t : ThreadId) (P : Machine → Prop) (Q : Machine → Signal → Prop) : Prop where
  answers : ∀ {m : Machine} {s : Signal}, P m → s.IsAnswer → Q m s
  edits : ∀ {m : Machine} (tables : Array Table) (printed : List String) (inUse : Values), P m →
    P { m with tables, printed, inUse }
  names : ∀ {m : Machine} (f : BaseFunction), P m → P (m.newBase f).1
  begins : ∀ {m : Machine} {a : Activation}, P m → a.Passes t → P (m.push a)
  calls : ∀ {m : Machine} (f : Value) (args held : Values), P m →
    Q (m.beginCall t f args held).1 (m.beginCall t f args held).2

/-- An assignment changes tables at most. -/
theorem exists_setIndex_eq (m : Machine) (t : ThreadId) (obj key value : Value) :
    ∃ tables, (m.setIndex t obj key value).1 = { m with tables } := by
  have hfrom (fuel : Nat) (current : Value) :
      ∃ tables, (m.setIndexFrom t obj key value fuel current).1 = { m with tables } := by
    induction fuel generalizing current with
    | zero => exact ⟨_, rfl⟩
    | succ fuel ih =>
      unfold setIndexFrom
      extract_lets inUse found handler
      split
      · exact ⟨_, rfl⟩
      · split
        · exact ih _
        · split
          · split <;> exact ⟨_, rfl⟩
          · exact ⟨_, rfl⟩
  exact hfrom _ obj

/-- A native function runs, once its arguments have been checked and are held. -/
theorem invoke_of_checked {id : NativeId} {args : Values}
    (hchecked : Checked (fun effect => Q (effect { m with inUse := args }).1 (effect { m with inUse := args }).2)
      (({ m with inUse := args } : Machine).effect t (m.native id).body args))
    (hrefused : ∀ e : Error, e.IsRaised → Q { m with inUse := args } (.error e)) :
    Q (m.invoke t id args).1 (m.invoke t id args).2 := by
  unfold invoke
  dsimp only
  rw [show ({ m with inUse := args } : Machine).native id = m.native id from rfl]
  split
  · rename_i effect heq
    rw [heq] at hchecked
    exact hchecked
  · rename_i e heq
    rw [heq] at hchecked
    exact hrefused e hchecked

namespace Upkeep

variable (u : Upkeep t P Q) (h : P m)
include u h

theorem holds (inUse : Values) : P { m with inUse } := u.edits m.tables m.printed inUse h

theorem callHandler (handler : Handler) (held : Values) :
    Q (m.callHandler t handler held).1 (m.callHandler t handler held).2 :=
  u.calls _ _ _ (u.begins (a := .read handler.reading) h trivial)

theorem attempt {a : Attempt} (ha : a.Regular) (held : Values) :
    Q (m.attempt t a held).1 (m.attempt t a held).2 := by
  cases a with
  | done vs => exact u.answers (s := .values vs) h trivial
  | fail e => exact u.answers (s := .error e) h ha
  | handler handler => exact u.callHandler h handler held

theorem continueJoin (reversed held : Values) :
    Q (m.continueJoin t reversed held).1 (m.continueJoin t reversed held).2 := by
  unfold Machine.continueJoin
  split
  · exact u.answers (s := .values _) h trivial
  · rename_i hfail
    exact u.answers (s := .error _) h (m.isRaised_of_join t hfail)
  · exact u.callHandler (u.begins (a := .concat t _ held) h rfl) _ held

theorem continuePrint (args : Values) (shown : List String) (rest : Values) :
    Q (m.continuePrint t args shown rest).1 (m.continuePrint t args shown rest).2 := by
  induction rest generalizing shown with
  | nil => exact u.answers (s := .values []) (u.edits m.tables _ m.inUse h) trivial
  | cons v rest ih =>
    have hregular := m.regular_toText v args
    unfold Machine.continuePrint
    split
    · exact u.callHandler (u.begins (a := .print t shown args) h rfl) _ []
    · rename_i hfail
      rw [hfail] at hregular
      exact u.answers (s := .error _) h hregular
    · exact ih _

theorem baseEffect {args : Values} {effect : Effect} (heffect : BaseEffect t args effect) :
    Q (effect m).1 (effect m).2 := by
  cases heffect with
  | answer vs => exact u.answers (s := .values vs) h trivial
  | protect f => exact u.calls _ _ _ (u.begins (a := .protect) h trivial)
  | iterate f vs => exact u.answers (s := .values _) (u.names f h) trivial
  | convert v => exact u.attempt h (m.regular_toText v []) args
  | store => exact u.answers (s := .values _) (u.edits _ m.printed m.inUse h) trivial
  | install id metatable =>
    have hinstalled := u.edits (m.setMetatable id metatable args).tables m.printed m.inUse h
    exact u.answers (s := .values _) hinstalled trivial
  | print => exact u.continuePrint h args [] args

/-- What a host does that neither stops the thread, nor ends, restarts or resumes it. -/
theorem hostOperation {op : HostOperation} (hop : op.IsPlain = true) (args : Values) :
    Q (m.hostOperation t op args).1 (m.hostOperation t op args).2 := by
  have hvalues (vs : Values) : Q m (.values vs) := u.answers h trivial
  cases op with
  | yield | sleep | destroy | jump | resume | failFatal | escapeYield => cases hop
  | echo | nothing | count | traceback | position | depth | threadNumber | status | references => exact hvalues _
  | fail | failAt => exact u.answers (s := .error _) h trivial
  | call => exact u.calls _ _ [] h
  | index => exact u.attempt h (m.regular_index t _ _) args
  | setIndex =>
    obtain ⟨tables, hset⟩ := m.exists_setIndex_eq t (Values.arg args 0) (Values.arg args 1) (Values.arg args 2)
    have hstored := u.edits tables m.printed m.inUse h
    rw [← hset] at hstored
    exact u.attempt hstored (m.regular_setIndex t _ _ _) args
  | arith =>
    unfold Machine.hostOperation
    dsimp only
    split
    · split
      · exact u.attempt h (m.regular_arith t _ _ _) args
      · exact u.answers (s := .error _) h trivial
    · exact u.answers (s := .error _) h trivial
  | equal => exact u.attempt h (m.regular_equal _ _) args
  | lessThan => exact u.attempt h (m.regular_lessThan t _ _) args
  | lessEqual => exact u.attempt h (m.regular_lessEqual t _ _) args
  | concat => exact u.continueJoin h args.reverse []
  | length => exact u.attempt h (m.regular_lengthOf t _) args
  | tostring => exact u.attempt h (m.regular_toText _ _) args
  | metamethod =>
    unfold Machine.hostOperation
    dsimp only
    split <;> exact hvalues _

end Upkeep

end Natives

end Machine

end LuaMachine
