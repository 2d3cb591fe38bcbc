import LuaMachine.Machine.Step
import LuaMachine.Proofs.Machine.Canonical

namespace LuaMachine

/-- The function and the arguments that a handler is called with are canonical. -/
structure Handler.IsCanonical (h : Handler) : Prop where
  function : h.function.IsCanonical
  args : h.args.AreCanonical

/-- What an attempt gives is canonical. -/
def Attempt.IsCanonical : Attempt → Prop
  | .done vs => vs.AreCanonical
  | .fail e => e.value.IsCanonical
  | .handler h => h.IsCanonical

/-- What a concatenation gives is canonical, and so are the values that are still to be joined. -/
def Machine.Joining.IsCanonical : Machine.Joining → Prop
  | .done v => v.IsCanonical
  | .fail e => e.value.IsCanonical
  | .handler h left => h.IsCanonical ∧ left.AreCanonical

/-- What an instruction hands on is canonical. -/
def Ending.IsCanonical : Ending → Prop
  | .handle h _ => h.IsCanonical
  | .join reversed _ => reversed.AreCanonical
  | .invoke _ args _ => args.AreCanonical
  | .stop s => s.IsCanonical
  | _ => True

theorem Ending.IsCanonical.ofSignal {s : Signal} (h : s.IsCanonical) : (Ending.ofSignal s).IsCanonical := by
  cases s with
  | go => trivial
  | invoke | values | yielded | frameLimit | sleeping | error => exact h

theorem Reading.apply_areCanonical {vs : Values} (h : vs.AreCanonical) (reading : Reading) :
    (reading.apply vs).AreCanonical := by
  cases reading with
  | first => exact .single h.first
  | nothing => exact .nil
  | truth | falsity => exact .single (Value.isCanonical_bool _)

theorem Thread.value_attachTrace (th : Thread) (e : Error) : (th.attachTrace e).value = e.value := by
  unfold Thread.attachTrace
  split
  · rfl
  · split <;> rfl
  · rfl

namespace Machine.IsCanonical

open Value

variable {m m' : Machine}

section Metamethods

variable (h : m.IsCanonical) (t : ThreadId)
include h

theorem metamethod (v : Value) (event : String) (inUse : Values) : (m.metamethod v event inUse).IsCanonical := by
  unfold Machine.metamethod
  split
  · exact h.getStr _ _ _
  · exact isCanonical_nil

omit h in
theorem typeError (v : Value) (action : String) : (m.typeError t v action).value.IsCanonical := by
  unfold Machine.typeError
  split <;> exact isCanonical_str _

theorem index {obj key : Value} (hobj : obj.IsCanonical) (hkey : key.IsCanonical) :
    (m.index t obj key).IsCanonical := by
  have hfrom (fuel : Nat) {current : Value} (hcurrent : current.IsCanonical) :
      (m.indexFrom t obj key fuel current).IsCanonical := by
    induction fuel generalizing current with
    | zero => exact isCanonical_str _
    | succ fuel ih =>
      have hhandler := h.metamethod current "__index" [obj, key]
      unfold indexFrom
      extract_lets own handler
      split
      · refine .single ?_
        dsimp only [own]
        split
        · exact h.rawGet _ _ _
        · exact isCanonical_nil
      · split
        · exact ⟨hhandler, .cons hcurrent (.single hkey)⟩
        · split
          · exact ih hhandler
          · split
            · exact .single isCanonical_nil
            · exact typeError t current "index"
  exact hfrom _ hobj

theorem setIndex {obj key value : Value} (hobj : obj.IsCanonical) (hkey : key.IsCanonical)
    (hvalue : value.IsCanonical) : Leaves Attempt.IsCanonical (m.setIndex t obj key value) := by
  have hfrom (fuel : Nat) {current : Value} (hcurrent : current.IsCanonical) :
      Leaves Attempt.IsCanonical (m.setIndexFrom t obj key value fuel current) := by
    induction fuel generalizing current with
    | zero => exact ⟨h, isCanonical_str _⟩
    | succ fuel ih =>
      unfold setIndexFrom
      extract_lets inUse found handler
      have hhandler : handler.IsCanonical := by
        dsimp only [handler]
        split
        · exact isCanonical_nil
        · exact h.metamethod _ _ _
      split
      · exact ⟨h, hhandler, .cons hcurrent (.cons hkey (.single hvalue))⟩
      · split
        · exact ih hhandler
        · split
          · split
            · rename_i stored hstored
              exact ⟨h.storeKey _ (hkey.normalizeKey hstored) hvalue _, .nil⟩
            · exact ⟨h, isCanonical_str _⟩
          · exact ⟨h, typeError t _ _⟩
  exact hfrom _ hobj

theorem arith (op : ArithOp) {a b : Value} (ha : a.IsCanonical) (hb : b.IsCanonical) :
    (m.arith t op a b).IsCanonical := by
  unfold Machine.arith
  split
  · rename_i v hraw
    exact .single (Arithmetic.isCanonical_of_raw hraw)
  · extract_lets first handler
    split
    · exact typeError t _ _
    · refine ⟨?_, .cons ha (.single hb)⟩
      dsimp only [handler, first]
      split <;> exact h.metamethod _ _ _

theorem lengthOf {v : Value} (hv : v.IsCanonical) : (m.lengthOf t v).IsCanonical := by
  unfold Machine.lengthOf
  split
  · exact .single (isCanonical_int _)
  · exact .single (isCanonical_int _)
  · dsimp only
    split
    · exact typeError t _ _
    · exact ⟨h.metamethod _ _ _, .cons hv (.single hv)⟩

theorem equal {a b : Value} (ha : a.IsCanonical) (hb : b.IsCanonical) : (m.equal a b).IsCanonical := by
  have hno : (Attempt.done [.bool false]).IsCanonical := .single (isCanonical_bool _)
  unfold Machine.equal
  extract_lets no comparable
  split
  · exact .single (isCanonical_bool _)
  · split
    · exact hno
    · split
      · exact hno
      · extract_lets handler agreed
        split
        · exact hno
        · split
          · exact ⟨h.getStr _ _ _, .cons ha (.single hb)⟩
          · exact hno

theorem sharedHandler {a b handler : Value} {event : String} (hshared : m.sharedHandler? a b event = some handler) :
    handler.IsCanonical := by
  unfold sharedHandler? at hshared
  dsimp only at hshared
  split at hshared
  · cases hshared
  · split at hshared
    · cases hshared
      exact h.metamethod _ _ _
    · cases hshared

theorem lessThan {a b : Value} (ha : a.IsCanonical) (hb : b.IsCanonical) : (m.lessThan t a b).IsCanonical := by
  unfold Machine.lessThan
  split
  · exact .single (isCanonical_bool _)
  · split
    · split
      · rename_i hshared
        exact ⟨h.sharedHandler hshared, .cons ha (.single hb)⟩
      · exact isCanonical_str _
    · exact isCanonical_str _

theorem lessEqual {a b : Value} (ha : a.IsCanonical) (hb : b.IsCanonical) : (m.lessEqual t a b).IsCanonical := by
  unfold Machine.lessEqual
  split
  · exact .single (isCanonical_bool _)
  · split
    · split
      · rename_i hshared
        exact ⟨h.sharedHandler hshared, .cons ha (.single hb)⟩
      · split
        · rename_i hshared
          exact ⟨h.sharedHandler hshared, .cons hb (.single ha)⟩
        · exact isCanonical_str _
    · exact isCanonical_str _

theorem toText {v : Value} (hv : v.IsCanonical) (inUse : Values) : (m.toText v inUse).IsCanonical := by
  unfold Machine.toText
  dsimp only
  split
  · exact .single (isCanonical_str _)
  · exact ⟨h.metamethod _ _ _, .single hv⟩

theorem join {reversed : Values} (hreversed : reversed.AreCanonical) (inUse : Values) :
    (m.join t reversed inUse).IsCanonical := by
  have hfrom (fuel : Nat) {vs : Values} (hvs : vs.AreCanonical) : (m.joinFrom t inUse fuel vs).IsCanonical := by
    induction fuel generalizing vs with
    | zero =>
      match vs with
      | [] => exact isCanonical_str _
      | [v] => exact hvs v (List.mem_singleton_self v)
      | _ :: _ :: _ => exact isCanonical_nil
    | succ fuel ih =>
      match vs with
      | [] => exact isCanonical_str _
      | [v] => exact hvs v (List.mem_singleton_self v)
      | b :: a :: rest =>
        obtain ⟨hb, hvs'⟩ := List.forall_mem_cons.mp hvs
        obtain ⟨ha, hrest⟩ := List.forall_mem_cons.mp hvs'
        rw [joinFrom]
        split
        · exact ih (.cons (isCanonical_str _) (hvs.drop _))
        · extract_lets held first handler
          split
          · exact typeError t _ _
          · refine ⟨⟨?_, .cons ha (.single hb)⟩, hrest⟩
            dsimp only [handler, first]
            split <;> exact h.metamethod _ _ _
  exact hfrom _ hreversed

omit h in
theorem callee_args {f : Value} {args args' inUse : Values} {callee : Callee} (hf : f.IsCanonical)
    (hargs : args.AreCanonical) (hcallee : m.callee? f args inUse = some (callee, args')) : args'.AreCanonical := by
  unfold callee? at hcallee
  split at hcallee
  · cases hcallee
    exact hargs
  · cases hcallee
    exact hargs
  · split at hcallee
    · cases hcallee
      exact .cons hf hargs
    · cases hcallee
      exact .cons hf hargs
    · cases hcallee

end Metamethods

section Calls

variable (h : m.IsCanonical) (t : ThreadId)
include h

theorem setStatus (status : Status) : (m.setStatus t status).IsCanonical :=
  h.modifyThread t fun _ hth => hth.of_eq rfl rfl rfl

theorem beginCall {f : Value} {args : Values} (hf : f.IsCanonical) (hargs : args.AreCanonical) (held : Values) :
    Leaves Signal.IsCanonical (m.beginCall t f args held) := by
  unfold Machine.beginCall
  extract_lets th idle previous begun
  have hbegun : begun.IsCanonical := h.modifyThread t fun _ hth => hth.of_eq rfl rfl rfl
  split
  · exact ⟨h, isCanonical_str _⟩
  · split
    · exact ⟨h, isCanonical_str _⟩
    · rename_i callee args' hcallee
      have hargs' := callee_args hf hargs hcallee
      cases callee with
      | native id => exact ⟨hbegun.push trivial, hargs'⟩
      | closure id =>
        have hwaiting : (begun.push (.endCall t (some (begun.thread t).depth) previous (f :: held))).IsCanonical :=
          hbegun.push trivial
        have hpushed := hwaiting.pushFrame t id hargs' .host
        dsimp only
        split
        · rename_i heq
          rw [heq] at hpushed
          exact ⟨hpushed.machine.push trivial, trivial⟩
        · exact hpushed

theorem callHandler {handler : Handler} (hhandler : handler.IsCanonical) (held : Values) :
    Leaves Signal.IsCanonical (m.callHandler t handler held) :=
  IsCanonical.beginCall (h.push (a := .read handler.reading) trivial) t hhandler.function hhandler.args _

theorem attempt {a : Attempt} (ha : a.IsCanonical) (held : Values) :
    Leaves Signal.IsCanonical (m.attempt t a held) := by
  cases a with
  | done | fail => exact ⟨h, ha⟩
  | handler handler => exact h.callHandler t ha held

theorem continueJoin {reversed : Values} (hreversed : reversed.AreCanonical) (held : Values) :
    Leaves Signal.IsCanonical (m.continueJoin t reversed held) := by
  have hjoined := h.join t hreversed held
  unfold Machine.continueJoin
  split
  · rename_i heq
    rw [heq] at hjoined
    exact ⟨h, .single hjoined⟩
  · rename_i heq
    rw [heq] at hjoined
    exact ⟨h, hjoined⟩
  · rename_i left heq
    rw [heq] at hjoined
    exact IsCanonical.callHandler (h.push (a := .concat t left held) hjoined.2) t hjoined.1 held

theorem continuePrint {args : Values} (hargs : args.AreCanonical) (shown : List String) {rest : Values}
    (hrest : rest.AreCanonical) : Leaves Signal.IsCanonical (m.continuePrint t args shown rest) := by
  induction rest generalizing shown with
  | nil => exact ⟨h.of_eq rfl rfl rfl rfl rfl rfl, .nil⟩
  | cons v rest ih =>
    obtain ⟨hv, hrest⟩ := List.forall_mem_cons.mp hrest
    have htext := h.toText hv args
    rw [Machine.continuePrint]
    split
    · rename_i heq
      rw [heq] at htext
      exact IsCanonical.callHandler (h.push (a := .print t shown args) hargs) t htext []
    · rename_i heq
      rw [heq] at htext
      exact ⟨h, htext⟩
    · exact ih _ hrest

theorem yieldNow {vs : Values} (hvs : vs.AreCanonical) : Leaves Signal.IsCanonical (m.yieldNow t vs) := by
  unfold Machine.yieldNow
  dsimp only
  split
  · exact ⟨h, isCanonical_str _⟩
  · split
    · exact ⟨h, isCanonical_str _⟩
    · exact ⟨h.modifyThread t fun _ hth => ⟨hth.start, hth.varargs, hvs⟩, isCanonical_str _⟩

theorem takeYielded : Leaves Values.AreCanonical (m.takeYielded t) :=
  ⟨h.modifyThread t fun _ hth => ⟨hth.start, hth.varargs, .nil⟩, (h.thread t).yielded⟩

theorem beginStart (limit : Option Nat) {f : Value} {args : Values} (hf : f.IsCanonical)
    (hargs : args.AreCanonical) : Leaves Signal.IsCanonical (m.beginStart t limit f args) := by
  unfold Machine.beginStart
  split
  · exact ⟨h, isCanonical_str _⟩
  · rename_i id args' hcallee
    have hpushed := h.pushFrame t id (callee_args hf hargs hcallee) .host
    split
    · rename_i heq
      rw [heq] at hpushed
      exact ⟨hpushed.machine.push trivial, trivial⟩
    · exact hpushed
  · rename_i id args' hcallee
    exact ⟨h.push trivial, callee_args hf hargs hcallee⟩

theorem beginResumed (floor : Nat) (limit : Option Nat) {args : Values} (hargs : args.AreCanonical) :
    Leaves Signal.IsCanonical (m.beginResumed t floor limit args) := by
  have hbegun (held : Values) : (m.push (.endResume t floor held)).IsCanonical := h.push trivial
  unfold Machine.beginResumed
  dsimp only
  split
  · rename_i f startArgs hstart
    obtain ⟨hf, hbound⟩ := (h.thread t).start f startArgs hstart
    have hcleared := (hbegun []).modifyThread t (f := fun th => { th with start := none }) fun _ hth =>
      ⟨nofun, hth.varargs, hth.yielded⟩
    exact hcleared.beginStart t limit hf (hbound.append hargs)
  · split
    · exact ⟨(hbegun []).modifyThread t fun _ hth => hth.of_eq rfl rfl rfl, hargs⟩
    · split
      · exact ⟨hbegun [], isCanonical_str _⟩
      · split
        · exact ⟨(hbegun args).push trivial, trivial⟩
        · have hcompleted := (hbegun []).completePending t hargs 0
          split
          · rename_i heq
            rw [heq] at hcompleted
            exact ⟨hcompleted.machine.push trivial, trivial⟩
          · exact hcompleted

theorem beginResume (budget : Option Nat) {args : Values} (hargs : args.AreCanonical) :
    Leaves Signal.IsCanonical (m.beginResume t budget args) := by
  unfold Machine.beginResume
  dsimp only
  split
  · exact ⟨h.modifyThread t fun _ hth => hth.of_eq rfl rfl rfl, trivial⟩
  · split
    · exact ⟨h, isCanonical_str _⟩
    · split
      · exact ⟨h, isCanonical_str _⟩
      · have hrunning := h.modifyThread t (f := fun th => { th with status := .running, instructions := 0 })
          fun _ hth => hth.of_eq rfl rfl rfl
        exact hrunning.beginResumed t _ _ hargs

theorem beginResumeFrom (target : ThreadId) (wrapped : Bool) {args : Values} (hargs : args.AreCanonical) :
    Leaves Signal.IsCanonical (m.beginResumeFrom t target wrapped args) := by
  have hpushed : (m.push (.resumed t (m.thread t).status wrapped target)).IsCanonical := h.push trivial
  unfold Machine.beginResumeFrom
  dsimp only
  split
  · exact ⟨hpushed, isCanonical_str _⟩
  · exact (hpushed.setStatus t .normal).beginResume target none hargs

end Calls

section Groups

variable (h : m.IsCanonical)
include h

theorem addToGroup (g : GroupId) (t : ThreadId) : (m.addToGroup g t).IsCanonical := by
  unfold Machine.addToGroup
  split
  · split
    · exact h
    · exact h.destroyThread t
  · exact h.modifyGroup g _

theorem continueTicks (g : GroupId) (members rest : List ThreadId) :
    Leaves Signal.IsCanonical (m.continueTicks g members rest) := by
  induction rest with
  | nil => exact ⟨h.modifyGroup g _, .nil⟩
  | cons t rest ih =>
    unfold Machine.continueTicks
    split
    · exact ih
    · exact IsCanonical.beginResume (h.push (a := .tick g members t rest) trivial) t _ .nil

theorem beginUpdate (g : GroupId) : Leaves Signal.IsCanonical (m.beginUpdate g) := by
  unfold Machine.beginUpdate
  dsimp only
  split
  · exact ⟨h, .nil⟩
  · exact h.continueTicks g _ _

theorem destroyGroup (g : GroupId) : (m.destroyGroup g).IsCanonical := by
  unfold Machine.destroyGroup
  dsimp only
  refine List.foldlRecOn _ _ (h.modifyGroup g _) fun m hm t _ => ?_
  split
  · exact hm
  · exact hm.destroyThread t

theorem continueUpdates (groups : List GroupId) : Leaves Signal.IsCanonical (m.continueUpdates groups) := by
  cases groups with
  | nil => exact ⟨h, .nil⟩
  | cons g rest => exact IsCanonical.beginUpdate (h.push (a := .updateGroups rest) trivial) g

end Groups

section Instructions

variable (h : m.IsCanonical) {i : Interpreter}
include h

theorem operand {p : Prototype} (hp : p.IsCanonical) (file : FileId) (x : UInt32) :
    (m.operand p file x).IsCanonical := by
  unfold Machine.operand
  split
  · exact hp.constant _
  · exact h.register file _

theorem jump (pc : Nat) (offset : Int) : Leaves Ending.IsCanonical (m.jump pc offset) := by
  unfold Machine.jump jumpTarget
  dsimp only
  split
  · exact ⟨h, trivial⟩
  · rename_i heq
    split at heq <;> cases heq
    exact ⟨h, isCanonical_str _⟩

theorem jumpFrom (t : ThreadId) (pc : Nat) (offset : Int) : Leaves Ending.IsCanonical (m.jumpFrom t pc offset) := by
  have hspent : (m.spendFuse t).IsCanonical := by
    unfold spendFuse
    split
    · exact h.modifyThread t fun _ hth => hth.of_eq rfl rfl rfl
    · exact h
  unfold Machine.jumpFrom
  split
  · exact hspent.jump pc offset
  · exact h.jump pc offset

theorem storeAttempt (w : Window) (a : Nat) {attempt : Attempt} (ha : attempt.IsCanonical) :
    Leaves Ending.IsCanonical (m.storeAttempt w a attempt) := by
  cases attempt with
  | done vs => exact ⟨h.setRegister _ _ (Values.AreCanonical.first ha), trivial⟩
  | fail | handler => exact ⟨h, ha⟩

theorem branchAttempt (w : Window) (expected : Bool) {attempt : Attempt} (ha : attempt.IsCanonical) :
    Leaves Ending.IsCanonical (m.branchAttempt w expected attempt) := by
  cases attempt with
  | done => exact ⟨h, trivial⟩
  | fail | handler => exact ⟨h, ha⟩

theorem assignAttempt (w : Window) {attempt : Attempt} (ha : attempt.IsCanonical) :
    Leaves Ending.IsCanonical (m.assignAttempt w attempt) := by
  cases attempt with
  | done => exact ⟨h, trivial⟩
  | fail | handler => exact ⟨h, ha⟩

theorem callFrom (w : Window) {f : Value} {args : Values} (hf : f.IsCanonical) (hargs : args.AreCanonical)
    (target : ReturnTarget) : Leaves Ending.IsCanonical (m.callFrom i w f args target) := by
  unfold Machine.callFrom
  split
  · exact ⟨h, typeError _ _ _⟩
  · rename_i id args' hcallee
    split
    · exact ⟨h.modifyTop _ fun _ hargs => hargs, trivial⟩
    · have hpushed := h.pushFrame i.thread id (callee_args hf hargs hcallee) target
      exact ⟨hpushed.machine, .ofSignal hpushed.result⟩
  · rename_i id args' hcallee
    exact ⟨h, callee_args hf hargs hcallee⟩

theorem tailCallFrom {f : Value} {args : Values} (hf : f.IsCanonical) (hargs : args.AreCanonical) :
    Leaves Ending.IsCanonical (m.tailCallFrom i f args) := by
  unfold Machine.tailCallFrom
  split
  · exact ⟨h, typeError _ _ _⟩
  · rename_i id args' hcallee
    exact ⟨h.rebindTop _ _ (callee_args hf hargs hcallee), trivial⟩
  · rename_i id args' hcallee
    exact ⟨h, callee_args hf hargs hcallee⟩

theorem captureCells (t : ThreadId) (c : Closure) (count pc : Nat) (cells : List CellId) :
    Leaves (Vetted fun _ => True) (m.captureCells t c count pc cells) := by
  induction count generalizing m pc cells with
  | zero => exact ⟨h, trivial⟩
  | succ count ih =>
    rw [Machine.captureCells]
    split
    · exact ⟨h, isCanonical_str _⟩
    · split
      · exact ⟨h, isCanonical_str _⟩
      · split
        · split
          · exact ih h _ _
          · exact ih (h.addCell (c := .closed .nil) isCanonical_nil) _ _
        · exact ih (h.captureRegister t _ _) _ _
        · exact ⟨h, isCanonical_str _⟩

theorem makeClosure (t : ThreadId) (w : Window) (a bx : Nat) :
    Leaves Ending.IsCanonical (m.makeClosure t w a bx) := by
  have hproto := h.closure w.closure
  unfold Machine.makeClosure
  dsimp only
  split
  · exact ⟨h, isCanonical_str _⟩
  · rename_i child hchild
    have hcaptured := h.captureCells t (m.closure w.closure) child.upvalueCount.toNat w.pc []
    split
    · rename_i heq
      rw [heq] at hcaptured
      exact ⟨hcaptured.machine, hcaptured.result⟩
    · rename_i cells pc heq
      rw [heq] at hcaptured
      have hmoved := hcaptured.machine.modifyTop t (f := fun f => { f with pc }) fun _ hargs => hargs
      have hchild' : child.IsCanonical := hproto.child (List.mem_of_getElem? hchild)
      have hadded := hmoved.addClosure (c := ⟨child, cells, (m.closure w.closure).env⟩) hchild'
      exact ⟨hadded.setRegister _ _ (isCanonical_closure _), trivial⟩

theorem storeList (id : TableId) (start : Nat) {vs : Values} (hvs : vs.AreCanonical) :
    (m.storeList id start vs).IsCanonical := by
  unfold Machine.storeList
  refine List.foldlRecOn _ _ h fun m hm entry hentry => ?_
  have hv := hvs entry.1 (List.fst_mem_of_mem_zipIdx hentry)
  exact hm.modifyTable id fun t ht => ht.setNormal isCanonical_nil isCanonical_int (isCanonical_int _) hv

theorem setList (t : ThreadId) (file : FileId) (top a b block pc : Nat) :
    Leaves Ending.IsCanonical (m.setList t file top a b block pc) := by
  unfold Machine.setList
  dsimp only
  split
  · refine ⟨h.storeList _ _ fun v hv => ?_, trivial⟩
    obtain ⟨n, -, rfl⟩ := List.mem_map.mp hv
    exact h.register file _
  · exact ⟨h, isCanonical_str _⟩

theorem loadVarargs (t : ThreadId) (a b : Nat) : (m.loadVarargs t a b).IsCanonical := by
  unfold Machine.loadVarargs
  split
  · exact h
  · rename_i top htop
    have hloaded (count : Nat) := h.writeGrown top.file (a + count) a ((h.varargs t htop).adjust count)
    dsimp only
    split
    · exact (hloaded _).modifyTop t fun _ hargs => hargs
    · exact hloaded _

/-- The first index of a numeric loop is the result of a subtraction. -/
theorem forPrep (t : ThreadId) (w : Window) (a : Nat) (offset : Int) :
    Leaves Ending.IsCanonical (m.forPrep t w a offset) := by
  unfold Machine.forPrep
  split
  · exact ⟨h, isCanonical_str _⟩
  · split
    · exact ⟨h, isCanonical_str _⟩
    · rename_i limit hlimit
      split
      · exact ⟨h, isCanonical_str _⟩
      · rename_i start _ _ _ step hstep
        have hfirst := Arithmetic.isCanonical_firstIndex start step
        have hlimit' := (h.register w.file (a + 1)).toNumber hlimit
        have hstep' := (h.register w.file (a + 2)).toNumber hstep
        exact (((h.setRegister _ _ hfirst).setRegister _ _ hlimit').setRegister _ _ hstep').jump _ _

theorem forLoop (w : Window) (a : Nat) (offset : Int) : Leaves Ending.IsCanonical (m.forLoop w a offset) := by
  have hnext := Arithmetic.isCanonical_forStep (m.register w.file (a + 0)) (m.register w.file (a + 1))
    (m.register w.file (a + 2))
  have hjump := h.jump w.pc offset
  unfold Machine.jump at hjump
  unfold Machine.forLoop
  dsimp only
  split
  · split
    · exact ⟨(h.setRegister _ _ hnext).setRegister _ _ hnext, trivial⟩
    · rename_i heq
      rw [heq] at hjump
      exact hjump
  · exact ⟨h, trivial⟩

/-- An instruction of any code. -/
theorem perform (w : Window) (word : Instruction) (op : Opcode) :
    Leaves Ending.IsCanonical (m.perform i w word op) := by
  have hproto := h.closure w.closure
  have hregister (n : Nat) := h.register w.file n
  have hoperand (x : UInt32) := h.operand hproto w.file x
  have hset (n : Nat) {v : Value} (hv : v.IsCanonical) (pc : Nat) :
      Leaves Ending.IsCanonical (m.setRegister w.file n v, .goOn pc) := ⟨h.setRegister _ _ hv, trivial⟩
  cases op with
  | move => exact hset _ (hregister _) _
  | loadK => exact hset _ (hproto.constant _) _
  | loadBool | not => exact hset _ (isCanonical_bool _) _
  | loadNil =>
    refine ⟨h.modifyFile _ fun _ hregisters => writeRow (fun v hv => ?_) hregisters _, trivial⟩
    rw [List.eq_of_mem_replicate hv]
    exact isCanonical_nil
  | getUpval =>
    refine hset _ ?_ _
    cases (m.closure w.closure).cells[word.b.toNat]? with
    | none => exact isCanonical_nil
    | some id => exact h.cellValue id
  | getGlobal => exact h.storeAttempt _ _ (h.index _ (isCanonical_table _) (hproto.constant _))
  | getTable => exact h.storeAttempt _ _ (h.index _ (hregister _) (hoperand _))
  | setGlobal =>
    have hstored := h.setIndex i.thread (isCanonical_table (m.closure w.closure).env)
      (hproto.constant word.bx.toNat) (hregister word.a.toNat)
    exact hstored.machine.assignAttempt w hstored.result
  | setUpval =>
    unfold Machine.perform
    dsimp only
    split
    · exact ⟨h.setCellValue _ (hregister _), trivial⟩
    · exact ⟨h, trivial⟩
  | setTable =>
    have hstored := h.setIndex i.thread (hregister word.a.toNat) (hoperand word.b) (hoperand word.c)
    exact hstored.machine.assignAttempt w hstored.result
  | newTable =>
    have hadded := h.addTable (Table.all_new isCanonical_nil (SizeByte.decode word.b) (SizeByte.decode word.c))
    exact ⟨hadded.setRegister _ _ (isCanonical_table _), trivial⟩
  | self =>
    have hmoved := h.setRegister w.file (word.a.toNat + 1) (hregister word.b.toNat)
    exact hmoved.storeAttempt _ _ (hmoved.index _ (hregister _) (hmoved.operand hproto _ _))
  | add | sub | mul | div | mod | pow => exact h.storeAttempt _ _ (h.arith _ _ (hoperand _) (hoperand _))
  | unm => exact h.storeAttempt _ _ (h.arith _ _ (hregister _) (hregister _))
  | len => exact h.storeAttempt _ _ (h.lengthOf _ (hregister _))
  | concat =>
    refine ⟨h, Values.AreCanonical.reverse fun v hv => ?_⟩
    obtain ⟨n, -, rfl⟩ := List.mem_map.mp hv
    exact hregister _
  | test => exact ⟨h, trivial⟩
  | jmp => exact h.jumpFrom _ _ _
  | eq => exact h.branchAttempt _ _ (h.equal (hoperand _) (hoperand _))
  | lt => exact h.branchAttempt _ _ (h.lessThan _ (hoperand _) (hoperand _))
  | le => exact h.branchAttempt _ _ (h.lessEqual _ (hoperand _) (hoperand _))
  | testSet =>
    unfold Machine.perform
    dsimp only
    split
    · exact hset _ (hregister _) _
    · exact ⟨h, trivial⟩
  | call => exact h.callFrom _ (hregister _) (h.collect _ _ _ _) _
  | tForLoop => exact h.callFrom _ (hregister _) (.cons (hregister _) (.single (hregister _))) _
  | tailCall => exact h.tailCallFrom (hregister _) (h.collect _ _ _ _)
  | ret =>
    have hreturned := h.finishReturn i.thread (h.collect w.file (m.openEnd i.thread) word.a.toNat word.b.toNat) i.floor
    exact ⟨hreturned.machine, .ofSignal hreturned.result⟩
  | forLoop => exact h.forLoop _ _ _
  | forPrep => exact h.forPrep _ _ _ _
  | setList =>
    have hmoved := h.modifyTop i.thread (f := fun f => { f with pc := w.pc + 1 }) fun _ hargs => hargs
    unfold Machine.perform
    dsimp only
    split
    · split
      · exact ⟨h, isCanonical_str _⟩
      · exact hmoved.setList _ _ _ _ _ _ _
    · exact h.setList _ _ _ _ _ _ _
  | close => exact ⟨h.closeTopCells _ _, trivial⟩
  | closure => exact h.makeClosure _ _ _ _
  | varArg => exact ⟨h.loadVarargs _ _ _, trivial⟩

theorem execute (w : Window) : Leaves Ending.IsCanonical (m.execute i w) := by
  have hcounted := h.modifyThread i.thread (f := Thread.counted) fun _ hth => hth.of_eq rfl rfl rfl
  have hmoved (pc : Nat) : (m.modifyThread i.thread (·.movedTo pc)).IsCanonical := by
    refine h.modifyThread i.thread fun th hth => ?_
    unfold Thread.movedTo
    split
    · exact ⟨hth.start, List.forall_mem_cons.mpr (List.forall_mem_cons.mp hth.varargs), hth.yielded⟩
    · exact hth.of_eq rfl rfl rfl
  have hfetched : Leaves Ending.IsCanonical (m.fetch i w) := by
    unfold fetch
    split
    · exact ⟨hcounted, isCanonical_str _⟩
    · split
      · exact ⟨hcounted, isCanonical_str _⟩
      · dsimp only
        split
        · exact ⟨hmoved _, isCanonical_str _⟩
        · exact (hmoved _).perform _ _ _
  unfold Machine.execute
  dsimp only
  split
  · split
    · exact ⟨hcounted, isCanonical_str _⟩
    · exact hfetched
  · exact hfetched

theorem conclude (w : Window) {ending : Ending} (hending : ending.IsCanonical) :
    Leaves Signal.IsCanonical (m.conclude i w ending) := by
  have hplaced (stage : Stage) : (m.replaceTop (.interpret { i with stage })).IsCanonical := h.replaceTop trivial
  cases ending with
  | goOn | enter => exact ⟨hplaced _, trivial⟩
  | invoke => exact ⟨hplaced _, hending⟩
  | handle handler sequel => exact (hplaced _).callHandler i.thread hending _
  | join reversed sequel => exact (hplaced _).continueJoin i.thread hending _
  | stop s =>
    cases s with
    | error e =>
      refine ⟨h.pop, ?_⟩
      show ((m.thread i.thread).attachTrace e).value.IsCanonical
      rw [Thread.value_attachTrace]
      exact hending
    | go | invoke | values | yielded | frameLimit | sleeping => exact ⟨h.pop, hending⟩

theorem advance (w : Window) : Leaves Signal.IsCanonical (m.advance i w) := by
  have hexecuted := h.execute (i := i) w
  exact hexecuted.machine.conclude _ hexecuted.result

theorem settle (w : Window) {vs : Values} (hvs : vs.AreCanonical) (sequel : Sequel) :
    Leaves Ending.IsCanonical (m.settle i w vs sequel) := by
  cases sequel with
  | discard | branch => exact ⟨h, trivial⟩
  | store a => exact ⟨h.setRegister _ _ hvs.first, trivial⟩
  | deliver target held =>
    have hdelivered := h.deliver i.thread target hvs
    rw [Machine.settle]
    split
    · rename_i heq
      rw [heq] at hdelivered
      split <;> exact ⟨hdelivered.machine, trivial⟩
    · rename_i heq
      rw [heq] at hdelivered
      exact ⟨hdelivered.machine, hdelivered.result⟩
  | leave held =>
    have hreturned := h.finishReturn i.thread hvs i.floor
    exact ⟨hreturned.machine, .ofSignal hreturned.result⟩

theorem interrupted {s : Signal} (hs : s.IsCanonical) (sequel : Sequel) :
    Leaves Ending.IsCanonical (m.interrupted i s sequel) := by
  have hsuspended (pending : Frame → PendingCall) : Leaves Ending.IsCanonical (m.suspend i.thread pending) := by
    unfold suspend
    split
    · exact ⟨h, isCanonical_str _⟩
    · rename_i top _
      have hpending := h.modifyTop i.thread (f := fun f => { f with pending := some (pending top) })
        fun _ hargs => hargs
      have htaken := hpending.takeYielded i.thread
      exact ⟨htaken.machine, htaken.result⟩
  unfold Machine.interrupted
  split
  · split
    · exact hsuspended _
    · exact ⟨h, hs⟩
  · split
    · exact hsuspended _
    · exact ⟨h, hs⟩
  · exact ⟨h, hs⟩

theorem interpret {s : Signal} (hs : s.IsCanonical) : Leaves Signal.IsCanonical (m.interpret i s) := by
  unfold Machine.interpret
  split
  · unfold enter
    split
    · exact ⟨h.pop, isCanonical_str _⟩
    · rename_i top _
      have hplaced := h.replaceTop
        (a := .interpret { i with stage := .running ⟨top.closure, top.file, top.pc⟩ }) trivial
      exact hplaced.advance _
  · exact h.advance _
  · rename_i w sequel vs _
    have hsettled := h.settle (i := i) w hs sequel
    exact hsettled.machine.conclude w hsettled.result
  · rename_i w sequel _ _
    have hstopped := h.interrupted (i := i) hs sequel
    exact hstopped.machine.conclude w hstopped.result
  · exact ⟨h.pop, hs⟩

end Instructions

section Arguments

variable (m : Machine) (t : ThreadId) {args : Values} (hargs : args.AreCanonical) (i : Nat) (name : String)

include hargs in
theorem requireArg : Vetted Value.IsCanonical (m.requireArg t args i name) := by
  unfold Machine.requireArg
  split
  · rename_i v hget
    exact hargs v (List.mem_of_getElem? hget)
  · exact isCanonical_str _

theorem optionalInteger (fallback : Int64) :
    Vetted (fun _ => True) (m.optionalInteger t args i name fallback) := by
  unfold Machine.optionalInteger
  dsimp only
  split
  · trivial
  · split
    · trivial
    · split
      · trivial
      · exact isCanonical_str _

theorem requireTable : Vetted (fun _ => True) (m.requireTable t args i name) := by
  unfold Machine.requireTable
  split
  · trivial
  · exact isCanonical_str _

theorem requireThread : Vetted (fun _ => True) (m.requireThread t args i name) := by
  unfold Machine.requireThread
  split
  · trivial
  · exact isCanonical_str _

include hargs in
theorem requireFunction : Vetted Value.IsCanonical (m.requireFunction t args name) := by
  refine (requireArg m t hargs 1 name).bind fun f hf => ?_
  split
  · exact hf
  · exact isCanonical_str _

end Arguments

section Natives

variable (h : m.IsCanonical) (t : ThreadId) {args : Values} (hargs : args.AreCanonical)
include h hargs

omit hargs in
theorem answer {vs : Values} (hvs : vs.AreCanonical) : Leaves Signal.IsCanonical (Machine.answer vs m) := ⟨h, hvs⟩

theorem base_select :
    Vetted (fun effect => Leaves Signal.IsCanonical (effect m)) (m.base t .select args) := by
  refine (requireArg m t hargs 1 _).bind fun selector _ => ?_
  dsimp only
  split
  · exact h.answer (.single (isCanonical_int _))
  · split
    · exact isCanonical_str _
    · rename_i n _
      generalize (if n.toInt < 0 then n.toInt + args.length else min n.toInt args.length) = place
      split
      · exact isCanonical_str _
      · exact h.answer (hargs.drop _)

theorem base_tonumber :
    Vetted (fun effect => Leaves Signal.IsCanonical (effect m)) (m.base t .tonumber args) := by
  refine (requireArg m t hargs 1 _).bind fun v hv => ?_
  refine (optionalInteger m t 2 _ 10).bind fun base _ => ?_
  dsimp only
  split
  · refine h.answer (.single ?_)
    cases hnumber : v.toNumber? with
    | none => exact isCanonical_nil
    | some w => exact hv.toNumber hnumber
  · split
    · exact isCanonical_str _
    · split
      · rename_i s _
        refine h.answer (.single ?_)
        cases hread : parseRadix? base.toInt.toNat s with
        | none => exact isCanonical_nil
        | some w => exact isCanonical_of_parseRadix hread
      · exact isCanonical_str _

omit hargs in
theorem base_setmetatable :
    Vetted (fun effect => Leaves Signal.IsCanonical (effect m)) (m.base t .setmetatable args) := by
  refine (requireTable m t 1 _).bind fun id _ => ?_
  extract_lets install
  have hset (metatable : Option TableId) :
      Leaves Signal.IsCanonical (m.setMetatable id metatable args, .values [.table id]) :=
    ⟨h.installMetatable _ _ _ _, .single (isCanonical_table _)⟩
  have hinstall (metatable : Option TableId) :
      Vetted (fun effect => Leaves Signal.IsCanonical (effect m)) (install metatable) := by
    dsimp only [install]
    split
    · split
      · exact hset metatable
      · exact isCanonical_str _
    · exact hset metatable
  split
  · exact hinstall none
  · exact hinstall _
  · exact isCanonical_str _

omit hargs in
theorem base_unpack :
    Vetted (fun effect => Leaves Signal.IsCanonical (effect m)) (m.base t .unpack args) := by
  refine (requireTable m t 1 _).bind fun id _ => ?_
  refine (optionalInteger m t 2 _ 1).bind fun i _ => ?_
  extract_lets table ctx low list
  have hlist (j : Int) : Vetted (fun effect => Leaves Signal.IsCanonical (effect m)) (list j) := by
    dsimp only [list]
    split
    · exact h.answer .nil
    · split
      · exact isCanonical_str _
      · refine h.answer fun v hv => ?_
        obtain ⟨n, -, rfl⟩ := List.mem_map.mp hv
        exact (h.table id).getInt isCanonical_nil _
  split
  · exact hlist _
  · have hlast : Vetted (fun _ => True) (m.optionalInteger t args 3 "unpack" 0) := optionalInteger m t 3 "unpack" 0
    cases hj : m.optionalInteger t args 3 "unpack" 0 with
    | ok j => exact hlist j.toInt
    | error e =>
      rw [hj] at hlast
      exact hlast

/-- A function of the base library, once its arguments have been checked. -/
theorem base (f : BaseFunction) : Vetted (fun effect => Leaves Signal.IsCanonical (effect m)) (m.base t f args) := by
  cases f with
  | assert =>
    refine (requireArg m t hargs 1 _).bind fun condition _ => ?_
    split
    · exact h.answer hargs
    · dsimp only
      split
      · exact isCanonical_str _
      · split <;> exact isCanonical_str _
  | error =>
    refine (optionalInteger m t 2 _ 1).bind fun level _ => ?_
    split
    · split <;> exact isCanonical_str _
    · exact hargs.arg 0
  | pcall =>
    refine (requireArg m t hargs 1 _).bind fun f hf => ?_
    exact IsCanonical.beginCall (h.push (a := .protect) trivial) t hf (hargs.drop 1) []
  | next =>
    refine (requireTable m t 1 _).bind fun id _ => ?_
    split
    · rename_i hnext
      have hentry := (h.table id).of_next isCanonical_int hnext
      exact h.answer (.cons hentry.1 (.single hentry.2))
    · exact h.answer (.single isCanonical_nil)
    · exact isCanonical_str _
  | pairs =>
    refine (requireTable m t 1 _).bind fun id _ => ?_
    exact ⟨h.addNative _, .cons (isCanonical_native _) (.cons (isCanonical_table _) (.single isCanonical_nil))⟩
  | ipairs =>
    refine (requireTable m t 1 _).bind fun id _ => ?_
    exact ⟨h.addNative _, .cons (isCanonical_native _) (.cons (isCanonical_table _) (.single (isCanonical_int 0)))⟩
  | ipairsNext =>
    refine (requireTable m t 1 _).bind fun id _ => ?_
    refine (optionalInteger m t 2 _ 0).bind fun i _ => ?_
    refine h.answer ?_
    split
    · exact .nil
    · exact .cons (isCanonical_int _) (.single (h.rawGet _ _ _))
  | select => exact h.base_select t hargs
  | type =>
    refine (requireArg m t hargs 1 _).bind fun v _ => ?_
    exact h.answer (.single (isCanonical_str _))
  | tostring =>
    refine (requireArg m t hargs 1 _).bind fun v hv => ?_
    exact h.attempt t (h.toText hv []) args
  | tonumber => exact h.base_tonumber t hargs
  | rawget =>
    refine (requireTable m t 1 _).bind fun id _ => ?_
    refine (requireArg m t hargs 2 _).bind fun key _ => ?_
    exact h.answer (.single (h.rawGet _ _ _))
  | rawset =>
    refine (requireTable m t 1 _).bind fun id _ => ?_
    refine (requireArg m t hargs 2 _).bind fun key hkey => ?_
    refine (requireArg m t hargs 3 _).bind fun value hvalue => ?_
    split
    · rename_i stored hstored
      exact ⟨h.storeKey id (hkey.normalizeKey hstored) hvalue args, .single (isCanonical_table _)⟩
    · exact isCanonical_str _
  | rawequal =>
    refine (requireArg m t hargs 1 _).bind fun a _ => ?_
    refine (requireArg m t hargs 2 _).bind fun b _ => ?_
    exact h.answer (.single (isCanonical_bool _))
  | setmetatable => exact h.base_setmetatable t
  | getmetatable =>
    refine (requireArg m t hargs 1 _).bind fun v _ => ?_
    split
    · exact h.answer (.single isCanonical_nil)
    · refine h.answer (.single ?_)
      split
      · exact isCanonical_table _
      · exact h.getStr _ _ _
  | unpack => exact h.base_unpack t
  | print => exact h.continuePrint t hargs [] hargs

theorem coroutine (f : CoroutineFunction) :
    Vetted (fun effect => Leaves Signal.IsCanonical (effect m)) (m.coroutine t f args) := by
  cases f with
  | create =>
    refine (requireFunction m t hargs _).bind fun f hf => ?_
    exact ⟨h.newThread hf .nil, .single (isCanonical_thread _)⟩
  | resume =>
    refine (requireThread m t 1 _).bind fun target _ => ?_
    exact h.beginResumeFrom t target false (hargs.drop 1)
  | yield => exact h.yieldNow t hargs
  | status =>
    refine (requireThread m t 1 _).bind fun target _ => ?_
    exact ⟨h, .single (isCanonical_str _)⟩
  | wrap =>
    refine (requireFunction m t hargs _).bind fun f hf => ?_
    exact ⟨(h.newThread hf .nil).addNative _, .single (isCanonical_native _)⟩
  | running => exact ⟨h, .single (isCanonical_thread t)⟩
  | wait =>
    refine (optionalInteger m t 1 _ 1).bind fun ticks _ => ?_
    have hyielded := h.yieldNow t .nil
    show Leaves Signal.IsCanonical _
    dsimp only
    split
    · rename_i heq
      rw [heq] at hyielded
      exact ⟨hyielded.machine.modifyThread t fun _ hth => hth.of_eq rfl rfl rfl, isCanonical_str _⟩
    · exact hyielded

theorem hostOperation (op : HostOperation) : Leaves Signal.IsCanonical (m.hostOperation t op args) := by
  have harg := hargs.arg
  cases op with
  | echo => exact ⟨h, hargs⟩
  | nothing => exact ⟨h, .nil⟩
  | count | depth | threadNumber | references => exact ⟨h, .single (isCanonical_int _)⟩
  | traceback | position | status => exact ⟨h, .single (isCanonical_str _)⟩
  | fail => exact ⟨h, harg 0⟩
  | failAt | failFatal | escapeYield => exact ⟨h, isCanonical_str _⟩
  | yield => exact h.yieldNow t hargs
  | call => exact h.beginCall t (harg 0) (hargs.drop 1) []
  | sleep => exact ⟨h.modifyThread t fun _ hth => hth.of_eq rfl rfl rfl, .nil⟩
  | destroy => exact ⟨h.destroyThread t, .nil⟩
  | jump =>
    have hvetted := h.jumpThread t (harg 0) (hargs.drop 1)
    unfold Machine.hostOperation
    dsimp only
    split
    · rename_i heq
      rw [heq] at hvetted
      exact ⟨hvetted, .nil⟩
    · rename_i heq
      rw [heq] at hvetted
      exact ⟨h, hvetted⟩
  | resume => exact IsCanonical.beginResume (h.push (a := .forget) trivial) t none hargs
  | index => exact h.attempt t (h.index t (harg 0) (harg 1)) args
  | setIndex =>
    have hstored := h.setIndex t (harg 0) (harg 1) (harg 2)
    exact hstored.machine.attempt t hstored.result args
  | arith =>
    unfold Machine.hostOperation
    dsimp only
    split
    · split
      · exact h.attempt t (h.arith t _ (harg 1) (harg 2)) args
      · exact ⟨h, isCanonical_str _⟩
    · exact ⟨h, isCanonical_str _⟩
  | equal => exact h.attempt t (h.equal (harg 0) (harg 1)) args
  | lessThan => exact h.attempt t (h.lessThan t (harg 0) (harg 1)) args
  | lessEqual => exact h.attempt t (h.lessEqual t (harg 0) (harg 1)) args
  | concat => exact h.continueJoin t hargs.reverse []
  | length => exact h.attempt t (h.lengthOf t (harg 0)) args
  | tostring => exact h.attempt t (h.toText (harg 0) []) args
  | metamethod =>
    unfold Machine.hostOperation
    dsimp only
    split
    · exact ⟨h, .single (h.metamethod _ _ _)⟩
    · exact ⟨h, .single isCanonical_nil⟩

omit hargs in
theorem groupAction (g : GroupId) (action : GroupAction) (args : Values) :
    Leaves Signal.IsCanonical (m.groupAction g action args) := by
  cases action with
  | update => exact IsCanonical.beginUpdate (h.push (a := .groupSize g args) trivial) g
  | suspend | resume => exact ⟨h.modifyGroup g _, .single (isCanonical_int _)⟩
  | destroy => exact ⟨h.destroyGroup g, .single (isCanonical_int _)⟩

/-- A native function. -/
theorem invoke (id : NativeId) : Leaves Signal.IsCanonical (m.invoke t id args) := by
  have hcalled : IsCanonical { m with inUse := args } := h.of_eq rfl rfl rfl rfl rfl rfl
  have hvetted (body : Builtin) : Vetted (fun effect => Leaves Signal.IsCanonical (effect { m with inUse := args }))
      (({ m with inUse := args } : Machine).effect t body args) := by
    cases body with
    | base f => exact hcalled.base t hargs f
    | coroutine f => exact hcalled.coroutine t hargs f
    | wrapped target => exact hcalled.beginResumeFrom t target true hargs
    | spawn name =>
      refine (requireArg _ t hargs 1 _).bind fun f hf => ?_
      exact ⟨(hcalled.newThread hf (hargs.drop 1)).addToGroup ⟨0⟩ _, .single (isCanonical_thread _)⟩
    | host op => exact hcalled.hostOperation t hargs op
    | group g action => exact hcalled.groupAction g action args
  have hbody := hvetted (m.native id).body
  unfold Machine.invoke
  dsimp only
  split
  · rename_i effect heq
    rw [show ({ m with inUse := args } : Machine).native id = m.native id from rfl] at heq
    rw [heq] at hbody
    exact hbody
  · rename_i e heq
    rw [show ({ m with inUse := args } : Machine).native id = m.native id from rfl] at heq
    rw [heq] at hbody
    exact ⟨hcalled, hbody⟩

end Natives

section Steps

variable (h : m.IsCanonical) (t : ThreadId) {s : Signal} (hs : s.IsCanonical)
include h hs

theorem stepEndCall (floor : Option Nat) (previous : Option Status) :
    Leaves Signal.IsCanonical (m.stepEndCall t floor previous s) := by
  unfold Machine.stepEndCall
  extract_lets s' m'
  have hs' : s'.IsCanonical := by
    dsimp only [s']
    split
    · exact isCanonical_str _
    · exact isCanonical_str _
    · exact hs
  have hunwound : m'.IsCanonical := by
    dsimp only [m']
    generalize s' = outcome
    split
    · exact h.unwind t _
    · exact h
  exact ⟨hunwound.modifyThread t fun _ hth => hth.of_eq rfl rfl rfl, hs'⟩

theorem stepEndResume (floor : Nat) : Leaves Signal.IsCanonical (m.stepEndResume t floor s) := by
  unfold Machine.stepEndResume
  split
  · exact ⟨(h.unwind t 0).setStatus t _, isCanonical_str _⟩
  · exact ⟨(h.unwind t 0).setStatus t _, hs⟩
  · exact ⟨(h.unwind t floor).setStatus t _, hs⟩
  · exact ⟨h.setStatus t _, hs⟩
  · exact ⟨h.setStatus t _, hs⟩

theorem stepStartedNative : Leaves Signal.IsCanonical (m.stepStartedNative t s) := by
  unfold Machine.stepStartedNative
  split
  · have htaken := h.takeYielded t
    exact ⟨htaken.machine.modifyThread t fun _ hth => hth.of_eq rfl rfl rfl, htaken.result⟩
  · rename_i e _
    refine ⟨h, ?_⟩
    show ((m.thread t).attachTrace e).value.IsCanonical
    rw [Thread.value_attachTrace]
    exact hs
  · exact ⟨h, hs⟩

omit h in
theorem stepProtect : (Machine.stepProtect s).IsCanonical := by
  unfold Machine.stepProtect
  split
  · exact .cons (isCanonical_bool _) hs
  · exact .cons (isCanonical_bool _) (.single hs)
  · exact hs

theorem stepResumed (previous : Status) (wrapped : Bool) :
    Leaves Signal.IsCanonical (m.stepResumed t previous wrapped s) := by
  have hback := h.setStatus t previous
  have hsuccess {vs : Values} (hvs : vs.AreCanonical) :
      (Signal.values (if wrapped then vs else .bool true :: vs)).IsCanonical := by
    split
    · exact hvs
    · exact .cons (isCanonical_bool _) hvs
  unfold Machine.stepResumed
  dsimp only
  split
  · exact ⟨hback, hsuccess hs⟩
  · exact ⟨hback, hsuccess hs⟩
  · exact ⟨hback, hs⟩
  · split
    · split
      · exact ⟨hback, isCanonical_str _⟩
      · exact ⟨hback, hs⟩
    · exact ⟨hback, .cons (isCanonical_bool _) (.single hs)⟩
  · exact ⟨hback, hsuccess .nil⟩

omit hs in
theorem stepTick (s : Signal) (g : GroupId) (members rest : List ThreadId) :
    Leaves Signal.IsCanonical (m.stepTick g members t rest s) := by
  unfold Machine.stepTick
  extract_lets th m'
  have hreported : m'.IsCanonical := by
    dsimp only [m']
    split
    · rename_i e
      have hnoted : IsCanonical { m with reports := ⟨g, (m.thread t).number, e⟩ :: m.reports } :=
        h.of_eq rfl rfl rfl rfl rfl rfl
      split
      · exact hnoted.destroyThread t
      · exact hnoted
    · exact h
  split
  · exact ⟨hreported, .nil⟩
  · exact hreported.continueTicks g members rest

omit hs in
theorem stepPrint (shown : List String) {args : Values} (hargs : args.AreCanonical) (vs : Values) :
    Leaves Signal.IsCanonical (m.stepPrint t shown args vs) := by
  unfold Machine.stepPrint
  split
  · exact h.continuePrint t hargs _ (hargs.drop _)
  · exact ⟨h, isCanonical_str _⟩

/-- Work that waits takes a signal. -/
theorem resumeWork {a : Activation} {rest : List Activation} (hstack : m.stack = a :: rest) :
    Leaves Signal.IsCanonical (m.resumeWork a rest s) := by
  have hwork := h.stack
  rw [hstack] at hwork
  obtain ⟨ha, hbelow⟩ := List.forall_mem_cons.mp hwork
  have hrest : IsCanonical { m with stack := rest } := h.withStack hbelow
  unfold Machine.resumeWork
  split
  · exact h.interpret hs
  · dsimp only
    split
    · exact hrest.stepEndCall _ hs _ _
    · exact hrest.stepStartedNative _ hs
    · exact hrest.stepEndResume _ hs _
    · exact ⟨hrest, stepProtect hs⟩
    · exact hrest.stepResumed _ hs _ _
    · exact ⟨hrest, hs⟩
    · exact ⟨hrest, .nil⟩
    · exact hrest.stepTick _ _ _ _ _
    · exact ⟨hrest, .single (isCanonical_int _)⟩
    · exact hrest.continueUpdates _
    · exact ⟨hrest, Reading.apply_areCanonical hs _⟩
    · exact hrest.continueJoin _ (.cons (Values.AreCanonical.first hs) ha) _
    · exact hrest.stepPrint _ _ ha _
    · exact ⟨hrest, hs⟩

/-- One step of any machine. -/
theorem step : Leaves Signal.IsCanonical (m.step s) := by
  unfold Machine.step
  split
  · exact h.invoke _ hs _
  · split
    · exact ⟨h, hs⟩
    · rename_i hstack
      have hcleared : IsCanonical { m with inUse := [] } := h.of_eq rfl rfl rfl rfl rfl rfl
      exact hcleared.resumeWork hs hstack

end Steps

end Machine.IsCanonical

end LuaMachine
