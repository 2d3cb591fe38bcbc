import LuaMachine.Proofs.Machine.Running
import LuaMachine.Library.Module

namespace LuaMachine

/-- What a host can do with threads. -/
inductive ThreadOperation
  | newThread (f : Value) (args : Values)
  | resume (t : ThreadId) (budget : Option Nat) (args : Values)
  | call (t : ThreadId) (f : Value) (args : Values)
  | jump (t : ThreadId) (f : Value) (args : Values)
  | destroy (t : ThreadId)
  | sleep (t : ThreadId) (ticks : Nat)

/-- The thread that an operation is about. -/
def ThreadOperation.thread? : ThreadOperation → Option ThreadId
  | newThread .. => none
  | resume t .. => some t
  | call t .. => some t
  | jump t .. => some t
  | destroy t => some t
  | sleep t .. => some t

/-- Carries out an operation, with at most `fuel` steps of the machine, and gives its outcome. -/
def Machine.operate (fuel : Nat) (m : Machine) : ThreadOperation → Option (Machine × Signal)
  | .newThread f args =>
    let (m, id) := m.newThread f args
    some (m, .values [.thread id])
  | .resume t budget args =>
    let (m, s) := m.beginResume t budget args
    m.run fuel s
  | .call t f args =>
    let (m, s) := m.beginCall t f args []
    m.run fuel s
  | .jump t f args =>
    match m.jumpThread t f args with
    | .ok m => some (m, .values [])
    | .error e => some (m, .error e)
  | .destroy t => some (m.destroyThread t, .values [])
  | .sleep t ticks => some (m.modifyThread t fun th => { th with sleep := ticks }, .values [])

/-- The machines that a host can have between two operations on threads that exist, as long as its native functions are
regular. Meanwhile it may load any code and change everything but threads and their registers. -/
inductive Machine.Hosted : Machine → Prop
  | new (limits : Limits) : Hosted (Machine.new limits)
  | change {m m' : Machine} (h : m.Hosted) (hlimits : m'.limits = m.limits) (hthreads : m'.threads = m.threads)
      (hstack : m'.stack = m.stack) (hfiles : m.files.size ≤ m'.files.size)
      (hnatives : ∀ n ∈ m'.natives, n.body.IsRegular) : Hosted m'
  | operate {m m' : Machine} {op : ThreadOperation} {fuel : Nat} {s : Signal} (h : m.Hosted)
      (hthread : ∀ t ∈ op.thread?, t.index < m.threads.size) (hresult : m.operate fuel op = some (m', s)) : Hosted m'

/-- What the status of a thread says about the rest of it while nobody runs it. -/
structure Thread.WellFormed (callDepth : Nat) (th : Thread) : Prop where
  depth : th.depth = th.frames.length
  bounded : th.depth ≤ callDepth
  inactive : th.status.isActive = false
  initial : th.status = .initial → th.start.isSome ∧ th.frames = []
  suspended : th.status = .suspended → th.start = none ∧
    (th.frames ≠ [] ∧ th.hostReturnPending = false ∨ th.frames = [] ∧ th.hostReturnPending = true)
  endCall : th.status = .endCall → th.frames ≠ []
  dead : th.status = .dead → th.frames = [] ∧ th.start = none
  pending : ∀ i f, th.frames[i]? = some f → f.pending ≠ none → i = 0 ∧ th.status = .suspended
  native : th.nativeDepth = 0

/-- An idle thread waits for a native call only if it is suspended, and then with its innermost frame. -/
theorem ThreadOutline.Idle.pending {scope : Scope} {depth : Nat} {th : ThreadOutline} (h : th.Idle scope depth)
    {i : Nat} {f : FrameOutline} (hf : th.frames[i]? = some f) (hpending : f.pending ≠ none) :
    i = 0 ∧ th.status = .suspended := by
  have hband {fs : List FrameOutline} (hfs : Band fs) {i : Nat} (hi : fs[i]? = some f) : False :=
    hpending (hfs.pending_of_mem (List.mem_of_getElem? hi))
  have hnil (hfs : th.frames = []) : False := by
    rw [hfs] at hf
    cases hf
  have hrest := h.atRest
  unfold ThreadOutline.AtRest at hrest
  cases hstatus : th.status with
  | initial =>
    rw [hstatus] at hrest
    exact absurd hrest.2.1 hnil
  | dead =>
    rw [hstatus] at hrest
    exact absurd hrest.2 hnil
  | endCall =>
    rw [hstatus] at hrest
    exact absurd hf (hband hrest.2)
  | running | normal =>
    rw [hstatus] at hrest
    cases hrest
  | suspended =>
    rw [hstatus] at hrest
    obtain ⟨-, ⟨hpaused, -⟩ | ⟨hfs, -⟩⟩ := hrest
    · refine ⟨?_, rfl⟩
      generalize th.frames = fs at hf hpaused
      obtain ⟨hcleared, -⟩ := hpaused
      cases i with
      | zero => rfl
      | succ i => exact absurd hf (fun hi => hband hcleared (i := i + 1) hi)
    · exact absurd hfs hnil

/-- A thread that is idle among threads with a function to start with is so among any. -/
theorem ThreadOutline.Idle.of_host {scope : Scope} {depth : Nat} {th : ThreadOutline}
    (h : th.Idle .host depth) : th.Idle scope depth := by
  refine ⟨h.toFits, h.native, ?_⟩
  have hrest := h.atRest
  unfold ThreadOutline.AtRest at hrest ⊢
  cases hstatus : th.status with
  | initial =>
    rw [hstatus] at hrest
    exact ⟨fun _ => hrest.1 rfl, hrest.2⟩
  | suspended | endCall | dead | running | normal =>
    rw [hstatus] at hrest
    exact hrest

/-- An idle thread is well-formed if every new thread has a function to start with. -/
theorem Thread.WellFormed.of_idle {callDepth : Nat} {th : Thread} (h : th.outline.Idle .host callDepth) :
    th.WellFormed callDepth := by
  have hdepth : th.depth = th.frames.length := by
    have hcount := h.counted
    rwa [ThreadOutline.Counted, Thread.outline, List.length_map] at hcount
  have hbound : th.frames.length ≤ callDepth := by
    have hfits := h.bounded
    rwa [Thread.outline, List.length_map] at hfits
  have hframes : th.outline.frames = [] ↔ th.frames = [] := List.map_eq_nil_iff
  have hstart : th.outline.starts = false ↔ th.start = none := by
    rw [← Option.not_isSome_iff_eq_none, Bool.not_eq_true]
    rfl
  have hrest := h.atRest
  unfold ThreadOutline.AtRest at hrest
  rw [show th.outline.status = th.status from rfl] at hrest
  refine ⟨hdepth, by rw [hdepth]; exact hbound, h.isActive_eq_false, ?_, ?_, ?_, ?_, ?_, h.native⟩
  · intro hstatus
    rw [hstatus] at hrest
    exact ⟨hrest.1 rfl, hframes.mp hrest.2.1⟩
  · intro hstatus
    rw [hstatus] at hrest
    refine ⟨hstart.mp hrest.1, hrest.2.imp ?_ ?_⟩
    · rintro ⟨hpaused, hhost⟩
      exact ⟨fun hnil => hpaused.ne_nil (hframes.mpr hnil), hhost⟩
    · rintro ⟨hnil, hhost⟩
      exact ⟨hframes.mp hnil, hhost⟩
  · intro hstatus hnil
    rw [hstatus] at hrest
    exact hrest.2.ne_nil (hframes.mpr hnil)
  · intro hstatus
    rw [hstatus] at hrest
    exact ⟨hframes.mp hrest.2, hstart.mp hrest.1⟩
  · intro i f hf hpending
    refine h.pending (f := f.outline) ?_ hpending
    rw [Thread.outline, List.getElem?_map, hf]
    rfl

/-- An entry of a library that is regular, if it is a function. -/
def Library.Entry.IsRegular : Library.Entry → Prop
  | .function body => body.IsRegular
  | _ => True

/-- Nobody runs a thread, and all threads are in order. -/
structure Machine.AtRest (scope : Scope) (m : Machine) : Prop where
  regular : ∀ n ∈ m.natives, n.body.IsRegular
  stack : m.stack = []
  idle : ∀ id, (m.outline.thread id).Idle scope m.limits.callDepth

namespace Machine.AtRest

variable {scope : Scope} {m m' : Machine} {t : ThreadId}

theorem of_host (h : m.AtRest .host) : m.AtRest scope := ⟨h.regular, h.stack, fun id => (h.idle id).of_host⟩

theorem setting (h : m.AtRest scope) (hscope : scope.Whole) (hrange : t.index < m.threads.size) :
    m.outline.Setting scope t [] [] := by
  refine ⟨fun _ => h.regular, ?_, by simp, by simpa using hrange, (h.idle t).toFits, fun id _ => (h.idle id).rests id⟩
  rw [← hscope.base]
  exact .bottom

theorem sound (h : m.AtRest scope) (hscope : scope.Whole) {s : Signal} (hs : s.IsOutcome scope) :
    m.outline.Sound scope s :=
  .atRest (fun _ => h.regular) (h.stack.trans hscope.base.symm) (fun id => (h.idle id).rests id) hs

end Machine.AtRest

namespace Machine

variable {scope : Scope} {m m' : Machine} {s s' : Signal} {t : ThreadId}

theorem isWorking_run {fuel : Nat} (hrun : run fuel m s = some (m', s')) : m'.isWorking s' = false := by
  induction fuel generalizing m s with
  | zero =>
    rw [run] at hrun
    split at hrun
    · cases hrun
    · rename_i hnot
      cases hrun
      exact Bool.eq_false_iff.mpr hnot
  | succ fuel ih =>
    rw [run] at hrun
    split at hrun
    · exact ih hrun
    · rename_i hnot
      cases hrun
      exact Bool.eq_false_iff.mpr hnot

/-- A machine without work left is at rest, with the outcome of its work. -/
theorem atRest_of_sound (hscope : scope.Whole) (h : m.outline.Sound scope s) (hstack : m.stack = []) :
    m.AtRest scope ∧ s.IsOutcome scope := by
  cases h with
  | atRest hregular _ hrests hs =>
    exact ⟨⟨hregular hscope.regular, hstack, fun id => (hrests id).idle (hscope.not_occupies id)⟩, hs⟩
  | working hsome hsetting _ hready =>
    rw [outline_stack, hstack] at hsome
    exact absurd (List.append_eq_nil_iff.mp hsome.symm).1 hready.ne_nil
  | back hsome =>
    rw [outline_stack, hstack] at hsome
    cases hsome

/-- A run that ends leaves the machine at rest. -/
theorem atRest_of_run {fuel : Nat} (hscope : scope.Whole) (h : m.outline.Sound scope s)
    (hrun : run fuel m s = some (m', s')) : m'.AtRest scope ∧ s'.IsOutcome scope := by
  have hdone := isWorking_run hrun
  refine atRest_of_sound hscope (run_sound hscope h hrun) ?_
  unfold isWorking at hdone
  split at hdone
  · cases hdone
  · simpa using hdone

namespace AtRest

/-- A resume of any thread leaves all threads in order. -/
theorem resume (h : m.AtRest scope) (hscope : scope.Whole) (hrange : t.index < m.threads.size) (budget : Option Nat)
    (args : Values) : (m.beginResume t budget args).1.outline.Sound scope (m.beginResume t budget args).2 :=
  beginResume_sound h.stack (h.setting hscope hrange) (h.idle t) budget args

/-- A call on any thread leaves all threads in order. -/
theorem call (h : m.AtRest scope) (hscope : scope.Whole) (hrange : t.index < m.threads.size) (f : Value)
    (args held : Values) : (m.beginCall t f args held).1.outline.Sound scope (m.beginCall t f args held).2 :=
  beginCall_sound_of_idle h.stack (h.setting hscope hrange) (h.idle t) (fun _ he => h.sound hscope he.ordinary) f args
    held

theorem modifyThread (h : m.AtRest scope) {f : ThreadOutline → ThreadOutline}
    (ho : m'.outline = m.outline.modifyThread t f)
    (hidle : (f (m.outline.thread t)).Idle scope m.limits.callDepth) : m'.AtRest scope := by
  have hlimits : m'.limits = m.limits := congrArg Outline.limits ho
  have hstack : m'.stack = m.stack := congrArg Outline.stack ho
  have hnatives : m'.natives = m.natives := congrArg Outline.natives ho
  refine ⟨by rw [hnatives]; exact h.regular, hstack.trans h.stack, fun id => ?_⟩
  rw [hlimits, ho]
  obtain hsame | ⟨rfl, hchanged⟩ := m.outline.thread_modifyThread_cases t f id
  · rw [hsame]
    exact h.idle id
  · rw [hchanged]
    exact hidle

/-- A host may change what the bookkeeping of calls does not depend on, and add regular functions. -/
theorem congr (h : m.AtRest scope) (hlimits : m'.limits = m.limits) (hthreads : m'.threads = m.threads)
    (hstack : m'.stack = m.stack) (hnatives : ∀ n ∈ m'.natives, n.body.IsRegular) : m'.AtRest scope := by
  have hthread (id : ThreadId) : m'.outline.thread id = m.outline.thread id := by
    rw [outline_thread, outline_thread, thread, hthreads, thread]
  refine ⟨hnatives, hstack.trans h.stack, fun id => ?_⟩
  rw [hthread, hlimits]
  exact h.idle id

theorem newThread (h : m.AtRest scope) (f : Value) (args : Values) : (m.newThread f args).1.AtRest scope := by
  have houtline := m.outline_newThread f args
  have hlimits : (m.newThread f args).1.limits = m.limits := congrArg Outline.limits houtline
  have hstack : (m.newThread f args).1.stack = m.stack := congrArg Outline.stack houtline
  have hnatives : (m.newThread f args).1.natives = m.natives := congrArg Outline.natives houtline
  refine ⟨by rw [hnatives]; exact h.regular, hstack.trans h.stack, fun id => ?_⟩
  rw [hlimits, houtline]
  by_cases hlt : id.index < m.outline.threads.size
  · rw [Outline.thread_addThread_of_lt hlt]
    exact h.idle id
  · exact Outline.idle_addThread_of_le (Nat.not_lt.mp hlt) _

theorem destroyThread (h : m.AtRest scope) (hrange : t.index < m.threads.size) : (m.destroyThread t).AtRest scope :=
  h.modifyThread (outline_destroyThread (h.idle t).counted hrange) ⟨⟨rfl, Nat.zero_le _⟩, (h.idle t).native, rfl, rfl⟩

/-- A thread that jumps starts over. -/
theorem jumpThread (h : m.AtRest scope) (hrange : t.index < m.threads.size) {f : Value} {args : Values}
    (hresult : m.jumpThread t f args = .ok m') : m'.AtRest scope := by
  unfold Machine.jumpThread at hresult
  split at hresult
  · cases hresult
  · cases hresult
    have hunwound := outline_unwind (h.idle t).counted hrange 0
    rw [Nat.sub_zero, List.drop_length] at hunwound
    refine h.modifyThread (f := fun th => ⟨.initial, [], 0, true, false, th.nativeDepth⟩) ?_
      ⟨⟨rfl, Nat.zero_le _⟩, (h.idle t).native, fun _ => rfl, rfl, rfl⟩
    rw [outline_modifyThread (g := fun th => ⟨.initial, th.frames, th.depth, true, false, th.nativeDepth⟩) _
      (by intro; rfl), hunwound, Outline.setFrames, Outline.modifyThread_modifyThread]
    rfl

/-- An operation leaves all threads in order and does not find the bookkeeping of calls broken. -/
theorem operate (h : m.AtRest scope) (hscope : scope.Whole) {op : ThreadOperation} {fuel : Nat}
    (hthread : ∀ t ∈ op.thread?, t.index < m.threads.size) (hresult : m.operate fuel op = some (m', s)) :
    m'.AtRest scope ∧ s.IsOutcome scope := by
  cases op with
  | newThread f args =>
    cases hresult
    exact ⟨h.newThread f args, trivial⟩
  | resume t budget args => exact atRest_of_run hscope (h.resume hscope (hthread t rfl) budget args) hresult
  | call t f args => exact atRest_of_run hscope (h.call hscope (hthread t rfl) f args []) hresult
  | jump t f args =>
    unfold Machine.operate at hresult
    dsimp only at hresult
    split at hresult
    · rename_i hjumped
      cases hresult
      exact ⟨h.jumpThread (hthread t rfl) hjumped, trivial⟩
    · rename_i e hrefused
      cases hresult
      unfold Machine.jumpThread at hrefused
      split at hrefused
      · cases hrefused
        exact ⟨h, trivial⟩
      · cases hrefused
  | destroy t =>
    cases hresult
    exact ⟨h.destroyThread (hthread t rfl), trivial⟩
  | sleep t ticks =>
    cases hresult
    refine ⟨h.modifyThread (f := fun th => th) ?_ (h.idle t), trivial⟩
    exact outline_modifyThread m (by intro; rfl) t

end AtRest

/-- Whatever a host does, all threads are in order when it is done. -/
theorem Hosted.atRest (h : m.Hosted) : m.AtRest .host := by
  induction h with
  | new limits =>
    refine ⟨fun n hn => absurd hn (Array.not_mem_empty n), rfl, fun id => ?_⟩
    rw [outline_thread, thread_of_le (Nat.zero_le _)]
    exact ⟨⟨rfl, Nat.zero_le _⟩, rfl, rfl, rfl⟩
  | change _ hlimits hthreads hstack _ hnatives ih => exact ih.congr hlimits hthreads hstack hnatives
  | operate _ hthread hresult ih => exact (ih.operate .host hthread hresult).1

section Libraries

theorem Hosted.entryValue (h : m.Hosted) (name : String) {entry : Library.Entry} (hentry : entry.IsRegular) :
    (m.entryValue name entry).1.Hosted := by
  cases entry with
  | globals | text => exact h
  | function body =>
    refine h.change rfl rfl rfl (Nat.le_refl _) fun n hn => ?_
    rcases Array.mem_push.mp hn with hold | rfl
    · exact h.atRest.regular n hold
    · exact hentry

theorem Hosted.setStr (h : m.Hosted) (id : TableId) (key : String) (v : Value) (inUse : Values) :
    (m.setStr id key v inUse).Hosted :=
  h.change rfl rfl rfl (Nat.le_refl _) h.atRest.regular

theorem Hosted.openModule (h : m.Hosted) {module : Library.Module} (hentries : ∀ e ∈ module.entries, e.2.IsRegular) :
    (m.openModule module).Hosted := by
  unfold Machine.openModule
  split
  · exact List.foldlRecOn _ _ h fun m hm e he => (hm.entryValue _ (hentries e he)).setStr _ _ _ _
  · have hadded : (m.addTable (Table.new 0 module.entries.length)).1.Hosted :=
      h.change rfl rfl rfl (Nat.le_refl _) h.atRest.regular
    refine Hosted.setStr ?_ _ _ _ _
    exact List.foldlRecOn _ _ hadded fun m hm e he => (hm.entryValue _ (hentries e he)).setStr _ _ _ _

/-- The libraries of a machine contain regular functions only. -/
theorem Hosted.openLibraries (h : m.Hosted) (selection : Library.Selection) : (m.openLibraries selection).Hosted := by
  have hbase : ∀ e ∈ Library.baseModule.entries, e.2.IsRegular := by
    intro e he
    rcases List.mem_append.mp he with hfunction | hother
    · obtain ⟨f, -, rfl⟩ := List.mem_map.mp hfunction
      trivial
    · simp only [List.mem_cons, List.not_mem_nil, or_false] at hother
      rcases hother with rfl | rfl <;> trivial
  have hcoroutine : ∀ e ∈ Library.coroutineModule.entries, e.2.IsRegular := by
    intro e he
    obtain ⟨f, -, rfl⟩ := List.mem_map.mp he
    trivial
  have hmodules : ∀ module ∈ selection.modules, module = Library.baseModule ∨ module = Library.coroutineModule := by
    cases selection <;> simp [Library.Selection.modules]
  unfold Machine.openLibraries
  refine List.foldlRecOn _ _ h fun m hm module hmodule => hm.openModule ?_
  rcases hmodules module hmodule with rfl | rfl
  · exact hbase
  · exact hcoroutine

end Libraries

/-- Between the operations of a host every thread is well-formed, and no operation finds the bookkeeping of calls
broken. -/
theorem Hosted.threads_wellFormed (h : m.Hosted) :
    (∀ th ∈ m.threads, th.WellFormed m.limits.callDepth) ∧
      ∀ (fuel : Nat) (op : ThreadOperation) (m' : Machine) (s : Signal), (∀ t ∈ op.thread?, t.index < m.threads.size) →
        m.operate fuel op = some (m', s) → ∀ what, s ≠ .error (.corrupted what) := by
  have hrest := h.atRest
  constructor
  · intro th hth
    obtain ⟨i, hi, hget⟩ := Array.mem_iff_getElem.mp hth
    have hidle := hrest.idle ⟨i⟩
    rw [outline_thread, thread, Array.getElem?_eq_getElem hi, hget] at hidle
    exact .of_idle hidle
  · rintro fuel op m' s hthread hresult what rfl
    exact Bool.false_ne_true (hrest.operate .host hthread hresult).2.1.symm

/-- A thread whose start function yields: the resume ends with the values yielded, and the thread waits for the next. -/
theorem threads_wellFormed_of_yield :
    let m := (((Machine.new {}).addNative ⟨"yield", .coroutine .yield⟩).1.newThread (.native ⟨0⟩) [.int 1]).1
    ∃ m', m.operate 10 (.resume ⟨0⟩ none []) = some (m', .yielded [.int 1]) ∧
      (m'.thread ⟨0⟩).status = .suspended ∧ (m'.thread ⟨0⟩).hostReturnPending = true ∧
        ∀ th ∈ m'.threads, th.WellFormed m'.limits.callDepth := by
  have hadded : ((Machine.new {}).addNative ⟨"yield", .coroutine .yield⟩).1.Hosted := by
    refine .change (.new {}) rfl rfl rfl (Nat.le_refl _) fun n hn => ?_
    rw [show n = ⟨"yield", .coroutine .yield⟩ by simpa [Machine.addNative, Machine.new] using hn]
    trivial
  have hstarted := @Hosted.operate _ _ (.newThread (.native ⟨0⟩) [.int 1]) 0 _ hadded (fun t ht => nomatch ht) rfl
  have hresumed {m' : Machine} {s : Signal} (hresult : operate 10 _ (.resume ⟨0⟩ none []) = some (m', s)) :=
    Hosted.operate hstarted (fun t ht => by cases ht; decide) hresult
  exact ⟨_, rfl, rfl, rfl, (Hosted.threads_wellFormed (hresumed rfl)).1⟩

end Machine

end LuaMachine
