import LuaMachine.Machine.Execute
import LuaMachine.Proofs.Chunk.Encoding
import LuaMachine.Proofs.Table.Contents
import LuaMachine.Proofs.Value.Canonical

namespace LuaMachine

/-- The numbers among the constants of a function and of the functions inside it are canonical. -/
def Prototype.IsCanonical (p : Prototype) : Prop := ∀ q, p.Contains q → ∀ c ∈ q.constants, c.value.IsCanonical

theorem Prototype.IsCanonical.child {p c : Prototype} (h : p.IsCanonical) (hc : c ∈ p.children) : c.IsCanonical :=
  fun q hq => h q (.child hc hq)

theorem Prototype.IsCanonical.constant {p : Prototype} (h : p.IsCanonical) (i : Nat) : (p.constant i).IsCanonical := by
  unfold Prototype.constant
  cases hget : p.constants[i]? with
  | none => exact Value.isCanonical_nil
  | some c => exact h p (.self p) c (Array.mem_of_getElem? hget)

/-- A captured variable that has a value of its own has a canonical one. -/
def Cell.IsCanonical : Cell → Prop
  | .onStack .. => True
  | .closed v => v.IsCanonical

/-- The numbers that a thread keeps beside its registers are canonical. -/
structure Thread.IsCanonical (th : Thread) : Prop where
  start : ∀ f args, th.start = some (f, args) → f.IsCanonical ∧ args.AreCanonical
  varargs : ∀ f ∈ th.frames, f.varargs.AreCanonical
  yielded : th.yielded.AreCanonical

/-- The numbers that work in progress hands on are canonical. Values that are only kept alive do not matter. -/
def Activation.IsCanonical : Activation → Prop
  | .concat _ left _ => left.AreCanonical
  | .print _ _ args => args.AreCanonical
  | _ => True

/-- The numbers in a signal are canonical. -/
def Signal.IsCanonical : Signal → Prop
  | .invoke _ _ args => args.AreCanonical
  | .values vs => vs.AreCanonical
  | .yielded vs => vs.AreCanonical
  | .error e => e.value.IsCanonical
  | _ => True

/-- The numbers in tables, registers and captured variables are canonical, and so are those in constants, in the
arguments that threads keep and in the work in progress. -/
structure Machine.IsCanonical (m : Machine) : Prop where
  tables : ∀ t ∈ m.tables, t.All Value.IsCanonical
  files : ∀ file ∈ m.files, ∀ v ∈ file, v.IsCanonical
  cells : ∀ c ∈ m.cells, c.IsCanonical
  closures : ∀ c ∈ m.closures, c.proto.IsCanonical
  threads : ∀ th ∈ m.threads, th.IsCanonical
  stack : ∀ a ∈ m.stack, a.IsCanonical

/-- A machine that comes with something else is canonical, and that has a property. -/
structure Machine.Leaves {α : Type} (P : α → Prop) (r : Machine × α) : Prop where
  machine : r.1.IsCanonical
  result : P r.2

/-- A check fails, if it does, with a canonical error, and its result is as wanted. -/
def Vetted {α : Type} (P : α → Prop) : Except Error α → Prop
  | .ok a => P a
  | .error e => e.value.IsCanonical

theorem Vetted.bind {α β : Type} {P : α → Prop} {Q : β → Prop} {x : Except Error α} {f : α → Except Error β}
    (hx : Vetted P x) (hf : ∀ a, P a → Vetted Q (f a)) : Vetted Q (x >>= f) := by
  cases x with
  | ok a => exact hf a hx
  | error e => exact hx

namespace Thread.IsCanonical

variable {th th' : Thread}

theorem of_eq (h : th.IsCanonical) (hstart : th'.start = th.start) (hframes : th'.frames = th.frames)
    (hyielded : th'.yielded = th.yielded) : th'.IsCanonical :=
  ⟨by rw [hstart]; exact h.start, by rw [hframes]; exact h.varargs, by rw [hyielded]; exact h.yielded⟩

theorem idle (number : Nat) (status : Status) : IsCanonical { number, status } := ⟨nofun, nofun, nofun⟩

end Thread.IsCanonical

namespace Machine.IsCanonical

open Value

variable {m m' : Machine}

section Reading

variable (h : m.IsCanonical)
include h

theorem table (id : TableId) : (m.table id).All Value.IsCanonical :=
  forall_getD h.tables (Table.all_new isCanonical_nil 0 0) _

theorem thread (t : ThreadId) : (m.thread t).IsCanonical := forall_getD h.threads (.idle 0 .dead) _

theorem file (id : FileId) : ∀ v ∈ m.file id, v.IsCanonical :=
  forall_getD (p := fun file : Array Value => ∀ v ∈ file, v.IsCanonical) h.files (by simp) _

theorem register (file : FileId) (i : Nat) : (m.register file i).IsCanonical :=
  forall_getD (h.file file) isCanonical_nil i

theorem closure (id : ClosureId) : (m.closure id).proto.IsCanonical := by
  refine forall_getD (p := fun c : Closure => c.proto.IsCanonical) h.closures (fun q hq c hc => ?_) _
  cases hq with
  | self => exact absurd hc (Array.not_mem_empty c)
  | child hc => cases hc

theorem cellValue (id : CellId) : (m.cellValue id).IsCanonical := by
  have hcell : (m.cell id).IsCanonical := forall_getD (d := .closed .nil) h.cells isCanonical_nil _
  unfold Machine.cellValue
  split
  · exact h.register _ _
  · rename_i hclosed
    rw [hclosed] at hcell
    exact hcell

theorem rawGet (id : TableId) (key : Value) (inUse : Values) : (m.rawGet id key inUse).IsCanonical :=
  (h.table id).get isCanonical_nil key

theorem getStr (id : TableId) (key : String) (inUse : Values) : (m.getStr id key inUse).IsCanonical :=
  (h.table id).getStr isCanonical_nil key

theorem collect (file : FileId) (top start count : Nat) : (m.collect file top start count).AreCanonical := by
  intro v hv
  obtain ⟨i, -, rfl⟩ := List.mem_map.mp hv
  exact h.register _ _

end Reading

section Changes

variable (h : m.IsCanonical)
include h

/-- What is neither storage nor work in progress does not matter. -/
theorem of_eq (htables : m'.tables = m.tables) (hfiles : m'.files = m.files) (hcells : m'.cells = m.cells)
    (hclosures : m'.closures = m.closures) (hthreads : m'.threads = m.threads) (hstack : m'.stack = m.stack) :
    m'.IsCanonical :=
  ⟨htables ▸ h.tables, hfiles ▸ h.files, hcells ▸ h.cells, hclosures ▸ h.closures, hthreads ▸ h.threads,
    hstack ▸ h.stack⟩

theorem withStack {stack : List Activation} (hstack : ∀ a ∈ stack, a.IsCanonical) : IsCanonical { m with stack } :=
  { h with stack := hstack }

theorem push {a : Activation} (ha : a.IsCanonical) : (m.push a).IsCanonical :=
  h.withStack (List.forall_mem_cons.mpr ⟨ha, h.stack⟩)

theorem pop : m.pop.IsCanonical := h.withStack fun a ha => h.stack a (List.mem_of_mem_tail ha)

theorem replaceTop {a : Activation} (ha : a.IsCanonical) : (m.replaceTop a).IsCanonical := h.pop.push ha

theorem modifyGroup (g : GroupId) (f : Group → Group) : (m.modifyGroup g f).IsCanonical :=
  h.of_eq rfl rfl rfl rfl rfl rfl

theorem modifyTable (id : TableId) {f : Table → Table}
    (hf : ∀ t : Table, t.All Value.IsCanonical → (f t).All Value.IsCanonical) : (m.modifyTable id f).IsCanonical :=
  { h with tables := forall_modify h.tables _ hf }

theorem modifyThread (t : ThreadId) {f : Thread → Thread} (hf : ∀ th : Thread, th.IsCanonical → (f th).IsCanonical) :
    (m.modifyThread t f).IsCanonical :=
  { h with threads := forall_modify h.threads _ hf }

theorem modifyFile (file : FileId) {f : Array Value → Array Value}
    (hf : ∀ xs : Array Value, (∀ v ∈ xs, v.IsCanonical) → ∀ v ∈ f xs, v.IsCanonical) :
    (m.modifyFile file f).IsCanonical :=
  { h with files := forall_modify h.files _ hf }

theorem modifyTop (t : ThreadId) {f : Frame → Frame}
    (hf : ∀ fr : Frame, fr.varargs.AreCanonical → (f fr).varargs.AreCanonical) : (m.modifyTop t f).IsCanonical := by
  refine h.modifyThread t fun th hth => ?_
  split
  · have hframes := List.forall_mem_cons.mp hth.varargs
    exact ⟨hth.start, List.forall_mem_cons.mpr ⟨hf _ hframes.1, hframes.2⟩, hth.yielded⟩
  · exact hth

theorem setCell (id : CellId) {c : Cell} (hc : c.IsCanonical) : (m.setCell id c).IsCanonical :=
  { h with cells := forall_setIfInBounds h.cells _ hc }

theorem addTable {t : Table} (ht : t.All Value.IsCanonical) : (m.addTable t).1.IsCanonical :=
  { h with tables := forall_push h.tables ht }

theorem addClosure {c : Closure} (hc : c.proto.IsCanonical) : (m.addClosure c).1.IsCanonical :=
  { h with closures := forall_push h.closures hc }

theorem addNative (n : Native) : (m.addNative n).1.IsCanonical := h.of_eq rfl rfl rfl rfl rfl rfl

theorem addCell {c : Cell} (hc : c.IsCanonical) : (m.addCell c).1.IsCanonical :=
  { h with cells := forall_push h.cells hc }

theorem addFile {registers : Array Value} (hregisters : ∀ v ∈ registers, v.IsCanonical) :
    (m.addFile registers).1.IsCanonical :=
  { h with files := forall_push h.files hregisters }

theorem newThread {f : Value} {args : Values} (hf : f.IsCanonical) (hargs : args.AreCanonical) :
    (m.newThread f args).1.IsCanonical := by
  have hadded : m.addThread.1.IsCanonical := { h with threads := forall_push h.threads (.idle _ .initial) }
  refine hadded.modifyThread _ fun th hth => ⟨?_, hth.varargs, hth.yielded⟩
  rintro g bound ⟨⟩
  exact ⟨hf, hargs⟩

theorem storeKey (id : TableId) {key value : Value} (hkey : key.IsCanonical) (hvalue : value.IsCanonical)
    (inUse : Values) : (m.storeKey id key value inUse).IsCanonical :=
  h.modifyTable id fun _ ht => ht.setNormal isCanonical_nil isCanonical_int hkey hvalue

theorem setStr (id : TableId) (key : String) {value : Value} (hvalue : value.IsCanonical) (inUse : Values) :
    (m.setStr id key value inUse).IsCanonical :=
  h.modifyTable id fun _ ht => ht.setStr isCanonical_nil isCanonical_int (isCanonical_str key) hvalue

theorem installMetatable (id : TableId) (metatable : Option TableId) (mode : WeakMode) (inUse : Values) :
    (m.installMetatable id metatable mode inUse).IsCanonical := by
  have hinstalled := h.modifyTable id (f := fun t => { t with metatable }) fun t ht => ht.congr rfl rfl
  exact hinstalled.modifyTable id fun t ht => ht.setMode isCanonical_nil isCanonical_int mode

end Changes

section Registers

theorem growTo {registers : Array Value} (h : ∀ v ∈ registers, v.IsCanonical) (size : Nat) :
    ∀ v ∈ LuaMachine.growTo registers size, v.IsCanonical := by
  intro v hv
  obtain hv | hv := Array.mem_append.mp hv
  · exact h v hv
  · rw [(Array.mem_replicate.mp hv).2]
    exact isCanonical_nil

theorem writeRow {vs : Values} (hvs : vs.AreCanonical) {registers : Array Value}
    (h : ∀ v ∈ registers, v.IsCanonical) (start : Nat) :
    ∀ v ∈ LuaMachine.writeRow registers start vs, v.IsCanonical := by
  induction vs generalizing registers start with
  | nil => exact h
  | cons v rest ih =>
    have hvs := List.forall_mem_cons.mp hvs
    exact ih hvs.2 (forall_setIfInBounds h start hvs.1) _

variable (h : m.IsCanonical)
include h

theorem setRegister (file : FileId) (i : Nat) {v : Value} (hv : v.IsCanonical) :
    (m.setRegister file i v).IsCanonical := by
  refine h.modifyFile file fun registers hregisters => ?_
  unfold writeAt
  split
  · exact forall_setIfInBounds hregisters i hv
  · exact forall_setIfInBounds (growTo hregisters _) i hv

theorem writeGrown (file : FileId) (size start : Nat) {vs : Values} (hvs : vs.AreCanonical) :
    (m.modifyFile file fun registers =>
      LuaMachine.writeRow (LuaMachine.growTo registers size) start vs).IsCanonical :=
  h.modifyFile file fun _ hregisters => writeRow hvs (growTo hregisters size) start

theorem setCellValue (id : CellId) {v : Value} (hv : v.IsCanonical) : (m.setCellValue id v).IsCanonical := by
  unfold Machine.setCellValue
  split
  · exact h.setRegister _ _ hv
  · exact h.setCell id hv

theorem closeCells (start : Nat) (ids : List CellId) : (m.closeCells start ids).1.IsCanonical := by
  induction ids generalizing m with
  | nil => exact h
  | cons id rest ih =>
    rw [Machine.closeCells]
    split
    · exact ih h
    · split
      · exact ih (h.setCell id (h.cellValue id))
      · exact ih h

theorem closeTopCells (t : ThreadId) (start : Nat) : (m.closeTopCells t start).IsCanonical := by
  unfold Machine.closeTopCells
  split
  · exact h
  · exact (h.closeCells start _).modifyTop t fun _ hargs => hargs

theorem captureRegister (t : ThreadId) (top : Frame) (i : Nat) : (m.captureRegister t top i).1.IsCanonical := by
  unfold Machine.captureRegister
  split
  · exact h
  · exact (h.addCell (c := .onStack top.file i) trivial).modifyTop t fun _ hargs => hargs

end Registers

section Frames

variable (h : m.IsCanonical) (t : ThreadId)
include h

theorem varargs {top : Frame} (htop : m.topFrame? t = some top) : top.varargs.AreCanonical :=
  (h.thread t).varargs top (List.mem_of_head? htop)

omit h in
theorem all_argTable (hash : Value → UInt64) {surplus : Values} (hsurplus : surplus.AreCanonical) :
    (argTable hash surplus).All Value.IsCanonical := by
  have hfilled : Table.All Value.IsCanonical { Table.new surplus.length 1 with array := surplus.toArray } :=
    ⟨fun v hv => hsurplus v (by simpa using hv), Table.HashPart.all_empty _ 1⟩
  unfold argTable
  exact hfilled.setStr isCanonical_nil isCanonical_int (isCanonical_str _) (isCanonical_int _)

/-- Arguments are laid out as canonical registers and surplus arguments. -/
theorem bindArgs (p : Prototype) {args : Values} (hargs : args.AreCanonical) :
    (m.bindArgs p args).1.IsCanonical ∧ (∀ v ∈ (m.bindArgs p args).2.1, v.IsCanonical) ∧
      (m.bindArgs p args).2.2.AreCanonical := by
  have hregisters : ∀ v ∈ boundRegisters p args, v.IsCanonical := by
    intro v hv
    exact (hargs.of_subset (List.take_subset _ args)).adjust _ v (by simpa [boundRegisters] using hv)
  have hsurplus := hargs.drop p.paramCount.toNat
  unfold Machine.bindArgs
  dsimp only
  split
  · exact ⟨h, hregisters, .nil⟩
  · split
    · exact ⟨h.addTable (all_argTable _ hsurplus), forall_setIfInBounds hregisters _ (isCanonical_table _), hsurplus⟩
    · exact ⟨h, hregisters, hsurplus⟩

theorem pushFrame (id : ClosureId) {args : Values} (hargs : args.AreCanonical) (target : ReturnTarget) :
    Leaves Signal.IsCanonical (m.pushFrame t id args target) := by
  obtain ⟨hm, hregisters, hvarargs⟩ := h.bindArgs (m.closure id).proto hargs
  have hframe := hm.addFile hregisters
  unfold Machine.pushFrame newFrame
  dsimp only
  split
  · exact ⟨hframe, isCanonical_str _⟩
  · refine ⟨hframe.modifyThread t fun th hth => ?_, trivial⟩
    exact ⟨hth.start, List.forall_mem_cons.mpr ⟨hvarargs, hth.varargs⟩, hth.yielded⟩

theorem popFrame (top : Frame) : (m.popFrame t top).IsCanonical :=
  (h.closeCells 0 _).modifyThread t fun _ hth =>
    ⟨hth.start, fun f hf => hth.varargs f (List.mem_of_mem_tail hf), hth.yielded⟩

theorem unwind (depth : Nat) : (m.unwind t depth).IsCanonical := by
  have hframes (fuel : Nat) {m : Machine} (h : m.IsCanonical) : (m.unwindFrames t depth fuel).IsCanonical := by
    induction fuel generalizing m with
    | zero => exact h
    | succ fuel ih =>
      unfold unwindFrames
      split
      · exact h
      · split
        · exact h.modifyThread t fun _ hth => hth.of_eq rfl rfl rfl
        · exact ih (h.popFrame t _)
  exact hframes _ h

theorem rebindTop (id : ClosureId) {args : Values} (hargs : args.AreCanonical) :
    (m.rebindTop t id args).IsCanonical := by
  unfold Machine.rebindTop
  split
  · exact h
  · rename_i top _
    have hclosed := h.closeCells 0 top.openCells
    obtain ⟨hm, hregisters, hvarargs⟩ :=
      hclosed.bindArgs ((m.closeCells 0 top.openCells).1.closure id).proto hargs
    exact (hm.modifyFile top.file fun _ _ => hregisters).modifyTop t fun _ _ => hvarargs

theorem storeResults (target : ReturnTarget) {vs : Values} (hvs : vs.AreCanonical) :
    Leaves Signal.IsCanonical (m.storeResults t target vs) := by
  unfold Machine.storeResults
  split
  · exact ⟨h, isCanonical_str _⟩
  · split
    · exact ⟨(h.writeGrown _ _ _ hvs).modifyTop t fun _ hargs => hargs, trivial⟩
    · exact ⟨h.writeGrown _ _ _ (hvs.adjust _), trivial⟩

theorem iteratorStep (a : Nat) : Leaves Signal.IsCanonical (m.iteratorStep t a) := by
  unfold Machine.iteratorStep
  split
  · exact ⟨h, isCanonical_str _⟩
  · dsimp only
    split
    · exact ⟨h.modifyTop t fun _ hargs => hargs, trivial⟩
    · exact ⟨h.modifyFile _ fun _ hregisters => forall_setIfInBounds hregisters _ (h.register _ _), trivial⟩

theorem deliver (target : ReturnTarget) {vs : Values} (hvs : vs.AreCanonical) :
    Leaves Signal.IsCanonical (m.deliver t target vs) := by
  have hstored := h.storeResults t target hvs
  unfold Machine.deliver
  split
  · exact hstored
  · split
    · rename_i heq
      rw [heq] at hstored
      exact hstored.machine.iteratorStep t _
    · exact hstored
  · exact ⟨h, isCanonical_str _⟩

theorem discardFile (file : FileId) : (m.discardFile file).IsCanonical := by
  unfold Machine.discardFile
  split
  · exact h
  · exact h.modifyFile file fun _ _ => by simp

theorem finishReturn {vs : Values} (hvs : vs.AreCanonical) (floor : Nat) :
    Leaves Signal.IsCanonical (m.finishReturn t vs floor) := by
  unfold Machine.finishReturn
  split
  · exact ⟨h, isCanonical_str _⟩
  · rename_i top _
    have hleft := (h.popFrame t top).discardFile top.file
    dsimp only
    split
    · exact ⟨hleft, hvs⟩
    · exact hleft.deliver t _ hvs

theorem completePending {vs : Values} (hvs : vs.AreCanonical) (floor : Nat) :
    Leaves Signal.IsCanonical (m.completePending t vs floor) := by
  have hcleared := h.modifyTop t (f := fun f => { f with pending := none }) fun _ hargs => hargs
  unfold Machine.completePending
  split
  · exact ⟨h, isCanonical_str _⟩
  · split
    · exact ⟨h, isCanonical_str _⟩
    · dsimp only
      split
      · exact hcleared.finishReturn t hvs floor
      · exact hcleared.deliver t _ hvs

theorem destroyThread : (m.destroyThread t).IsCanonical :=
  (h.unwind t 0).modifyThread t fun _ hth => ⟨nofun, hth.varargs, nofun⟩

theorem jumpThread {f : Value} {args : Values} (hf : f.IsCanonical) (hargs : args.AreCanonical) :
    Vetted IsCanonical (m.jumpThread t f args) := by
  unfold Machine.jumpThread
  split
  · exact isCanonical_str _
  · refine (h.unwind t 0).modifyThread t fun th hth => ⟨?_, hth.varargs, nofun⟩
    rintro g bound ⟨⟩
    exact ⟨hf, hargs⟩

end Frames

end Machine.IsCanonical

end LuaMachine
