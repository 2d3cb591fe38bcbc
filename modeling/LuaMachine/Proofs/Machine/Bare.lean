import LuaMachine.Machine.Step

namespace LuaMachine

/-- A thread without its count of instructions. -/
def Thread.bare (th : Thread) : Thread := { th with instructions := 0 }

/-- An interpreter without a frame limit. -/
def Interpreter.bare (i : Interpreter) : Interpreter := { i with limit := none }

/-- Work without frame limits. The end of a resume of the thread `t` keeps nothing but the objects that it holds. -/
def Activation.bare (t : ThreadId) : Activation → Activation
  | .interpret i => .interpret i.bare
  | .endResume u floor held => if u = t then .endResume u 0 (Values.objects held) else .endResume u floor held
  | a => a

namespace Machine

/-- A machine without the traces of a budget for the thread `t`: how many instructions its threads have counted, the
frame limits of its interpreters, and how deep the thread was and what it was given when its resume began. As long as no
limit is met and no fuse counts, nothing depends on these. -/
def bare (m : Machine) (t : ThreadId) : Machine :=
  { m with threads := m.threads.map Thread.bare, stack := m.stack.map (Activation.bare t) }

/-- The same for a machine that comes with something else. -/
def bareOf {α : Type} (t : ThreadId) (r : Machine × α) : Machine × α := (r.1.bare t, r.2)

end Machine

section Threads

variable (th : Thread)

@[simp]
theorem Thread.status_bare : th.bare.status = th.status := rfl

@[simp]
theorem Thread.frames_bare : th.bare.frames = th.frames := rfl

@[simp]
theorem Thread.depth_bare : th.bare.depth = th.depth := rfl

@[simp]
theorem Thread.nativeDepth_bare : th.bare.nativeDepth = th.nativeDepth := rfl

@[simp]
theorem Thread.errorHere_bare (message : String) : th.bare.errorHere message = th.errorHere message := rfl

end Threads

section Activations

variable (t : ThreadId)

theorem Activation.bare_endResume (u : ThreadId) (floor : Nat) (held : Values) :
    (Activation.endResume u floor held).bare t =
      if u = t then .endResume u 0 (Values.objects held) else .endResume u floor held := rfl

theorem Holder.ofValues_objects (vs : Values) : ofValues (Values.objects vs) = ofValues vs := by
  rw [ofValues, Values.objects, List.filterMap_filter, ofValues]
  congr
  funext v
  cases v <;> rfl

/-- Nothing else is kept alive. -/
@[simp]
theorem Activation.holds_bare (a : Activation) : (a.bare t).holds = a.holds := by
  cases a with
  | endResume u floor held =>
    rw [bare_endResume]
    split
    · simp only [Activation.holds, Holder.ofValues_objects]
    · rfl
  | _ => rfl

@[simp]
theorem Activation.thread?_bare (a : Activation) : (a.bare t).thread? = a.thread? := by
  cases a with
  | endResume u floor held =>
    rw [bare_endResume]
    split <;> rfl
  | _ => rfl

@[simp]
theorem Activation.uses_bare (file : FileId) (a : Activation) : (a.bare t).uses file = a.uses file := by
  cases a with
  | endResume u floor held =>
    rw [bare_endResume]
    split <;> rfl
  | _ => rfl

end Activations

namespace Machine

variable {m : Machine} {t u : ThreadId}

section Objects

@[simp]
theorem bareOf_mk {α : Type} (x : α) : bareOf t (m, x) = (m.bare t, x) := rfl

@[simp]
theorem limits_bare : (m.bare t).limits = m.limits := rfl

@[simp]
theorem table_bare (id : TableId) : (m.bare t).table id = m.table id := rfl

@[simp]
theorem closure_bare (id : ClosureId) : (m.bare t).closure id = m.closure id := rfl

@[simp]
theorem native_bare (id : NativeId) : (m.bare t).native id = m.native id := rfl

@[simp]
theorem cell_bare (id : CellId) : (m.bare t).cell id = m.cell id := rfl

@[simp]
theorem file_bare (id : FileId) : (m.bare t).file id = m.file id := rfl

@[simp]
theorem register_bare (file : FileId) (i : Nat) : (m.bare t).register file i = m.register file i := rfl

@[simp]
theorem thread_bare (u : ThreadId) : (m.bare t).thread u = (m.thread u).bare := by
  rw [thread, thread, bare, Array.getElem?_map]
  cases m.threads[u.index]? <;> rfl

@[simp]
theorem topFrame?_bare (u : ThreadId) : (m.bare t).topFrame? u = m.topFrame? u := by
  rw [topFrame?, thread_bare]
  rfl

@[simp]
theorem isBusy_bare (u : ThreadId) : (m.bare t).isBusy u = m.isBusy u := by
  simp [isBusy, bare, List.any_map, Function.comp_def]

/-- Changing a thread apart from its count. -/
theorem modifyThread_bare {f g : Thread → Thread} (h : ∀ th, f th.bare = (g th).bare) :
    (m.bare t).modifyThread u f = (m.modifyThread u g).bare t := by
  have hthreads : (m.threads.map Thread.bare).modify u.index f = (m.threads.modify u.index g).map Thread.bare := by
    apply Array.ext_getElem?
    intro i
    rw [Array.getElem?_modify, Array.getElem?_map, Array.getElem?_map, Array.getElem?_modify]
    split
    · cases m.threads[i]? with
      | none => rfl
      | some th => exact congrArg some (h th)
    · rfl
  rw [bare, modifyThread, modifyAt, hthreads]
  rfl

end Objects

section Lifetime

@[simp]
theorem places_bare : (m.bare t).places = m.places := by
  simp [places, bare]

@[simp]
theorem holds_bare (h : Holder) : (m.bare t).holds h = m.holds h := by
  cases h with
  | object r =>
    cases r with
    | thread id =>
      rw [holds, thread_bare]
      rfl
    | _ => rfl
  | _ => rfl

@[simp]
theorem roots_bare (inUse : Values) : (m.bare t).roots inUse = m.roots inUse := by
  simp only [roots, bare, List.flatMap_map, Activation.holds_bare]
  rfl

theorem addHolds_bare (p : Places) (c : Census) : c.addHolds (m.bare t) p = c.addHolds m p := by
  simp only [Census.addHolds, bare, Array.foldl_map]
  rfl

theorem detach_bare (p : Places) (c : Census) (th : Thread) : c.detach (m.bare t) p th.bare = c.detach m p th := rfl

theorem censusHolds_bare (c : Census) (h : Holder) : c.holds (m.bare t) h = c.holds m h := by
  cases h with
  | object r => exact holds_bare _
  | cell | file => rfl

theorem settle_bare (p : Places) (fuel : Nat) (gone : List Holder) (c : Census) :
    Census.settle (m.bare t) p fuel gone c = Census.settle m p fuel gone c := by
  induction fuel generalizing gone c with
  | zero => rfl
  | succ fuel ih =>
    cases gone with
    | nil => rfl
    | cons h gone =>
      simp only [Census.settle, thread_bare, detach_bare, censusHolds_bare, ih]

theorem take_bare (inUse : Values) : Census.take (m.bare t) inUse = Census.take m inUse := by
  simp only [Census.take, places_bare, roots_bare, addHolds_bare, settle_bare]

theorem after_bare (c : Census) (transit : Table.Transit) : c.after (m.bare t) transit = c.after m transit := by
  simp only [Census.after, places_bare, settle_bare]

/-- The same objects exist. -/
@[simp]
theorem context_bare (id : TableId) (inUse : Values) : (m.bare t).context id inUse = m.context id inUse := by
  simp only [context, table_bare, places_bare, take_bare, after_bare]
  rfl

end Lifetime

section Tables

@[simp]
theorem rawGet_bare (id : TableId) (key : Value) (inUse : Values) :
    (m.bare t).rawGet id key inUse = m.rawGet id key inUse := by
  simp [rawGet]

@[simp]
theorem getStr_bare (id : TableId) (key : String) (inUse : Values) :
    (m.bare t).getStr id key inUse = m.getStr id key inUse := by
  simp [getStr]

@[simp]
theorem modifyTable_bare (id : TableId) (f : Table → Table) :
    (m.bare t).modifyTable id f = (m.modifyTable id f).bare t := rfl

@[simp]
theorem storeKey_bare (id : TableId) (key value : Value) (inUse : Values) :
    (m.bare t).storeKey id key value inUse = (m.storeKey id key value inUse).bare t := by
  simp [storeKey]

@[simp]
theorem installMetatable_bare (id : TableId) (metatable : Option TableId) (mode : WeakMode) (inUse : Values) :
    (m.bare t).installMetatable id metatable mode inUse = (m.installMetatable id metatable mode inUse).bare t := by
  simp [installMetatable]

@[simp]
theorem addTable_bare (table : Table) : (m.bare t).addTable table = bareOf t (m.addTable table) := rfl

@[simp]
theorem addClosure_bare (c : Closure) : (m.bare t).addClosure c = bareOf t (m.addClosure c) := rfl

@[simp]
theorem addNative_bare (n : Native) : (m.bare t).addNative n = bareOf t (m.addNative n) := rfl

@[simp]
theorem addCell_bare (c : Cell) : (m.bare t).addCell c = bareOf t (m.addCell c) := rfl

@[simp]
theorem addFile_bare (registers : Array Value) : (m.bare t).addFile registers = bareOf t (m.addFile registers) := rfl

@[simp]
theorem newThread_bare (f : Value) (args : Values) : (m.bare t).newThread f args = bareOf t (m.newThread f args) := by
  have hadded : (m.bare t).addThread = bareOf t m.addThread := by
    simp [addThread, bare, Thread.bare, bareOf]
  rw [newThread, hadded]
  exact congrArg (·, _) (modifyThread_bare fun _ => rfl)

end Tables

section Work

theorem push_bare {a : Activation} (ha : a.bare t = a) : (m.bare t).push a = (m.push a).bare t := by
  rw [push, push, bare, bare, List.map_cons, ha]

theorem replaceTop_bare (a : Activation) : (m.bare t).replaceTop (a.bare t) = (m.replaceTop a).bare t := by
  rw [replaceTop, replaceTop, bare, bare, List.map_cons, List.map_tail]

@[simp]
theorem pop_bare : (m.bare t).pop = m.pop.bare t := by
  rw [pop, pop, bare, bare, List.map_tail]

end Work

section Registers

@[simp]
theorem modifyFile_bare (file : FileId) (f : Array Value → Array Value) :
    (m.bare t).modifyFile file f = (m.modifyFile file f).bare t := rfl

@[simp]
theorem setRegister_bare (file : FileId) (i : Nat) (v : Value) :
    (m.bare t).setRegister file i v = (m.setRegister file i v).bare t := rfl

@[simp]
theorem setCell_bare (id : CellId) (c : Cell) : (m.bare t).setCell id c = (m.setCell id c).bare t := rfl

@[simp]
theorem cellValue_bare (id : CellId) : (m.bare t).cellValue id = m.cellValue id := rfl

@[simp]
theorem openRegister?_bare (id : CellId) : (m.bare t).openRegister? id = m.openRegister? id := rfl

@[simp]
theorem setCellValue_bare (id : CellId) (v : Value) : (m.bare t).setCellValue id v = (m.setCellValue id v).bare t := by
  unfold setCellValue
  rw [cell_bare]
  split <;> rfl

@[simp]
theorem closeCells_bare (start : Nat) (ids : List CellId) :
    (m.bare t).closeCells start ids = bareOf t (m.closeCells start ids) := by
  induction ids generalizing m with
  | nil => rfl
  | cons id ids ih =>
    unfold closeCells
    rw [openRegister?_bare]
    split
    · exact ih
    · split
      · exact ih (m := m.closeCell id)
      · rw [ih]
        rfl

@[simp]
theorem modifyTop_bare (u : ThreadId) (f : Frame → Frame) : (m.bare t).modifyTop u f = (m.modifyTop u f).bare t := by
  refine modifyThread_bare fun th => ?_
  rcases th with ⟨number, status, _ | ⟨top, rest⟩⟩ <;> rfl

@[simp]
theorem captureRegister_bare (u : ThreadId) (top : Frame) (i : Nat) :
    (m.bare t).captureRegister u top i = bareOf t (m.captureRegister u top i) := by
  unfold captureRegister
  simp only [openRegister?_bare, addCell_bare]
  split
  · rfl
  · simp [bareOf]

@[simp]
theorem closeTopCells_bare (u : ThreadId) (start : Nat) :
    (m.bare t).closeTopCells u start = (m.closeTopCells u start).bare t := by
  unfold closeTopCells
  rw [topFrame?_bare]
  split
  · rfl
  · simp [bareOf]

end Registers

section Handlers

@[simp]
theorem metatable?_bare (v : Value) : (m.bare t).metatable? v = m.metatable? v := by
  cases v <;> rfl

@[simp]
theorem metamethod_bare (v : Value) (event : String) (inUse : Values) :
    (m.bare t).metamethod v event inUse = m.metamethod v event inUse := by
  simp [metamethod]

@[simp]
theorem errorHere_bare (u : ThreadId) (message : String) : (m.bare t).errorHere u message = m.errorHere u message := by
  rw [errorHere, thread_bare]
  rfl

@[simp]
theorem typeError_bare (u : ThreadId) (v : Value) (action : String) :
    (m.bare t).typeError u v action = m.typeError u v action := by
  simp [typeError, nameOf?]

@[simp]
theorem orderError_bare (u : ThreadId) (a b : Value) : (m.bare t).orderError u a b = m.orderError u a b := by
  simp [orderError]

@[simp]
theorem index_bare (u : ThreadId) (obj key : Value) : (m.bare t).index u obj key = m.index u obj key := by
  have hfrom (fuel : Nat) (current : Value) :
      (m.bare t).indexFrom u obj key fuel current = m.indexFrom u obj key fuel current := by
    induction fuel generalizing current with
    | zero => simp [indexFrom]
    | succ fuel ih => simp [indexFrom, ih]
  exact hfrom _ obj

@[simp]
theorem setIndex_bare (u : ThreadId) (obj key value : Value) :
    (m.bare t).setIndex u obj key value = bareOf t (m.setIndex u obj key value) := by
  have hentry (current : Value) (inUse : Values) :
      (m.bare t).hasEntry current key inUse = m.hasEntry current key inUse := by
    cases current <;> simp [hasEntry]
  have hfrom (fuel : Nat) (current : Value) :
      (m.bare t).setIndexFrom u obj key value fuel current =
        bareOf t (m.setIndexFrom u obj key value fuel current) := by
    induction fuel generalizing current with
    | zero => simp [setIndexFrom]
    | succ fuel ih =>
      cases current with
      | table id => cases hkey : Table.normalizeKey key <;> simp [setIndexFrom, hentry, ih, hkey, apply_ite (bareOf t)]
      | _ => simp [setIndexFrom, hentry, ih, apply_ite (bareOf t)]
  exact hfrom _ obj

@[simp]
theorem arith_bare (u : ThreadId) (op : ArithOp) (a b : Value) : (m.bare t).arith u op a b = m.arith u op a b := by
  simp [arith]

@[simp]
theorem lengthOf_bare (u : ThreadId) (v : Value) : (m.bare t).lengthOf u v = m.lengthOf u v := by
  cases v <;> simp [lengthOf]

@[simp]
theorem equal_bare (a b : Value) : (m.bare t).equal a b = m.equal a b := by
  simp only [equal, metatable?_bare, getStr_bare]

@[simp]
theorem lessThan_bare (u : ThreadId) (a b : Value) : (m.bare t).lessThan u a b = m.lessThan u a b := by
  simp [lessThan, sharedHandler?]

@[simp]
theorem lessEqual_bare (u : ThreadId) (a b : Value) : (m.bare t).lessEqual u a b = m.lessEqual u a b := by
  simp [lessEqual, sharedHandler?]

@[simp]
theorem toText_bare (v : Value) (inUse : Values) : (m.bare t).toText v inUse = m.toText v inUse := by
  simp [toText]

@[simp]
theorem join_bare (u : ThreadId) (reversed inUse : Values) :
    (m.bare t).join u reversed inUse = m.join u reversed inUse := by
  have hfrom (fuel : Nat) (vs : Values) :
      (m.bare t).joinFrom u inUse fuel vs = m.joinFrom u inUse fuel vs := by
    induction fuel generalizing vs with
    | zero => rcases vs with _ | ⟨b, _ | ⟨a, rest⟩⟩ <;> rfl
    | succ fuel ih => rcases vs with _ | ⟨b, _ | ⟨a, rest⟩⟩ <;> simp [joinFrom, ih]
  exact hfrom _ reversed

end Handlers

section Frames

@[simp]
theorem bindArgs_bare (p : Prototype) (args : Values) : (m.bare t).bindArgs p args = bareOf t (m.bindArgs p args) := by
  unfold bindArgs
  dsimp only
  split
  · rfl
  · split <;> rfl

@[simp]
theorem pushFrame_bare (u : ThreadId) (id : ClosureId) (args : Values) (target : ReturnTarget) :
    (m.bare t).pushFrame u id args target = bareOf t (m.pushFrame u id args target) := by
  have hframe : (m.bare t).newFrame id args target = bareOf t (m.newFrame id args target) := by
    simp only [newFrame, closure_bare, bindArgs_bare]
    rfl
  unfold pushFrame
  rw [hframe]
  generalize m.newFrame id args target = new
  simp only [bareOf, limits_bare, thread_bare, Thread.depth_bare, errorHere_bare]
  split
  · rfl
  · exact congrArg (·, Signal.go) (modifyThread_bare fun _ => rfl)

@[simp]
theorem popFrame_bare (u : ThreadId) (top : Frame) : (m.bare t).popFrame u top = (m.popFrame u top).bare t := by
  unfold popFrame
  rw [closeCells_bare]
  exact modifyThread_bare fun _ => rfl

@[simp]
theorem unwind_bare (u : ThreadId) (depth : Nat) : (m.bare t).unwind u depth = (m.unwind u depth).bare t := by
  have hframes (fuel : Nat) (m : Machine) :
      (m.bare t).unwindFrames u depth fuel = (m.unwindFrames u depth fuel).bare t := by
    induction fuel generalizing m with
    | zero => rfl
    | succ fuel ih =>
      unfold unwindFrames
      rw [thread_bare, topFrame?_bare, Thread.depth_bare]
      split
      · rfl
      · split
        · exact modifyThread_bare fun _ => rfl
        · rw [popFrame_bare, ih]
  rw [unwind, thread_bare, hframes]
  rfl

@[simp]
theorem rebindTop_bare (u : ThreadId) (id : ClosureId) (args : Values) :
    (m.bare t).rebindTop u id args = (m.rebindTop u id args).bare t := by
  unfold rebindTop
  rw [topFrame?_bare]
  split
  · rfl
  · simp [bareOf]

@[simp]
theorem storeResults_bare (u : ThreadId) (target : ReturnTarget) (vs : Values) :
    (m.bare t).storeResults u target vs = bareOf t (m.storeResults u target vs) := by
  unfold storeResults
  rw [topFrame?_bare]
  split
  · rfl
  · split <;> simp

@[simp]
theorem deliver_bare (u : ThreadId) (target : ReturnTarget) (vs : Values) :
    (m.bare t).deliver u target vs = bareOf t (m.deliver u target vs) := by
  have hiterator (m : Machine) (a : Nat) : (m.bare t).iteratorStep u a = bareOf t (m.iteratorStep u a) := by
    unfold iteratorStep
    rw [topFrame?_bare]
    split
    · rfl
    · simp [apply_ite (bareOf t)]
  unfold deliver
  rw [storeResults_bare]
  split
  · rfl
  · rcases m.storeResults u target vs with ⟨stored, s⟩
    cases s with
    | go => exact hiterator stored _
    | _ => rfl
  · rfl

@[simp]
theorem discardFile_bare (file : FileId) : (m.bare t).discardFile file = (m.discardFile file).bare t := by
  have hstack : (m.bare t).stack.tail.any (Activation.uses file) = m.stack.tail.any (Activation.uses file) := by
    simp [bare, List.any_map, ← List.map_tail, Function.comp_def]
  rw [discardFile, discardFile, hstack]
  split <;> rfl

@[simp]
theorem finishReturn_bare (u : ThreadId) (vs : Values) (floor : Nat) :
    (m.bare t).finishReturn u vs floor = bareOf t (m.finishReturn u vs floor) := by
  unfold finishReturn
  rw [topFrame?_bare]
  split
  · rfl
  · simp only [popFrame_bare, discardFile_bare, thread_bare, deliver_bare]
    split <;> rename_i hdone
    · exact (if_pos hdone) ▸ rfl
    · exact (if_neg hdone) ▸ rfl

@[simp]
theorem completePending_bare (u : ThreadId) (vs : Values) (floor : Nat) :
    (m.bare t).completePending u vs floor = bareOf t (m.completePending u vs floor) := by
  unfold completePending
  rw [topFrame?_bare]
  split
  · rfl
  · split
    · rfl
    · simp [apply_ite (bareOf t)]

@[simp]
theorem collect_bare (file : FileId) (top start count : Nat) :
    (m.bare t).collect file top start count = m.collect file top start count := rfl

@[simp]
theorem destroyThread_bare (u : ThreadId) : (m.bare t).destroyThread u = (m.destroyThread u).bare t := by
  unfold destroyThread
  rw [unwind_bare]
  exact modifyThread_bare fun _ => rfl

end Frames

end Machine

end LuaMachine
