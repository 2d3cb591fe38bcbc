import LuaMachine.Proofs.Machine.Outline
import LuaMachine.Proofs.Machine.Results
import LuaMachine.Proofs.Table.Update

namespace LuaMachine

namespace Values

theorem arg_of_length_le {vs : Values} {i : Nat} (h : vs.length ≤ i) : vs.arg i = .nil := by
  rw [arg, List.getElem?_eq_none h]
  rfl

theorem arg_take (vs : Values) (count i : Nat) :
    Values.arg (vs.take count) i = if i < count then vs.arg i else .nil := by
  rw [arg, List.getElem?_take]
  split <;> rfl

theorem arg_adjust (vs : Values) (count i : Nat) : (vs.adjust count).arg i = if i < count then vs.arg i else .nil := by
  simp only [arg, adjust, List.getElem?_append, List.length_take, List.getElem?_take, List.getElem?_replicate]
  by_cases hvalue : i < vs.length
  · by_cases hcount : i < count
    · rw [if_pos (by omega), if_pos hcount, if_pos hcount]
    · rw [if_neg (by omega), if_neg (by omega), if_neg hcount]
      rfl
  · rw [if_neg (by omega), List.getElem?_eq_none (Nat.not_lt.mp hvalue)]
    split <;> split <;> rfl

/-- Values in a row are those at its places. -/
theorem map_arg {vs : Values} {count : Nat} (h : vs.length = count) : (List.range count).map vs.arg = vs := by
  subst h
  refine List.ext_getElem (by simp) fun i _ hi => ?_
  rw [List.getElem_map, List.getElem_range, arg, List.getElem?_eq_getElem hi, Option.getD_some]

/-- Exactly `count` values, nil where there are none. -/
theorem adjust_eq_map (vs : Values) (count : Nat) : vs.adjust count = (List.range count).map vs.arg := by
  rw [← map_arg (length_adjust vs count)]
  refine List.map_congr_left fun i hi => ?_
  rw [arg_adjust, if_pos (List.mem_range.mp hi)]

theorem adjust_length (vs : Values) : vs.adjust vs.length = vs := by
  rw [adjust_eq_map, map_arg rfl]

end Values

namespace Table

/-- A table holds the values of a list under their places, counted from one, and their number under the name `n`. -/
structure Lists (hash : Value → UInt64) (t : Table) (vs : Values) : Prop where
  places : ∀ ctx : Context, ctx.hash = hash → ∀ i : Int64,
    t.get ctx (.int i) = if 1 ≤ i.toInt then vs.arg (i.toInt.toNat - 1) else .nil
  number : ∀ ctx : Context, ctx.hash = hash → t.get ctx (.str "n") = .int (Int64.ofNat vs.length)

namespace HashPart

/-- A hash part with one bucket and one slot, which holds its key and value strongly. -/
def single (hash : UInt64) (key value : Value) : HashPart := ⟨#[[⟨hash, .live .strong key value⟩]], 1, 0⟩

theorem get?_single (ctx : Context) (held value key : Value) : (single (ctx.hash held) held value).get? ctx key =
    if ctx.hash held == ctx.hash key && held.rawEqual key then some value else none := by
  have hchain : (single (ctx.hash held) held value).chainOf ctx key = [⟨ctx.hash held, .live .strong held value⟩] := by
    rw [chainOf, bucketOf, single, show Array.size #[_] = 1 from rfl, Nat.mod_one]
    rfl
  rw [get?, hchain]
  by_cases hown : (ctx.hash held == ctx.hash key && held.rawEqual key) = true
  · simp [Chain.find?, Slot.holds, Slot.key, Slot.entry?, Slot.isVanished, WeakMode.strong, hown]
  · simp [Chain.find?, Slot.holds, Slot.key, hown]

/-- The first entry of a part with one bucket. -/
theorem insert_empty_one (ctx : Context) (key value : Value) :
    (empty 1).insert ctx .strong key value = single (ctx.hash key) key value := by
  have hbucket : (empty 1).bucketOf (ctx.hash key) = 0 := Nat.mod_one _
  unfold insert
  dsimp only
  rw [hbucket]
  rfl

theorem setExisting_empty_one (ctx : Context) (mode : WeakMode) (key value : Value) :
    (empty 1).setExisting ctx mode key value = (empty 1, false, ctx) := by
  have hbucket : (empty 1).bucketOf (ctx.hash key) = 0 := Nat.mod_one _
  rw [setExisting_of_chain ctx mode key value (show _ = some [] by rw [hbucket]; rfl), hbucket]
  rfl

end HashPart

end Table

namespace Machine

/-- The array part has the arguments, and the one slot of the hash part their number. -/
theorem argTable_eq (hash : Value → UInt64) (surplus : Values) : argTable hash surplus =
    ⟨surplus.toArray, .single (hash (.str "n")) (.str "n") (.int (Int64.ofNat surplus.length)), none, .strong⟩ := by
  unfold argTable Table.setStr
  rw [Table.setNormal_of_no_place _ _ rfl]
  dsimp only [Table.new]
  rw [Table.HashPart.setExisting_empty_one]
  have hroom : Table.grown (.strong hash) ⟨surplus.toArray, .empty 1, none, .strong⟩ (.str "n") =
      ⟨surplus.toArray, .empty 1, none, .strong⟩ := rfl
  dsimp only
  rw [if_neg (by simp [Value.isNil]), Table.insertNew_eq, hroom]
  dsimp only [Table.arrayIndex?]
  rw [Table.HashPart.insert_empty_one]
  rfl

theorem lists_argTable (hash : Value → UInt64) (surplus : Values) : (argTable hash surplus).Lists hash surplus := by
  rw [argTable_eq]
  refine ⟨fun ctx hctx i => ?_, fun ctx hctx => ?_⟩
  · have hpart := Table.HashPart.get?_single ctx (.str "n") (.int (Int64.ofNat surplus.length)) (.int i)
    rw [show (Value.str "n").rawEqual (.int i) = false from rfl, Bool.and_false,
      if_neg Bool.false_ne_true, hctx] at hpart
    rw [Table.get, Table.getInt, hpart]
    unfold Table.arrayIndex?
    dsimp only
    rw [List.size_toArray]
    by_cases hlow : 1 ≤ i.toInt
    · by_cases hhigh : i.toInt ≤ surplus.length
      · rw [if_pos ⟨hlow, hhigh⟩, if_pos hlow]
        simp [Values.arg]
      · rw [if_neg fun h => hhigh h.2, if_pos hlow, Values.arg_of_length_le (by omega)]
        rfl
    · rw [if_neg fun h => hlow h.1, if_neg hlow]
      rfl
  · have hpart := Table.HashPart.get?_single ctx (.str "n") (.int (Int64.ofNat surplus.length)) (.str "n")
    rw [if_pos (by simp [Value.rawEqual]), hctx] at hpart
    show (Table.HashPart.get? ctx _ (.str "n")).getD .nil = _
    rw [hpart]
    rfl

section Arguments

/-- The registers of a new frame: its parameters, and nil. -/
theorem getD_boundRegisters (p : Prototype) (args : Values) (i : Nat) :
    (boundRegisters p args)[i]?.getD .nil = if i < p.paramCount.toNat then args.arg i else .nil := by
  have hadjusted := Values.arg_adjust (args.take p.paramCount.toNat) (max p.stackSize.toNat (p.paramCount.toNat + 1)) i
  rw [Values.arg_take] at hadjusted
  rw [boundRegisters, List.getElem?_toArray]
  refine hadjusted.trans ?_
  split <;> split <;> first | rfl | omega

theorem size_boundRegisters (p : Prototype) (args : Values) :
    (boundRegisters p args).size = max p.stackSize.toNat (p.paramCount.toNat + 1) := by
  rw [boundRegisters, List.size_toArray, Values.length_adjust]

/-- What a call leaves of its arguments in the registers of a frame and beside them: each parameter its own, a function
of any number of them the rest, if need be in a table as well, and nothing else. -/
structure Binds (m : Machine) (p : Prototype) (args : Values) (registers : Array Value) (varargs : Values) : Prop where
  params : ∀ i < p.paramCount.toNat, registers[i]?.getD .nil = args.arg i
  surplus : varargs = if p.isVararg then args.drop p.paramCount.toNat else []
  table : p.isVararg → p.needsArgTable → ∃ id, registers[p.paramCount.toNat]?.getD .nil = .table id ∧
    (m.table id).Lists m.hash (args.drop p.paramCount.toNat)
  rest : ∀ i, p.paramCount.toNat ≤ i → (p.isVararg → p.needsArgTable → i ≠ p.paramCount.toNat) →
    registers[i]?.getD .nil = .nil

theorem binds_bindArgs (m : Machine) (p : Prototype) (args : Values) :
    (m.bindArgs p args).1.Binds p args (m.bindArgs p args).2.1 (m.bindArgs p args).2.2 := by
  unfold bindArgs
  dsimp only
  split
  · next hfixed =>
    have hvararg : p.isVararg = false := by simpa using hfixed
    refine ⟨fun i hi => ?_, by rw [if_neg (by simp [hvararg])], by simp [hvararg], fun i hi _ => ?_⟩
    · rw [getD_boundRegisters, if_pos hi]
    · rw [getD_boundRegisters, if_neg (Nat.not_lt.mpr hi)]
  · next hvariable =>
    have hvararg : p.isVararg = true := by simpa using hvariable
    split
    · next htable =>
      have hsize := size_boundRegisters p args
      refine ⟨fun i hi => ?_, by rw [if_pos hvararg], fun _ _ => ⟨⟨m.tables.size⟩, ?_, ?_⟩, fun i hi hne => ?_⟩
      · rw [Array.getElem?_setIfInBounds_ne hi.ne', getD_boundRegisters, if_pos hi]
      · rw [Array.getElem?_setIfInBounds_self_of_lt (by omega)]
        rfl
      · have hadded : (m.addTable (argTable m.hash (args.drop p.paramCount.toNat))).1.table ⟨m.tables.size⟩ =
            argTable m.hash (args.drop p.paramCount.toNat) := by
          simp [addTable, Machine.table]
        rw [hadded]
        exact lists_argTable _ _
      · rw [Array.getElem?_setIfInBounds_ne (hne hvararg htable).symm, getD_boundRegisters,
          if_neg (Nat.not_lt.mpr hi)]
    · next htable =>
      refine ⟨fun i hi => ?_, by rw [if_pos hvararg], fun _ h => absurd h htable, fun i hi _ => ?_⟩
      · rw [getD_boundRegisters, if_pos hi]
      · rw [getD_boundRegisters, if_neg (Nat.not_lt.mpr hi)]

theorem file_newFrame (m : Machine) (id : ClosureId) (args : Values) (target : ReturnTarget) :
    (m.newFrame id args target).1.file (m.newFrame id args target).2.file =
      (m.bindArgs (m.closure id).proto args).2.1 := by
  simp [newFrame, addFile, file]

theorem binds_newFrame (m : Machine) (id : ClosureId) (args : Values) (target : ReturnTarget) :
    let made := m.newFrame id args target
    made.1.Binds (m.closure id).proto args (made.1.file made.2.file) made.2.varargs := by
  have hbound := binds_bindArgs m (m.closure id).proto args
  dsimp only
  rw [file_newFrame]
  exact ⟨hbound.params, hbound.surplus, hbound.table, hbound.rest⟩

end Arguments

section Collecting

variable {m m' : Machine} {file : FileId}

/-- A count that says how many. -/
theorem collect_fixed (m : Machine) (file : FileId) (top start count : Nat) :
    m.collect file top start (count + 1) = (List.range count).map fun i => m.register file (start + i) := by
  rw [collect, if_neg (Nat.succ_ne_zero count), show start + (count + 1) - 1 - start = count by omega]

/-- The count that does not. -/
theorem collect_open (m : Machine) (file : FileId) (top start : Nat) :
    m.collect file top start 0 = (List.range (top - start)).map fun i => m.register file (start + i) := by
  rw [collect, if_pos rfl, show max top start - start = top - start by omega]

/-- A list takes the values behind it up to the last one. -/
theorem setList_open {t : ThreadId} {top a block pc : Nat} {id : TableId} (htable : m.register file a = .table id) :
    m.setList t file top a 0 block pc =
      (m.storeList id ((block - 1) * Limits.listBlock + 1) (m.collect file top (a + 1) 0), .goOn pc) := by
  rw [collect_open, setList, htable]
  rfl

/-- The registers of a file have a row of values from `base` on, and are as before but for that. -/
def HoldsRow (m m' : Machine) (file : FileId) (base : Nat) (row : Values) : Prop :=
  ∀ i, m'.register file i = if base ≤ i ∧ i < base + row.length then row.arg (i - base) else m.register file i

theorem HoldsRow.map_register {base : Nat} {row : Values} (h : m.HoldsRow m' file base row) :
    (List.range row.length).map (fun i => m'.register file (base + i)) = row := by
  refine Eq.trans ?_ (Values.map_arg rfl)
  refine List.map_congr_left fun i hi => ?_
  rw [h, if_pos ⟨Nat.le_add_right .., Nat.add_lt_add_left (List.mem_range.mp hi) _⟩, Nat.add_sub_cancel_left]

/-- Values that end at the end of the row are the registers in front of it and the row. -/
theorem HoldsRow.collect_open {base : Nat} {row : Values} (h : m.HoldsRow m' file base row) {start : Nat}
    (hstart : start ≤ base) : m'.collect file (base + row.length) start 0 =
      ((List.range (base - start)).map fun i => m.register file (start + i)) ++ row := by
  have hcount : base + row.length - start = (base - start) + row.length := by omega
  rw [Machine.collect_open, hcount, List.range_add, List.map_append, List.map_map]
  congr 1
  · refine List.map_congr_left fun i hi => ?_
    have hlt := List.mem_range.mp hi
    rw [h, if_neg (by omega)]
  · refine Eq.trans ?_ h.map_register
    refine List.map_congr_left fun i _ => ?_
    rw [Function.comp_apply, show start + (base - start + i) = base + i by omega]

theorem HoldsRow.collect_fixed {base : Nat} {row : Values} (h : m.HoldsRow m' file base row) (top : Nat) :
    m'.collect file top base (row.length + 1) = row := by
  rw [Machine.collect_fixed, h.map_register]

end Collecting

section Storing

variable {m m' : Machine} {t : ThreadId} {f : Frame} {under : List Frame} {base : Nat} {vs : Values}

theorem getD_stored (target : ReturnTarget) (registers : Array Value) (vs : Values) (i : Nat) :
    (target.stored registers vs)[i]?.getD .nil =
      if target.base ≤ i ∧ i < target.base + (target.row vs).length then (target.row vs).arg (i - target.base)
      else registers[i]?.getD .nil := by
  split
  next hin =>
    rw [ReturnTarget.getElem?_stored_of_holds hin]
    rfl
  next hin =>
    rw [ReturnTarget.getElem?_stored_of_not _ hin, getElem?_growTo]
    split
    · next hout =>
      rw [Array.getElem?_eq_none hout.1]
      rfl
    · rfl

/-- All values of a list are in the registers of the innermost frame from `base` on, and what is open there ends with
the last of them, for a call, a return and a list alike. -/
structure Opens (m m' : Machine) (t : ThreadId) (f : Frame) (under : List Frame) (base : Nat) (vs : Values) : Prop where
  collects : ∀ start ≤ base, m'.collect f.file (m'.openEnd t) start 0 =
    ((List.range (base - start)).map fun i => m.register f.file (start + i)) ++ vs
  lists : ∀ a < base, ∀ id, m'.register f.file a = .table id → ∀ block pc,
    m'.setList t f.file (m'.openEnd t) a 0 block pc = (m'.storeList id ((block - 1) * Limits.listBlock + 1)
      (((List.range (base - (a + 1))).map fun i => m.register f.file (a + 1 + i)) ++ vs), .goOn pc)
  frames : (m'.thread t).frames = { f with top := base + vs.length } :: under
  others : ∀ file i, file ≠ f.file ∨ i < base ∨ base + vs.length ≤ i → m'.register file i = m.register file i

/-- As many values of a list as a count says, and nil for those that are missing, are in the registers of the innermost
frame from `base` on. -/
structure Fixes (m m' : Machine) (t : ThreadId) (f : Frame) (under : List Frame) (base count : Nat) (vs : Values) :
    Prop where
  collects : ∀ top, m'.collect f.file top base (count + 1) = (List.range count).map vs.arg
  frames : (m'.thread t).frames = f :: under
  others : ∀ file i, file ≠ f.file ∨ i < base ∨ base + count ≤ i → m'.register file i = m.register file i

/-- Results that are stored are a row of the registers. -/
theorem Retouched.holdsRow {f' : Frame} {target : ReturnTarget}
    (h : m.Retouched m' t f f' under (target.stored (m.file f.file) vs)) :
    m.HoldsRow m' f.file target.base (target.row vs) := by
  intro i
  rw [register, h.registers, getD_stored]
  rfl

theorem Retouched.register_of_not {f' : Frame} {target : ReturnTarget}
    (h : m.Retouched m' t f f' under (target.stored (m.file f.file) vs)) {file : FileId} {i : Nat}
    (hother : file ≠ f.file ∨ i < target.base ∨ target.base + (target.row vs).length ≤ i) :
    m'.register file i = m.register file i := by
  by_cases hown : file = f.file
  · subst hown
    rw [h.holdsRow, if_neg]
    rcases hother with hne | hlt | hle
    · exact absurd rfl hne
    · omega
    · omega
  · rw [register, h.others file hown, register]

theorem storeResults_opens (hframes : (m.thread t).frames = f :: under) (hfile : f.file.index < m.files.size)
    (base : Nat) (continuation : Continuation) (vs : Values) :
    ∃ m', m.storeResults t ⟨base, none, continuation⟩ vs = (m', .go) ∧ m.Opens m' t f under base vs := by
  have hrange := lt_size_of_topFrame (show m.topFrame? t = some f by rw [topFrame?, hframes]; rfl)
  obtain ⟨m', hstored, h⟩ := storeResults_retouched hrange hframes hfile ⟨base, none, continuation⟩ vs
  have hframes' : (m'.thread t).frames = { f with top := base + vs.length } :: under := h.frames
  have htop : m'.openEnd t = base + vs.length := by rw [openEnd, topFrame?, hframes']; rfl
  have hcollects (start : Nat) (hstart : start ≤ base) : m'.collect f.file (m'.openEnd t) start 0 =
      ((List.range (base - start)).map fun i => m.register f.file (start + i)) ++ vs := by
    rw [htop]
    exact h.holdsRow.collect_open hstart
  refine ⟨m', hstored, hcollects, fun a ha id htable block pc => ?_, hframes', fun _ _ => h.register_of_not⟩
  rw [setList_open htable, hcollects (a + 1) ha]

theorem storeResults_fixes (hframes : (m.thread t).frames = f :: under) (hfile : f.file.index < m.files.size)
    (base count : Nat) (continuation : Continuation) (vs : Values) :
    ∃ m', m.storeResults t ⟨base, some count, continuation⟩ vs = (m', .go) ∧ m.Fixes m' t f under base count vs := by
  have hrange := lt_size_of_topFrame (show m.topFrame? t = some f by rw [topFrame?, hframes]; rfl)
  obtain ⟨m', hstored, h⟩ := storeResults_retouched hrange hframes hfile ⟨base, some count, continuation⟩ vs
  have hrow : ReturnTarget.row ⟨base, some count, continuation⟩ vs = vs.adjust count := rfl
  refine ⟨m', hstored, fun top => ?_, h.frames, fun file i hother => h.register_of_not ?_⟩
  · have hcollects := h.holdsRow.collect_fixed top
    rwa [hrow, Values.length_adjust, Values.adjust_eq_map] at hcollects
  · rwa [hrow, Values.length_adjust]

/-- Loading the surplus arguments stores them like results. -/
theorem storeResults_varargs (htop : m.topFrame? t = some f) (base count : Nat) :
    m.storeResults t ⟨base, if count = 0 then none else some (count - 1), .store⟩ f.varargs =
      (m.loadVarargs t base count, .go) := by
  unfold storeResults loadVarargs
  rw [htop]
  dsimp only
  by_cases hcount : count = 0
  · rw [if_pos hcount, if_pos hcount, if_pos hcount, Values.adjust_length]
  · rw [if_neg hcount, if_neg hcount, if_neg hcount]

end Storing

/-- Counts of values are exact. A new frame has each parameter's argument, nil where there is none, and a function of
any number of them has the surplus ones, in a table too if need be. However many values are stored in the registers of
a frame as results of a call or as surplus arguments, an instruction that takes all of them up to the last one gets
what is in front and these values, nil at their end or not; stored to a count, they are cut or filled up with nil. -/
theorem value_counts_are_exact :
    (∀ (m : Machine) (id : ClosureId) (args : Values) (target : ReturnTarget), let made := m.newFrame id args target
      made.1.Binds (m.closure id).proto args (made.1.file made.2.file) made.2.varargs) ∧
    ∀ (m : Machine) (t : ThreadId) (f : Frame) (under : List Frame), (m.thread t).frames = f :: under →
      f.file.index < m.files.size → ∀ base : Nat,
        (∀ vs continuation, ∃ m', m.storeResults t ⟨base, none, continuation⟩ vs = (m', .go) ∧
          m.Opens m' t f under base vs) ∧
        m.Opens (m.loadVarargs t base 0) t f under base f.varargs ∧
        ∀ count : Nat,
          (∀ vs continuation, ∃ m', m.storeResults t ⟨base, some count, continuation⟩ vs = (m', .go) ∧
            m.Fixes m' t f under base count vs) ∧
          m.Fixes (m.loadVarargs t base (count + 1)) t f under base count f.varargs := by
  refine ⟨binds_newFrame, fun m t f under hframes hfile base => ?_⟩
  have htop : m.topFrame? t = some f := by rw [topFrame?, hframes]; rfl
  refine ⟨fun vs continuation => storeResults_opens hframes hfile base continuation vs, ?_,
    fun count => ⟨fun vs continuation => storeResults_fixes hframes hfile base count continuation vs, ?_⟩⟩
  · obtain ⟨m', hstored, hopens⟩ := storeResults_opens hframes hfile base .store f.varargs
    cases hstored.symm.trans (storeResults_varargs htop base 0)
    exact hopens
  · obtain ⟨m', hstored, hfixes⟩ := storeResults_fixes hframes hfile base count .store f.varargs
    cases hstored.symm.trans (storeResults_varargs htop base (count + 1))
    exact hfixes

section Sample

/-- A frame whose function got 7 and nil besides its parameter. -/
def spreadFrame : Frame := ⟨⟨0⟩, default, ⟨0⟩, [.int 7, .nil], [], 1, 0, .host, none, 0⟩

/-- A thread in that frame, with 5 in its first register. -/
def spreading : Machine :=
  { limits := { fuse := none }
    threads := #[{ number := 1, frames := [spreadFrame], depth := 1 }]
    files := #[#[.int 5, .nil]] }

/-- All surplus arguments are taken, the nil at the end too, and three of them are two and one nil more. -/
theorem value_counts_are_exact_trailing_nil :
    (spreading.thread ⟨0⟩).frames = [spreadFrame] ∧ spreadFrame.file.index < spreading.files.size ∧
      (spreading.loadVarargs ⟨0⟩ 1 0).collect ⟨0⟩ ((spreading.loadVarargs ⟨0⟩ 1 0).openEnd ⟨0⟩) 0 0 =
        [.int 5, .int 7, .nil] ∧
      (spreading.loadVarargs ⟨0⟩ 1 4).collect ⟨0⟩ 0 1 4 = [.int 7, .nil, .nil] := by
  have hframes : (spreading.thread ⟨0⟩).frames = [spreadFrame] := rfl
  have hfile : spreadFrame.file.index < spreading.files.size := by decide
  obtain ⟨-, hopens, hfixes⟩ := value_counts_are_exact.2 spreading ⟨0⟩ spreadFrame [] hframes hfile 1
  exact ⟨hframes, hfile, hopens.collects 0 (Nat.zero_le 1), (hfixes 3).2.collects 0⟩

end Sample

end Machine

end LuaMachine
