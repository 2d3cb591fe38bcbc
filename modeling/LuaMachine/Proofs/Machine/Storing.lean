import LuaMachine.Machine.Frames

namespace LuaMachine

section Rows

@[simp] theorem Values.length_adjust (vs : Values) (count : Nat) : (vs.adjust count).length = count := by
  simp [Values.adjust]
  omega

@[simp] theorem size_growTo (registers : Array Value) (size : Nat) :
    (growTo registers size).size = max registers.size size := by
  simp [growTo]
  omega

theorem getElem?_growTo (registers : Array Value) (size i : Nat) : (growTo registers size)[i]? =
    if registers.size ≤ i ∧ i < size then some .nil else registers[i]? := by
  rw [growTo, Array.getElem?_append, Array.getElem?_replicate]
  by_cases hin : i < registers.size
  · rw [if_pos hin, if_neg (by omega)]
  · rw [if_neg hin, Array.getElem?_eq_none (Nat.not_lt.mp hin)]
    simp only [show i - registers.size < size - registers.size ↔ registers.size ≤ i ∧ i < size by omega]

@[simp] theorem size_writeRow (registers : Array Value) (start : Nat) (vs : Values) :
    (writeRow registers start vs).size = registers.size := by
  induction vs generalizing registers start with
  | nil => rfl
  | cons v rest ih => rw [writeRow, ih, Array.size_setIfInBounds]

theorem getElem?_writeRow (registers : Array Value) (start : Nat) (vs : Values) (i : Nat) :
    (writeRow registers start vs)[i]? =
      if start ≤ i ∧ i < start + vs.length ∧ i < registers.size then vs[i - start]? else registers[i]? := by
  induction vs generalizing registers start with
  | nil =>
    rw [writeRow, if_neg]
    simp only [List.length_nil]
    omega
  | cons v rest ih =>
    rw [writeRow, ih, Array.size_setIfInBounds, Array.getElem?_setIfInBounds, List.length_cons]
    rcases Nat.lt_trichotomy i start with hlt | rfl | hgt
    · rw [if_neg (by omega), if_neg (by omega), if_neg (by omega)]
    · rw [if_neg (by omega), if_pos rfl, Nat.sub_self]
      by_cases hin : i < registers.size
      · rw [if_pos hin, if_pos (by omega)]
        rfl
      · rw [if_neg hin, if_neg (by omega), Array.getElem?_eq_none (Nat.not_lt.mp hin)]
    · have hindex : i - start = i - (start + 1) + 1 := by omega
      rw [if_neg (by omega : start ≠ i), hindex, List.getElem?_cons_succ]
      simp only [show start + 1 ≤ i ∧ i < start + 1 + rest.length ∧ i < registers.size ↔
        start ≤ i ∧ i < start + (rest.length + 1) ∧ i < registers.size by omega]

end Rows

/-- Two register files have one size, and the same values but perhaps in the registers of `hole`. -/
structure AgreeOff (hole : Nat → Prop) (registers others : Array Value) : Prop where
  size : others.size = registers.size
  values : ∀ i, ¬hole i → others[i]? = registers[i]?

namespace ReturnTarget

/-- The values that are stored. -/
def row (target : ReturnTarget) (vs : Values) : Values :=
  match target.count with
  | none => vs
  | some count => vs.adjust count

/-- A register that gets a result. -/
def Holds (target : ReturnTarget) (vs : Values) (i : Nat) : Prop :=
  target.base ≤ i ∧ i < target.base + (target.row vs).length

/-- The registers with the results stored. -/
def stored (target : ReturnTarget) (registers : Array Value) (vs : Values) : Array Value :=
  match target.count with
  | none => writeRow (growTo registers (target.base + vs.length)) target.base vs
  | some count => writeRow (growTo registers (target.base + count)) target.base (vs.adjust count)

/-- The value that a loop tests once its results are stored. -/
def tested (target : ReturnTarget) (registers : Array Value) (vs : Values) : Value :=
  (target.stored registers vs)[target.base - 3 + 3]?.getD .nil

/-- Whether the frame skips an instruction because its loop is over. -/
def skips (target : ReturnTarget) (registers : Array Value) (vs : Values) : Prop :=
  target.continuation = .forIterator ∧ (target.tested registers vs).isNil = true

instance (target : ReturnTarget) (registers : Array Value) (vs : Values) : Decidable (target.skips registers vs) :=
  inferInstanceAs (Decidable (_ ∧ _))

/-- The registers of a frame that got results: a loop that goes on has its control variable set. -/
def registersAfter (target : ReturnTarget) (registers : Array Value) (vs : Values) : Array Value :=
  if target.continuation = .forIterator ∧ (target.tested registers vs).isNil = false then
    (target.stored registers vs).setIfInBounds (target.base - 3 + 2) (target.tested registers vs)
  else target.stored registers vs

/-- A frame that got results: open ones set its top, and a loop that is over skips an instruction. -/
def frameAfter (target : ReturnTarget) (f : Frame) (registers : Array Value) (vs : Values) : Frame :=
  { f with
    pc := if target.skips registers vs then f.pc + 1 else f.pc
    top := if target.count = none then target.base + vs.length else f.top }

variable (target : ReturnTarget) (f : Frame) (registers : Array Value) (vs : Values)

@[simp] theorem file_frameAfter : (target.frameAfter f registers vs).file = f.file := rfl

@[simp] theorem closure_frameAfter : (target.frameAfter f registers vs).closure = f.closure := rfl

@[simp] theorem pending_frameAfter : (target.frameAfter f registers vs).pending = f.pending := rfl

theorem frameAfter_of_store (h : target.continuation = .store) : target.frameAfter f registers vs =
    { f with top := if target.count = none then target.base + vs.length else f.top } := by
  simp [frameAfter, skips, h]

theorem frameAfter_of_loop (h : target.continuation = .forIterator) : target.frameAfter f registers vs =
    { f with
      pc := if (target.tested registers vs).isNil then f.pc + 1 else f.pc
      top := if target.count = none then target.base + vs.length else f.top } := by
  simp [frameAfter, skips, h]

theorem registersAfter_of_store (h : target.continuation = .store) :
    target.registersAfter registers vs = target.stored registers vs := by
  simp [registersAfter, h]

theorem registersAfter_of_loop (h : target.continuation = .forIterator) : target.registersAfter registers vs =
    if (target.tested registers vs).isNil then target.stored registers vs
    else (target.stored registers vs).setIfInBounds (target.base - 3 + 2) (target.tested registers vs) := by
  cases hnil : (target.tested registers vs).isNil <;> simp [registersAfter, h, hnil]

theorem stored_eq : target.stored registers vs =
    writeRow (growTo registers (target.base + (target.row vs).length)) target.base (target.row vs) := by
  unfold stored row
  cases target.count with
  | none => rfl
  | some count => rw [Values.length_adjust]

variable {target registers vs} in
theorem getElem?_stored_of_holds {i : Nat} (h : target.Holds vs i) :
    (target.stored registers vs)[i]? = (target.row vs)[i - target.base]? := by
  obtain ⟨hlow, hhigh⟩ := h
  rw [stored_eq, getElem?_writeRow, size_growTo, if_pos (by omega)]

variable {target vs} in
theorem getElem?_stored_of_not {i : Nat} (h : ¬target.Holds vs i) : (target.stored registers vs)[i]? =
    (growTo registers (target.base + (target.row vs).length))[i]? := by
  rw [stored_eq, getElem?_writeRow, if_neg fun hin => h ⟨hin.1, hin.2.1⟩]

/-- A loop tests the first result. -/
theorem tested_eq_first (hbase : 3 ≤ target.base) (count : Nat) (hcount : target.count = some (count + 1)) :
    target.tested registers vs = vs.first := by
  have hrow : target.row vs = vs.adjust (count + 1) := by rw [row, hcount]
  have hholds : target.Holds vs target.base := by
    rw [Holds, hrow, Values.length_adjust]
    omega
  rw [tested, Nat.sub_add_cancel hbase, getElem?_stored_of_holds hholds, hrow, Nat.sub_self]
  cases vs <;> rfl

section Agreement

variable {target : ReturnTarget} {registers others : Array Value} {vs : Values} {hole : Nat → Prop}

theorem agreeOff_stored (h : AgreeOff hole registers others) :
    AgreeOff (fun i => hole i ∧ ¬target.Holds vs i) (target.stored registers vs) (target.stored others vs) := by
  refine ⟨by rw [stored_eq, stored_eq, size_writeRow, size_writeRow, size_growTo, size_growTo, h.size], fun i hi => ?_⟩
  by_cases hholds : target.Holds vs i
  · rw [getElem?_stored_of_holds hholds, getElem?_stored_of_holds hholds]
  · have hsame := h.values i fun hhole => hi ⟨hhole, hholds⟩
    rw [getElem?_stored_of_not _ hholds, getElem?_stored_of_not _ hholds, getElem?_growTo, getElem?_growTo, h.size,
      hsame]

theorem tested_congr (h : AgreeOff hole registers others) (hloop : ¬hole (target.base - 3 + 3)) :
    target.tested others vs = target.tested registers vs := by
  rw [tested, tested, (agreeOff_stored h).values _ fun hhole => hloop hhole.1]

/-- Results leave registers that agree in agreement, and so do the registers that hold them. -/
theorem agreeOff_registersAfter (h : AgreeOff hole registers others)
    (hloop : target.continuation = .forIterator → ¬hole (target.base - 3 + 3)) :
    AgreeOff (fun i => hole i ∧ ¬target.Holds vs i) (target.registersAfter registers vs)
      (target.registersAfter others vs) := by
  have hstored : AgreeOff (fun i => hole i ∧ ¬target.Holds vs i) _ _ := agreeOff_stored h
  rcases hcont : target.continuation with _ | _ | _
  · rwa [registersAfter_of_store _ _ _ hcont, registersAfter_of_store _ _ _ hcont]
  · rw [registersAfter_of_loop _ _ _ hcont, registersAfter_of_loop _ _ _ hcont, tested_congr h (hloop hcont)]
    split
    · exact hstored
    · refine ⟨by simpa using hstored.size, fun i hi => ?_⟩
      rw [Array.getElem?_setIfInBounds, Array.getElem?_setIfInBounds, hstored.size, hstored.values i hi]
  · rwa [registersAfter, registersAfter, if_neg (by simp [hcont]), if_neg (by simp [hcont])]

theorem frameAfter_congr (h : AgreeOff hole registers others)
    (hloop : target.continuation = .forIterator → ¬hole (target.base - 3 + 3)) (f : Frame) :
    target.frameAfter f others vs = target.frameAfter f registers vs := by
  have hskips : target.skips others vs ↔ target.skips registers vs := by
    refine and_congr_right fun hcont => ?_
    rw [tested_congr h (hloop hcont)]
  simp only [frameAfter, hskips]

end Agreement

end ReturnTarget

end LuaMachine
