import LuaMachine.Instruction.Basic
import Mathlib

namespace LuaMachine

namespace Opcode

theorem toNat_lt (op : Opcode) : op.toNat < 64 := by
  cases op <;> decide

theorem ofNat?_eq_some_iff {n : Nat} {op : Opcode} : ofNat? n = some op ↔ op.toNat = n := by
  constructor
  · intro h
    unfold ofNat? at h
    split at h <;> cases h <;> rfl
  · rintro rfl
    cases op <;> rfl

end Opcode

namespace Instruction

/-- A field has at least one bit and lies in the word. -/
structure IsPlace (size pos : UInt32) : Prop where
  size_pos : 0 < size.toNat
  size_lt : size.toNat < 32
  fits : pos.toNat + size.toNat ≤ 32

theorem IsPlace.pos_lt {size pos : UInt32} (h : IsPlace size pos) : pos.toNat < 32 := by
  have hsize := h.size_pos
  have hfits := h.fits
  omega

instance (size pos : UInt32) : Decidable (IsPlace size pos) :=
  decidable_of_iff (0 < size.toNat ∧ size.toNat < 32 ∧ pos.toNat + size.toNat ≤ 32)
    ⟨fun ⟨hpos, hlt, hfits⟩ => ⟨hpos, hlt, hfits⟩, fun ⟨hpos, hlt, hfits⟩ => ⟨hpos, hlt, hfits⟩⟩

section Bits

variable {size pos : UInt32}

theorem toNat_mask_zero (hsize : size.toNat < 32) : (mask size 0).toNat = 2 ^ size.toNat - 1 := by
  have hpow : 2 ^ size.toNat < 2 ^ 32 := Nat.pow_lt_pow_right (by decide) hsize
  have hshift : ((1 : UInt32) <<< size).toNat = 2 ^ size.toNat := by
    rw [UInt32.toNat_shiftLeft, Nat.mod_eq_of_lt hsize, Nat.shiftLeft_eq, UInt32.toNat_one, Nat.one_mul,
      Nat.mod_eq_of_lt hpow]
  have hone : (1 : UInt32) ≤ 1 <<< size := by
    rw [UInt32.le_iff_toNat_le, hshift]
    exact Nat.one_le_two_pow
  rw [mask, UInt32.shiftLeft_zero, UInt32.toNat_sub_of_le _ _ hone, hshift]
  rfl

/-- The ones of a mask are the bits of the field. -/
theorem testBit_mask (h : IsPlace size pos) (j : Nat) :
    (mask size pos).toNat.testBit j = decide (pos.toNat ≤ j ∧ j < pos.toNat + size.toNat) := by
  have hones : mask size pos = mask size 0 <<< pos := by rw [mask, mask, UInt32.shiftLeft_zero]
  have hfits := h.fits
  rw [hones, UInt32.toNat_shiftLeft, Nat.mod_eq_of_lt h.pos_lt, toNat_mask_zero h.size_lt, Nat.testBit_mod_two_pow,
    Nat.testBit_shiftLeft, Nat.testBit_two_pow_sub_one]
  grind

theorem toNat_field (h : IsPlace size pos) (i : Instruction) :
    (i.field size pos).toNat = i.word.toNat / 2 ^ pos.toNat % 2 ^ size.toNat := by
  rw [field, UInt32.toNat_and, UInt32.toNat_shiftRight, Nat.mod_eq_of_lt h.pos_lt, toNat_mask_zero h.size_lt,
    Nat.and_two_pow_sub_one_eq_mod, Nat.shiftRight_eq_div_pow]

theorem toNat_field_lt (h : IsPlace size pos) (i : Instruction) : (i.field size pos).toNat < 2 ^ size.toNat := by
  rw [toNat_field h]
  exact Nat.mod_lt _ (Nat.two_pow_pos _)

/-- A field reads the bits of its place. -/
theorem testBit_field (h : IsPlace size pos) (i : Instruction) (j : Nat) :
    (i.field size pos).toNat.testBit j = (decide (j < size.toNat) && i.word.toNat.testBit (pos.toNat + j)) := by
  rw [toNat_field h, Nat.testBit_mod_two_pow, Nat.testBit_div_two_pow, Nat.add_comm]

theorem testBit_not (w : UInt32) (j : Nat) :
    (~~~w).toNat.testBit j = (decide (j < 32) && !w.toNat.testBit j) := by
  have hcomplement : (~~~w).toNat = 2 ^ 32 - (w.toNat + 1) := by
    rw [UInt32.toNat_not]
    simp only [UInt32.size]
    omega
  rw [hcomplement, Nat.testBit_two_pow_sub_succ w.toNat_lt]

/-- Overwriting a field puts the low bits of a value in its place and leaves the others. -/
theorem testBit_setField (h : IsPlace size pos) (i : Instruction) (v : UInt32) (j : Nat) :
    (i.setField size pos v).word.toNat.testBit j =
      if pos.toNat ≤ j ∧ j < pos.toNat + size.toNat then v.toNat.testBit (j - pos.toNat)
      else i.word.toNat.testBit j := by
  have hpos := h.pos_lt
  have hfits := h.fits
  rw [setField, UInt32.toNat_or, Nat.testBit_or, UInt32.toNat_and, Nat.testBit_and, UInt32.toNat_and, Nat.testBit_and,
    testBit_not, testBit_mask h]
  split
  · rename_i hinside
    have hj : j < 32 := by omega
    rw [UInt32.toNat_shiftLeft, Nat.mod_eq_of_lt hpos, Nat.testBit_mod_two_pow, Nat.testBit_shiftLeft]
    simp [hinside, hj]
  · rename_i houtside
    rw [decide_eq_false houtside, Bool.and_false, Bool.or_false, Bool.not_false, Bool.and_true]
    by_cases hj : j < 32
    · simp [hj]
    · have hzero : i.word.toNat.testBit j = false :=
        Nat.testBit_lt_two_pow (i.word.toNat_lt.trans_le (Nat.pow_le_pow_right (by decide) (by omega)))
      rw [hzero, Bool.false_and]

variable {size' pos' : UInt32}

/-- A field that lies in an overwritten one reads its part of the value. -/
theorem toNat_field_setField (h : IsPlace size pos) (h' : IsPlace size' pos') (hle : pos.toNat ≤ pos'.toNat)
    (hend : pos'.toNat + size'.toNat ≤ pos.toNat + size.toNat) (i : Instruction) (v : UInt32) :
    ((i.setField size pos v).field size' pos').toNat =
      v.toNat / 2 ^ (pos'.toNat - pos.toNat) % 2 ^ size'.toNat := by
  refine Nat.eq_of_testBit_eq fun j => ?_
  rw [testBit_field h', testBit_setField h, Nat.testBit_mod_two_pow, Nat.testBit_div_two_pow]
  by_cases hj : j < size'.toNat
  · rw [if_pos (by omega), show pos'.toNat + j - pos.toNat = j + (pos'.toNat - pos.toNat) by omega]
  · simp [hj]

theorem toNat_field_setField_self (h : IsPlace size pos) (i : Instruction) (v : UInt32) :
    ((i.setField size pos v).field size pos).toNat = v.toNat % 2 ^ size.toNat := by
  rw [toNat_field_setField h h le_rfl le_rfl, Nat.sub_self, Nat.pow_zero, Nat.div_one]

/-- A field that does not overlap an overwritten one is unchanged. -/
theorem field_setField_of_apart (h : IsPlace size pos) (h' : IsPlace size' pos')
    (hapart : pos'.toNat + size'.toNat ≤ pos.toNat ∨ pos.toNat + size.toNat ≤ pos'.toNat) (i : Instruction)
    (v : UInt32) : (i.setField size pos v).field size' pos' = i.field size' pos' := by
  refine UInt32.toNat_inj.mp (Nat.eq_of_testBit_eq fun j => ?_)
  rw [testBit_field h', testBit_field h', testBit_setField h]
  by_cases hj : j < size'.toNat
  · rw [if_neg (by omega)]
  · simp [hj]

end Bits

/-- What a word holds: its operation and three operands. -/
structure Fields where
  op : Nat
  a : Nat
  b : Nat
  c : Nat

/-- The operation and the three operands of a word. -/
def fields (i : Instruction) : Fields := ⟨i.op.toNat, i.a.toNat, i.b.toNat, i.c.toNat⟩

section Setting

variable (i : Instruction) (op : Opcode) (v : UInt32)

theorem fields_setOp : (i.setOp op).fields = { i.fields with op := op.toNat } := by
  have hop : (UInt32.ofNat op.toNat).toNat % 2 ^ 6 = op.toNat := by
    rw [UInt32.toNat_ofNat']
    have hlt := op.toNat_lt
    omega
  simp (disch := decide) only [fields, setOp, Instruction.op, a, b, c, field_setField_of_apart,
    toNat_field_setField_self]
  exact congrArg (Fields.mk · _ _ _) hop

theorem fields_setA : (i.setA v).fields = { i.fields with a := v.toNat % 2 ^ 8 } := by
  simp (disch := decide) only [fields, setA, Instruction.op, a, b, c, field_setField_of_apart,
    toNat_field_setField_self]
  rfl

theorem fields_setB : (i.setB v).fields = { i.fields with b := v.toNat % 2 ^ 9 } := by
  simp (disch := decide) only [fields, setB, Instruction.op, a, b, c, field_setField_of_apart,
    toNat_field_setField_self]
  rfl

theorem fields_setC : (i.setC v).fields = { i.fields with c := v.toNat % 2 ^ 9 } := by
  simp (disch := decide) only [fields, setC, Instruction.op, a, b, c, field_setField_of_apart,
    toNat_field_setField_self]
  rfl

/-- The wide operand is the second operand above the third. -/
theorem fields_setBx :
    (i.setBx v).fields = { i.fields with b := v.toNat / 2 ^ 9 % 2 ^ 9, c := v.toNat % 2 ^ 9 } := by
  have hb : ((i.setBx v).field 9 23).toNat = v.toNat / 2 ^ 9 % 2 ^ 9 :=
    toNat_field_setField (by decide) (by decide) (by decide) (by decide) i v
  have hc : ((i.setBx v).field 9 14).toNat = v.toNat / 2 ^ 0 % 2 ^ 9 :=
    toNat_field_setField (by decide) (by decide) (by decide) (by decide) i v
  rw [Nat.pow_zero, Nat.div_one] at hc
  simp only [fields, b, c]
  rw [hb, hc]
  simp (disch := decide) only [setBx, Instruction.op, a, field_setField_of_apart]

theorem op_setBx : (i.setBx v).op = i.op := field_setField_of_apart (by decide) (by decide) (by decide) i v

theorem a_setBx : (i.setBx v).a = i.a := field_setField_of_apart (by decide) (by decide) (by decide) i v

theorem toNat_bx_setBx : (i.setBx v).bx.toNat = v.toNat % 2 ^ 18 := toNat_field_setField_self (by decide) i v

end Setting

section Views

variable (i : Instruction)

theorem toNat_op : i.op.toNat = i.word.toNat % 2 ^ 6 := by
  have h : i.op.toNat = i.word.toNat / 2 ^ 0 % 2 ^ 6 := toNat_field (by decide) i
  rwa [Nat.pow_zero, Nat.div_one] at h

theorem toNat_a : i.a.toNat = i.word.toNat / 2 ^ 6 % 2 ^ 8 := toNat_field (by decide) i

theorem toNat_b : i.b.toNat = i.word.toNat / 2 ^ 23 % 2 ^ 9 := toNat_field (by decide) i

theorem toNat_c : i.c.toNat = i.word.toNat / 2 ^ 14 % 2 ^ 9 := toNat_field (by decide) i

/-- The operation and the three operands make up the word. -/
theorem toNat_word :
    i.word.toNat = i.fields.op + 2 ^ 6 * i.fields.a + 2 ^ 14 * i.fields.c + 2 ^ 23 * i.fields.b := by
  have hword := i.word.toNat_lt
  simp only [fields, toNat_op, toNat_a, toNat_b, toNat_c]
  omega

theorem fields_injective : Function.Injective fields := by
  rintro ⟨w⟩ ⟨w'⟩ h
  have hword := toNat_word ⟨w⟩
  rw [h, ← toNat_word] at hword
  exact congrArg mk (UInt32.toNat_inj.mp hword)

/-- The wide operand is made up of the second and the third operand. -/
theorem toNat_bx : i.bx.toNat = 2 ^ 9 * i.fields.b + i.fields.c := by
  have hbx : i.bx.toNat = i.word.toNat / 2 ^ 14 % 2 ^ 18 := toNat_field (by decide) i
  simp only [fields, hbx, toNat_b, toNat_c]
  omega

theorem bx_eq_of_fields {i j : Instruction} (hb : i.fields.b = j.fields.b) (hc : i.fields.c = j.fields.c) :
    i.bx = j.bx := by
  rw [← UInt32.toNat_inj, toNat_bx, toNat_bx, hb, hc]

end Views

/-- A signed number that the wide operand can hold. -/
def IsOffset (v : Int) : Prop := -131071 ≤ v ∧ v ≤ 131072

instance (v : Int) : Decidable (IsOffset v) := inferInstanceAs (Decidable (_ ∧ _))

theorem isOffset_sbx (i : Instruction) : IsOffset i.sbx := by
  have hlt : i.bx.toNat < 2 ^ 18 := toNat_field_lt (by decide) i
  rw [IsOffset, sbx, excess]
  omega

/-- The stored form of a signed number is the number above the least one. -/
theorem toNat_stored {v : Int32} (h : IsOffset v.toInt) : ((v + 131071).toUInt32.toNat : Int) = v.toInt + 131071 := by
  obtain ⟨hlow, hhigh⟩ := h
  have hsum : (v + 131071).toInt = v.toInt + 131071 := by
    rw [Int32.toInt_add, show Int32.toInt 131071 = 131071 from rfl]
    exact Int.bmod_eq_of_le (by omega) (by omega)
  have hsign : (v + 131071).toBitVec.msb = false := by
    rw [BitVec.msb_eq_toInt]
    exact decide_eq_false (by rw [Int32.toInt_toBitVec]; omega)
  rw [← hsum]
  exact (BitVec.toInt_eq_toNat_of_msb hsign).symm

theorem sbx_setSbx (i : Instruction) {v : Int32} (h : IsOffset v.toInt) : (i.setSbx v).sbx = v.toInt := by
  have hstored := toNat_stored h
  obtain ⟨hlow, hhigh⟩ := h
  have hbx : (i.setSbx v).bx.toNat = (v + 131071).toUInt32.toNat % 2 ^ 18 := toNat_bx_setBx i _
  rw [sbx, hbx, excess]
  omega

section Assembling

theorem opcode?_eq_some_iff {i : Instruction} {op : Opcode} : i.opcode? = some op ↔ i.fields.op = op.toNat := by
  rw [opcode?, Opcode.ofNat?_eq_some_iff, eq_comm]
  rfl

variable (op : Opcode) (a b c bx : UInt32) (v : Int32)

theorem fields_ofABC :
    (ofABC op a b c).fields = ⟨op.toNat, a.toNat % 2 ^ 8, b.toNat % 2 ^ 9, c.toNat % 2 ^ 9⟩ := by
  rw [ofABC, fields_setC, fields_setB, fields_setA, fields_setOp]

theorem fields_ofABx :
    (ofABx op a bx).fields = ⟨op.toNat, a.toNat % 2 ^ 8, bx.toNat / 2 ^ 9 % 2 ^ 9, bx.toNat % 2 ^ 9⟩ := by
  rw [ofABx, fields_setBx, fields_setA, fields_setOp]

theorem operands_ofABC (ha : a.toNat < 2 ^ 8) (hb : b.toNat < 2 ^ 9) (hc : c.toNat < 2 ^ 9) :
    (ofABC op a b c).opcode? = some op ∧ (ofABC op a b c).a = a ∧ (ofABC op a b c).b = b ∧
      (ofABC op a b c).c = c := by
  have hfields := fields_ofABC op a b c
  rw [Nat.mod_eq_of_lt ha, Nat.mod_eq_of_lt hb, Nat.mod_eq_of_lt hc, fields, Fields.mk.injEq] at hfields
  obtain ⟨hop, ha, hb, hc⟩ := hfields
  exact ⟨opcode?_eq_some_iff.mpr hop, UInt32.toNat_inj.mp ha, UInt32.toNat_inj.mp hb, UInt32.toNat_inj.mp hc⟩

theorem operands_ofABx (ha : a.toNat < 2 ^ 8) : (ofABx op a bx).opcode? = some op ∧ (ofABx op a bx).a = a := by
  have hfields := fields_ofABx op a bx
  rw [Nat.mod_eq_of_lt ha, fields, Fields.mk.injEq] at hfields
  obtain ⟨hop, ha, -⟩ := hfields
  exact ⟨opcode?_eq_some_iff.mpr hop, UInt32.toNat_inj.mp ha⟩

theorem bx_ofABx (hbx : bx.toNat < 2 ^ 18) : (ofABx op a bx).bx = bx := by
  rw [← UInt32.toNat_inj, ofABx, toNat_bx_setBx, Nat.mod_eq_of_lt hbx]

/-- The word that the format of an operation makes of the operands of a word. -/
def reassembled (i : Instruction) (op : Opcode) : Instruction :=
  match op.mode with
  | .abc => ofABC op i.a i.b i.c
  | .abx => ofABx op i.a i.bx
  | .asbx => ofAsBx op i.a (Int32.ofInt i.sbx)

theorem ofABx_bx {i : Instruction} (hop : i.fields.op = op.toNat) : ofABx op i.a i.bx = i := by
  apply fields_injective
  have ha : i.a.toNat < 2 ^ 8 := toNat_field_lt (by decide) i
  have hb : i.fields.b < 2 ^ 9 := toNat_field_lt (by decide) i
  have hc : i.fields.c < 2 ^ 9 := toNat_field_lt (by decide) i
  rw [fields_ofABx, toNat_bx, ← hop, Nat.mod_eq_of_lt ha,
    show (2 ^ 9 * i.fields.b + i.fields.c) / 2 ^ 9 % 2 ^ 9 = i.fields.b by omega,
    show (2 ^ 9 * i.fields.b + i.fields.c) % 2 ^ 9 = i.fields.c by omega]
  rfl

theorem ofABC_operands {i : Instruction} (hop : i.fields.op = op.toNat) : ofABC op i.a i.b i.c = i := by
  apply fields_injective
  have ha : i.a.toNat < 2 ^ 8 := toNat_field_lt (by decide) i
  have hb : i.b.toNat < 2 ^ 9 := toNat_field_lt (by decide) i
  have hc : i.c.toNat < 2 ^ 9 := toNat_field_lt (by decide) i
  rw [fields_ofABC, ← hop, Nat.mod_eq_of_lt ha, Nat.mod_eq_of_lt hb, Nat.mod_eq_of_lt hc]
  rfl

/-- Storing the signed operand of a word gives back its wide operand. -/
theorem stored_sbx (i : Instruction) : (Int32.ofInt i.sbx + 131071).toUInt32 = i.bx := by
  obtain ⟨hlow, hhigh⟩ := isOffset_sbx i
  have hv : (Int32.ofInt i.sbx).toInt = i.sbx := Int32.toInt_ofInt_of_le (by omega) (by omega)
  have hstored := toNat_stored (v := Int32.ofInt i.sbx) (hv.symm ▸ isOffset_sbx i)
  have hsbx : i.sbx = i.bx.toNat - 131071 := rfl
  rw [← UInt32.toNat_inj]
  omega

theorem reassembled_eq {i : Instruction} {op : Opcode} (h : i.opcode? = some op) : i.reassembled op = i := by
  have hop := opcode?_eq_some_iff.mp h
  rw [reassembled]
  cases op.mode with
  | abc => exact ofABC_operands op hop
  | abx => exact ofABx_bx op hop
  | asbx =>
    show ofABx op i.a (Int32.ofInt i.sbx + 131071).toUInt32 = i
    rw [stored_sbx]
    exact ofABx_bx op hop

end Assembling

/-- Setting a field changes nothing else that a word holds, and words, operations and operands stand for each other. -/
theorem fields_faithful :
    (∀ (i : Instruction) (op : Opcode), (i.setOp op).fields = { i.fields with op := op.toNat } ∧
      (i.setOp op).opcode? = some op ∧ (i.setOp op).bx = i.bx) ∧
    (∀ (i : Instruction) (v : UInt32),
      ((i.setA v).fields = { i.fields with a := v.toNat % 2 ^ 8 } ∧ (i.setA v).bx = i.bx) ∧
      (i.setB v).fields = { i.fields with b := v.toNat % 2 ^ 9 } ∧
      (i.setC v).fields = { i.fields with c := v.toNat % 2 ^ 9 } ∧
      (i.setBx v).bx.toNat = v.toNat % 2 ^ 18 ∧ (i.setBx v).op = i.op ∧ (i.setBx v).a = i.a) ∧
    (∀ (i : Instruction) (v : Int32), IsOffset v.toInt →
      (i.setSbx v).sbx = v.toInt ∧ (i.setSbx v).op = i.op ∧ (i.setSbx v).a = i.a) ∧
    (∀ (op : Opcode) (a b c : UInt32), a.toNat < 2 ^ 8 → b.toNat < 2 ^ 9 → c.toNat < 2 ^ 9 →
      (ofABC op a b c).opcode? = some op ∧ (ofABC op a b c).a = a ∧ (ofABC op a b c).b = b ∧
        (ofABC op a b c).c = c) ∧
    (∀ (op : Opcode) (a bx : UInt32), a.toNat < 2 ^ 8 → bx.toNat < 2 ^ 18 →
      (ofABx op a bx).opcode? = some op ∧ (ofABx op a bx).a = a ∧ (ofABx op a bx).bx = bx) ∧
    (∀ (op : Opcode) (a : UInt32) (v : Int32), a.toNat < 2 ^ 8 → IsOffset v.toInt →
      (ofAsBx op a v).opcode? = some op ∧ (ofAsBx op a v).a = a ∧ (ofAsBx op a v).sbx = v.toInt) ∧
    ∀ (i : Instruction) (op : Opcode), i.opcode? = some op → i.reassembled op = i := by
  refine ⟨fun i op => ?_, fun i v => ?_, fun i v hv => ?_, operands_ofABC, fun op a bx ha hbx => ?_,
    fun op a v ha hv => ?_, fun _ _ => reassembled_eq⟩
  · have hfields := fields_setOp i op
    exact ⟨hfields, opcode?_eq_some_iff.mpr (by rw [hfields]), bx_eq_of_fields (by rw [hfields]) (by rw [hfields])⟩
  · have hfields := fields_setA i v
    exact ⟨⟨hfields, bx_eq_of_fields (by rw [hfields]) (by rw [hfields])⟩, fields_setB i v, fields_setC i v,
      toNat_bx_setBx i v, op_setBx i v, a_setBx i v⟩
  · exact ⟨sbx_setSbx i hv, op_setBx i _, a_setBx i _⟩
  · obtain ⟨hop, ha⟩ := operands_ofABx op a bx ha
    exact ⟨hop, ha, bx_ofABx op a bx hbx⟩
  · obtain ⟨hop, ha⟩ := operands_ofABx op a (v + 131071).toUInt32 ha
    exact ⟨hop, ha, sbx_setSbx _ hv⟩

/-- The furthest jumps, an addition that names a constant, and a word as it stands in a chunk. -/
theorem fields_faithful_extremes :
    (ofAsBx .jmp 0 131072).sbx = 131072 ∧ ((ofAsBx .jmp 0 131072).setSbx (-131071)).sbx = -131071 ∧
      (ofABC .add 5 300 17).b = 300 ∧ (ofABx .closure 255 262143).bx = 262143 ∧
      (Instruction.mk 0x0080001e).opcode? = some .ret ∧
      (Instruction.mk 0x0080001e).reassembled .ret = ⟨0x0080001e⟩ := by
  obtain ⟨-, -, hset, habc, habx, hasbx, hword⟩ := fields_faithful
  have hret : (Instruction.mk 0x0080001e).opcode? = some .ret := by decide
  exact ⟨(hasbx .jmp 0 131072 (by decide) (by decide)).2.2, (hset _ (-131071) (by decide)).1,
    (habc .add 5 300 17 (by decide) (by decide) (by decide)).2.2.1,
    (habx .closure 255 262143 (by decide) (by decide)).2.2, hret, hword _ _ hret⟩

end Instruction

end LuaMachine
