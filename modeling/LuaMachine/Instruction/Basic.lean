import LuaMachine.Instruction.Opcode

namespace LuaMachine

/-- A 32-bit instruction word: 6 bits of operation, 8 bits of the first operand, then 9 bits each of the third and the
second, which some operations read as one field of 18 bits. -/
structure Instruction where
  word : UInt32
deriving DecidableEq, Repr, Inhabited

namespace Instruction

/-- `size` ones from bit `pos` up. -/
def mask (size pos : UInt32) : UInt32 := ((1 <<< size) - 1) <<< pos

/-- The field of `size` bits at `pos`. -/
def field (i : Instruction) (size pos : UInt32) : UInt32 := (i.word >>> pos) &&& mask size 0

/-- Overwrites the field of `size` bits at `pos` with the low bits of `v`. -/
def setField (i : Instruction) (size pos : UInt32) (v : UInt32) : Instruction :=
  ⟨(i.word &&& ~~~(mask size pos)) ||| ((v <<< pos) &&& mask size pos)⟩

/-- The number of the operation. -/
def op (i : Instruction) : UInt32 := i.field 6 0

/-- The first operand, eight bits. -/
def a (i : Instruction) : UInt32 := i.field 8 6

/-- The second operand, nine bits. -/
def b (i : Instruction) : UInt32 := i.field 9 23

/-- The third operand, nine bits. -/
def c (i : Instruction) : UInt32 := i.field 9 14

/-- The wide operand, in place of `b` and `c`. -/
def bx (i : Instruction) : UInt32 := i.field 18 14

/-- The excess of the signed operand. -/
def excess : Int := 131071

/-- The signed operand. -/
def sbx (i : Instruction) : Int := i.bx.toNat - excess

/-- The operation, unless the six bits are none of the 38. -/
def opcode? (i : Instruction) : Option Opcode := Opcode.ofNat? i.op.toNat

/-- Overwrites the operation. -/
def setOp (i : Instruction) (op : Opcode) : Instruction := i.setField 6 0 (UInt32.ofNat op.toNat)

/-- Overwrites the first operand. -/
def setA (i : Instruction) (v : UInt32) : Instruction := i.setField 8 6 v

/-- Overwrites the second operand. -/
def setB (i : Instruction) (v : UInt32) : Instruction := i.setField 9 23 v

/-- Overwrites the third operand. -/
def setC (i : Instruction) (v : UInt32) : Instruction := i.setField 9 14 v

/-- Overwrites the wide operand. -/
def setBx (i : Instruction) (v : UInt32) : Instruction := i.setField 18 14 v

/-- Overwrites the wide operand with a signed one. -/
def setSbx (i : Instruction) (v : Int32) : Instruction := i.setBx (v + 131071).toUInt32

/-- An instruction with three operands. -/
def ofABC (op : Opcode) (a b c : UInt32) : Instruction :=
  (((Instruction.mk 0).setOp op).setA a |>.setB b).setC c

/-- An instruction with a wide operand. -/
def ofABx (op : Opcode) (a bx : UInt32) : Instruction :=
  (((Instruction.mk 0).setOp op).setA a).setBx bx

/-- An instruction with a signed wide operand. -/
def ofAsBx (op : Opcode) (a : UInt32) (sbx : Int32) : Instruction :=
  (((Instruction.mk 0).setOp op).setA a).setSbx sbx

/-- Whether an operand names a constant. -/
def isConstant (operand : UInt32) : Bool := operand &&& 256 != 0

/-- The index of the constant that an operand names. -/
def constantIndex (operand : UInt32) : Nat := (operand &&& ~~~256).toNat

/-- The operand that names constant `k`. -/
def constantOperand (k : UInt32) : UInt32 := k ||| 256

end Instruction

end LuaMachine
