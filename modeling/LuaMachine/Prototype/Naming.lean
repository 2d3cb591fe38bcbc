import LuaMachine.Prototype.Basic

namespace LuaMachine

/-- How a program refers to a value. -/
inductive NameKind
  | localVar | global | field | method | upvalue
deriving DecidableEq, Repr

/-- The word for a kind of name in messages. -/
def NameKind.word : NameKind → String
  | localVar => "local"
  | global => "global"
  | field => "field"
  | method => "method"
  | upvalue => "upvalue"

namespace Prototype

/-- A string constant. -/
def constantName? (p : Prototype) (i : Nat) : Option String :=
  match p.constants[i]? with
  | some (.str s) => some s
  | _ => none

/-- The name of an operand that is a string constant. -/
def operandName? (p : Prototype) (operand : UInt32) : Option String :=
  if Instruction.isConstant operand then p.constantName? (Instruction.constantIndex operand) else none

/-- What one instruction says about the name of register `reg`: it settles the question, hands it on to
another register, or leaves it to the instructions before. -/
inductive Clue
  | named (kind : NameKind) (name : String)
  | unknown
  | movedFrom (reg : Nat)
  | silent

/-- The clue that an instruction gives about register `reg`. -/
def clue (p : Prototype) (i : Instruction) (reg : Nat) : Clue :=
  let settle (kind : NameKind) (name? : Option String) : Clue :=
    match name? with
    | some name => .named kind name
    | none => .unknown
  let a := i.a.toNat
  match i.opcode? with
  | none => .unknown
  | some .getGlobal => if a = reg then settle .global (p.constantName? i.bx.toNat) else .silent
  | some .getTable => if a = reg then settle .field (p.operandName? i.c) else .silent
  | some .self => if a = reg then settle .method (p.operandName? i.c) else .silent
  | some .getUpval =>
    if a = reg then settle .upvalue p.upvalueNames[i.b.toNat]? else .silent
  | some .move =>
    if a = reg then (if i.b.toNat < a then .movedFrom i.b.toNat else .unknown) else .silent
  | some .loadNil => if a ≤ reg ∧ reg ≤ i.b.toNat then .unknown else .silent
  | some .call | some .tailCall | some .tForLoop | some .varArg =>
    if a ≤ reg then .unknown else .silent
  | some .jmp | some .setGlobal | some .setUpval | some .setTable | some .setList | some .eq
  | some .lt | some .le | some .test | some .ret | some .close => .silent
  | some _ => if a = reg then .unknown else .silent

/-- The name of register `reg` just before instruction `pc`, read backwards from there. -/
def nameBefore? (p : Prototype) : Nat → Nat → Option (NameKind × String)
  | 0, _ => none
  | pc + 1, reg =>
    match p.code[pc]? with
    | none => none
    | some i =>
      match p.clue i reg with
      | .named kind name => some (kind, name)
      | .unknown => none
      | .silent => nameBefore? p pc reg
      | .movedFrom source =>
        match p.localName? (source + 1) pc with
        | some name => some (.localVar, name)
        | none => nameBefore? p pc source

/-- The name of register `reg` at instruction `pc`: a local variable's, or the one it was loaded by. -/
def registerName? (p : Prototype) (pc reg : Nat) : Option (NameKind × String) :=
  match p.localName? (reg + 1) pc with
  | some name => some (.localVar, name)
  | none => p.nameBefore? pc reg

/-- The registers that the instruction at `pc` may fail on, in the order they are examined. -/
def failingRegisters (i : Instruction) : List Nat :=
  match i.opcode? with
  | some .getTable | some .self | some .unm | some .len => [i.b.toNat]
  | some .setTable | some .call | some .tailCall => [i.a.toNat]
  | some .add | some .sub | some .mul | some .div | some .mod | some .pow =>
    ([i.b, i.c].filter fun operand => !Instruction.isConstant operand).map UInt32.toNat
  | some .concat => (List.range (i.c.toNat + 1)).drop i.b.toNat
  | _ => []

end Prototype

end LuaMachine
