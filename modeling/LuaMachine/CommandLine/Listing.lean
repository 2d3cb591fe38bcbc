import LuaMachine.Chunk.Reader

namespace LuaMachine.Listing

/-- A text with blanks in front, at least `width` wide. -/
def padLeft (width : Nat) (s : String) : String :=
  String.ofList (List.replicate (width - s.length) ' ') ++ s

/-- A text with blanks behind, at least `width` wide. -/
def padRight (width : Nat) (s : String) : String :=
  s ++ String.ofList (List.replicate (width - s.length) ' ')

def nat (n : Nat) : String := Number.intText n

/-- A constant in words. -/
def constant (p : Prototype) (i : Nat) : String :=
  (p.constants[i]?.map fun k => k.value.quotedText).getD "<missing>"

/-- A register by its number, or a constant by its index and value. -/
def operand (p : Prototype) (x : UInt32) : String :=
  if Instruction.isConstant x then
    let i := Instruction.constantIndex x
    String.join ["K(", nat i, ")=", constant p i]
  else nat x.toNat

/-- The operands of an instruction, with what they stand for. -/
def operands (p : Prototype) (i : Instruction) (op : Opcode) : String :=
  let a := nat i.a.toNat
  let b := nat i.b.toNat
  let bx := nat i.bx.toNat
  let row := String.intercalate " "
  match op with
  | .loadK | .getGlobal | .setGlobal => row [a, bx] ++ "\t; " ++ constant p i.bx.toNat
  | .closure => row [a, bx] ++ "\t; proto[" ++ bx ++ "]"
  | .getTable | .self => row [a, b, operand p i.c]
  | .setTable | .add | .sub | .mul | .div | .mod | .pow | .eq | .lt | .le =>
    row [a, operand p i.b, operand p i.c]
  | .getUpval | .setUpval => row [a, b] ++ "\t; " ++ (p.upvalueNames[i.b.toNat]?).getD "-"
  | _ =>
    match op.mode with
    | .abc => row [a, b, nat i.c.toNat]
    | .abx => row [a, bx]
    | .asbx => row [a, Number.intText i.sbx]

/-- The line of one instruction. -/
def instructionLine (p : Prototype) (indent : String) (i : Instruction) (pc : Nat) : String :=
  let line := ((p.lineAt? pc).map fun n => nat n.toNat).getD "-"
  let start := String.join [indent, "  [", padLeft 3 (nat (pc + 1)), "] [", padLeft 4 line, "] "]
  match i.opcode? with
  | some op => String.join [start, padRight 10 op.name, " ", operands p i op]
  | none =>
    let digits := String.ofList (Nat.toDigits 16 i.word.toNat)
    let zeros := String.ofList (List.replicate (8 - digits.length) '0')
    String.join [start, "???        0x", zeros, digits]

/-- Constants by index, under a heading. -/
def constantLines (p : Prototype) (indent : String) : List String :=
  if p.constants.isEmpty then []
  else
    ["", String.join [indent, "constants (", nat p.constants.size, "):"]] ++
      (List.range p.constants.size).map fun i =>
        String.join [indent, "  [", nat i, "] ", constant p i]

/-- Local variables with the instructions they are alive in, counted from one, under a heading. -/
def localLines (p : Prototype) (indent : String) : List String :=
  if p.locals.isEmpty then []
  else
    ["", String.join [indent, "locals (", nat p.locals.length, "):"]] ++
      p.locals.zipIdx.map fun (v, i) =>
        String.join [indent, "  [", nat i, "] ", v.name, " ", nat (v.start + 1).toNat, "..",
          nat (v.stop + 1).toNat]

/-- The lines of a function without the functions inside it. -/
def ownLines (p : Prototype) (name indent : String) : List String :=
  [String.join [indent, "=== ", name, " <", p.source, ":", nat p.lineDefined.toNat, ",",
      nat p.lastLine.toNat, "> ==="],
    String.join [indent, "params: ", nat p.paramCount.toNat, ", vararg: ",
      if p.isVararg then "true" else "false", ", upvalues: ", nat p.upvalueCount.toNat,
      ", max_stack: ", nat p.stackSize.toNat],
    ""] ++
    (p.code.toList.zipIdx.map fun (i, pc) => instructionLine p indent i pc) ++
    constantLines p indent ++ localLines p indent

mutual
/-- The lines of a function and of the functions inside it, two blanks deeper per level. -/
def functionLines (name indent : String) : Prototype → List String
  | ⟨source, lineDefined, lastLine, upvalueCount, paramCount, varargFlags, stackSize, code, constants,
      children, lines, locals, upvalueNames⟩ =>
    ownLines ⟨source, lineDefined, lastLine, upvalueCount, paramCount, varargFlags, stackSize, code,
      constants, [], lines, locals, upvalueNames⟩ name indent ++
      childLines name (indent ++ "  ") 0 children

/-- The lines of the functions inside one, from number `i` on. -/
def childLines (name indent : String) (i : Nat) : List Prototype → List String
  | [] => []
  | p :: rest =>
    "" :: functionLines (String.join [name, ".proto[", nat i, "]"]) indent p ++
      childLines name indent (i + 1) rest
end

/-- The lines of a chunk's main function. -/
def lines (p : Prototype) : List String := functionLines "main" "" p

end LuaMachine.Listing
