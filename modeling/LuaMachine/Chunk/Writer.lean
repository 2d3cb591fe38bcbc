import LuaMachine.Chunk.Layout
import LuaMachine.Text.Utf8

namespace LuaMachine.Chunk

/-- The low `width` bytes of a number, the least significant first. -/
def littleEndianBytes : Nat → Nat → List UInt8
  | 0, _ => []
  | width + 1, n => UInt8.ofNat n :: littleEndianBytes width (n / 256)

/-- A count in four bytes. -/
def intBytes (n : Nat) : List UInt8 := littleEndianBytes 4 n

/-- A text with its length and a closing zero; no text is length zero. -/
def stringBytes : Option String → List UInt8
  | none => littleEndianBytes 8 0
  | some s =>
    let bytes := Text.encode s
    littleEndianBytes 8 (bytes.length + 1) ++ bytes ++ [0]

/-- A constant behind its tag. -/
def constantBytes : Constant → List UInt8
  | .nil => [nilTag]
  | .bool b => [booleanTag, if b then 1 else 0]
  | .int i => numberTag :: littleEndianBytes 8 (Number.ofInt64 i).toBits.toNat
  | .float bits => numberTag :: littleEndianBytes 8 bits.toNat
  | .str s => stringTag :: stringBytes (some s)

/-- A list with its length in front. -/
def listBytes (item : α → List UInt8) (xs : List α) : List UInt8 :=
  intBytes xs.length ++ xs.flatMap item

/-- The debug record of a local variable. -/
def localBytes (v : LocalVariable) : List UInt8 :=
  stringBytes (some v.name) ++ intBytes v.start.toNat ++ intBytes v.stop.toNat

/-- Lines, local variables and upvalue names; empty lists when stripped. -/
def debugBytes (strip : Bool) (p : Prototype) : List UInt8 :=
  if strip then intBytes 0 ++ intBytes 0 ++ intBytes 0
  else
    listBytes (fun line => intBytes line.toNat) p.lines.toList ++
      listBytes localBytes p.locals ++ listBytes (fun name => stringBytes (some name)) p.upvalueNames

/-- Everything of a function in front of the functions inside it. A source equal to the one around the
function is left out. -/
def functionHead (strip : Bool) (outerSource : Option String) (p : Prototype) : List UInt8 :=
  stringBytes (if strip || outerSource == some p.source then none else some p.source) ++
    intBytes p.lineDefined.toNat ++ intBytes p.lastLine.toNat ++
    [p.upvalueCount, p.paramCount, p.varargFlags, p.stackSize] ++
    listBytes (fun i => littleEndianBytes 4 i.word.toNat) p.code.toList ++
    listBytes constantBytes p.constants.toList

mutual
/-- A function and the functions inside it. -/
def functionBytes (strip : Bool) (outerSource : Option String) : Prototype → List UInt8
  | ⟨source, lineDefined, lastLine, upvalueCount, paramCount, varargFlags, stackSize, code, constants,
      children, lines, locals, upvalueNames⟩ =>
    let p : Prototype := ⟨source, lineDefined, lastLine, upvalueCount, paramCount, varargFlags, stackSize,
      code, constants, [], lines, locals, upvalueNames⟩
    functionHead strip outerSource p ++ intBytes children.length ++
      childrenBytes strip source children ++ debugBytes strip p

/-- The functions inside one, in order. -/
def childrenBytes (strip : Bool) (outerSource : String) : List Prototype → List UInt8
  | [] => []
  | p :: rest => functionBytes strip (some outerSource) p ++ childrenBytes strip outerSource rest
end

/-- The header of the written layout. -/
def headerBytes : List UInt8 := signature ++ [version, format, 1, 4, 8, 4, 8, 0]

/-- Writes a prototype as a chunk; stripped, it carries no sources, lines and names. -/
def write (p : Prototype) (strip : Bool) : List UInt8 := headerBytes ++ functionBytes strip none p

end LuaMachine.Chunk
