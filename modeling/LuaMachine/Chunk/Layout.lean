import LuaMachine.Prototype.Basic

namespace LuaMachine.Chunk

/-- Byte order, the widths of counts, string lengths and numbers in bytes, and whether numbers are integers. -/
structure Layout where
  littleEndian : Bool
  intWidth : Nat
  sizeWidth : Nat
  numberWidth : Nat
  integral : Bool
deriving DecidableEq, Repr

/-- The layout that is written: little-endian, 4-byte counts, 8-byte lengths and doubles. -/
def Layout.written : Layout := ⟨true, 4, 8, 8, false⟩

/-- The widths that can be read. -/
def Layout.isReadable (l : Layout) : Bool :=
  1 ≤ l.intWidth && l.intWidth ≤ 8 && 1 ≤ l.sizeWidth && l.sizeWidth ≤ 8 &&
    if l.integral then 1 ≤ l.numberWidth && l.numberWidth ≤ 8
    else l.numberWidth = 4 || l.numberWidth = 8

/-- Why bytes are no chunk. -/
inductive Error
  | unexpectedEnd | badHeader | badVersion | badInteger | badCode | badConstant
deriving DecidableEq, Repr

/-- The reason in words. -/
def Error.reason : Error → String
  | unexpectedEnd => "unexpected end"
  | badHeader => "bad header"
  | badVersion => "bad version"
  | badInteger => "bad integer"
  | badCode => "bad code"
  | badConstant => "bad constant"

/-- The complaint about a chunk that cannot be read. -/
def Error.message (e : Error) : String := "binary chunk: " ++ e.reason ++ " in precompiled chunk"

/-- The first bytes of every chunk. -/
def signature : List UInt8 := [0x1b, 0x4c, 0x75, 0x61]

/-- The version of the instruction set, `5.1`. -/
def version : UInt8 := 0x51

/-- The only format of chunks. -/
def format : UInt8 := 0

/-- Whether bytes start like a binary chunk. -/
def isBinary (bytes : List UInt8) : Bool := signature.isPrefixOf bytes

/-- The source of a chunk that names none. -/
def unnamedSource : String := "=?"

/-- The tag of the constant nil. -/
def nilTag : UInt8 := 0

/-- The tag of a boolean constant. -/
def booleanTag : UInt8 := 1

/-- The tag of a number constant. -/
def numberTag : UInt8 := 3

/-- The tag of a text constant. -/
def stringTag : UInt8 := 4

end LuaMachine.Chunk
