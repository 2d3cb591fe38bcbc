import LuaMachine.Chunk.Layout
import LuaMachine.Text.Utf8

namespace LuaMachine.Chunk

/-- Consumes bytes from the front and gives a result with the rest, or refuses with a reason. -/
def Reader (α : Type) := List UInt8 → Except Error (α × List UInt8)

namespace Reader

/-- Reads nothing. -/
def pure (x : α) : Reader α := fun bytes => .ok (x, bytes)

/-- Reads one thing after the other. -/
def bind (r : Reader α) (next : α → Reader β) : Reader β := fun bytes =>
  match r bytes with
  | .ok (x, rest) => next x rest
  | .error e => .error e

instance : Monad Reader where
  pure := pure
  bind := bind

/-- Refuses. -/
def fail (e : Error) : Reader α := fun _ => .error e

/-- The next `n` bytes. -/
def take (n : Nat) : Reader (List UInt8) := fun bytes =>
  if n ≤ bytes.length then .ok (bytes.take n, bytes.drop n) else .error .unexpectedEnd

/-- The next byte. -/
def byte : Reader UInt8 := fun bytes =>
  match bytes with
  | b :: rest => .ok (b, rest)
  | [] => .error .unexpectedEnd

/-- How many bytes are left. -/
def remaining : Reader Nat := fun bytes => .ok (bytes.length, bytes)

/-- `n` results of a reader in a row. -/
def many (r : Reader α) : Nat → Reader (List α)
  | 0 => pure []
  | n + 1 => do
    let x ← r
    let xs ← many r n
    return x :: xs

end Reader

/-- The number that bytes spell, the least significant byte first. -/
def natOfBytes (bytes : List UInt8) : Nat :=
  bytes.foldr (fun b acc => b.toNat + 256 * acc) 0

/-- The signed reading of an unsigned number of `width` bytes. -/
def signExtend (width n : Nat) : Int :=
  if n < Nat.pow 2 (8 * width - 1) then n else (n : Int) - Nat.pow 2 (8 * width)

namespace Layout

/-- An unsigned number of `width` bytes in the byte order of the layout. -/
def unsigned (l : Layout) (width : Nat) : Reader Nat := do
  let bytes ← Reader.take width
  return natOfBytes (if l.littleEndian then bytes else bytes.reverse)

/-- A signed integer of the layout's width. -/
def int (l : Layout) : Reader Int := do
  return signExtend l.intWidth (← l.unsigned l.intWidth)

/-- A line or an instruction index: an `int` cut to 32 bits. -/
def word (l : Layout) : Reader UInt32 := do
  return UInt32.ofInt (← l.int)

/-- A count of items that each take at least one byte. -/
def count (l : Layout) : Reader Nat := do
  let n ← l.int
  let left ← Reader.remaining
  if n < 0 ∨ (left : Int) < n then Reader.fail .badInteger else return n.toNat

/-- A number constant. -/
def number (l : Layout) : Reader Constant := do
  let raw ← l.unsigned l.numberWidth
  if l.integral then return .int (Int64.ofInt (signExtend l.numberWidth raw))
  else if l.numberWidth = 4 then return .number (Number.widen (UInt32.ofNat raw))
  else return .number (UInt64.ofNat raw)

/-- A text with its length, which counts a closing byte; length zero means no text. -/
def string? (l : Layout) : Reader (Option String) := do
  let length ← l.unsigned l.sizeWidth
  if length = 0 then return none
  else
    let bytes ← Reader.take length
    return some (Text.decode bytes.dropLast)

/-- A text, empty if there is none. -/
def string (l : Layout) : Reader String := do
  return (← l.string?).getD ""

/-- An instruction, whose operation must be one of the 38. -/
def instruction (l : Layout) : Reader Instruction := do
  let i : Instruction := ⟨UInt32.ofNat (← l.unsigned 4)⟩
  if i.opcode?.isNone then Reader.fail .badCode else return i

/-- A constant, by its tag. -/
def constant (l : Layout) : Reader Constant := do
  let tag ← Reader.byte
  if tag = nilTag then return .nil
  else if tag = booleanTag then return .bool ((← Reader.byte) != 0)
  else if tag = numberTag then l.number
  else if tag = stringTag then return .str (← l.string)
  else Reader.fail .badConstant

/-- The debug record of a local variable. -/
def localVariable (l : Layout) : Reader LocalVariable := do
  let name ← l.string
  let start ← l.word
  let stop ← l.word
  return ⟨name, start, stop⟩

/-- A list with its length in front. -/
def list (l : Layout) (item : Reader α) : Reader (List α) := do
  Reader.many item (← l.count)

/-- A function and the functions inside it, at most `depth` deep. A function without a source has that
of the function around it. -/
def function (l : Layout) : Nat → String → Reader Prototype
  | 0, _ => Reader.fail .unexpectedEnd
  | depth + 1, outerSource => do
    let source := (← l.string?).getD outerSource
    let lineDefined ← l.word
    let lastLine ← l.word
    let upvalueCount ← Reader.byte
    let paramCount ← Reader.byte
    let varargFlags ← Reader.byte
    let stackSize ← Reader.byte
    let code ← l.list l.instruction
    let constants ← l.list l.constant
    let children ← l.list (function l depth source)
    let lines ← l.list l.word
    let locals ← l.list l.localVariable
    let upvalueNames ← l.list l.string
    return {
      source, lineDefined, lastLine, upvalueCount, paramCount, varargFlags, stackSize
      code := code.toArray
      constants := constants.toArray
      children
      lines := lines.toArray
      locals, upvalueNames }

end Layout

/-- The twelve bytes in front of the main function. -/
def header : Reader Layout := do
  match ← Reader.take 12 with
  | [s0, s1, s2, s3, ver, fmt, order, intWidth, sizeWidth, codeWidth, numberWidth, integral] =>
    if [s0, s1, s2, s3] ≠ signature then Reader.fail .badHeader
    else if ver ≠ version ∨ fmt ≠ format then Reader.fail .badVersion
    else if order ≠ 0 ∧ order ≠ 1 then Reader.fail .badHeader
    else
      let l : Layout := {
        littleEndian := order = 1
        intWidth := intWidth.toNat
        sizeWidth := sizeWidth.toNat
        numberWidth := numberWidth.toNat
        integral := integral != 0 }
      if codeWidth = 4 ∧ l.isReadable then return l else Reader.fail .badHeader
  | _ => Reader.fail .unexpectedEnd

/-- Reads the main function of a chunk; bytes after it are ignored. Functions nest no deeper than the
bytes are many. -/
def read (bytes : List UInt8) : Except Error Prototype :=
  match header bytes with
  | .error e => .error e
  | .ok (l, rest) => (l.function (rest.length + 1) unnamedSource rest).map (·.1)

end LuaMachine.Chunk
