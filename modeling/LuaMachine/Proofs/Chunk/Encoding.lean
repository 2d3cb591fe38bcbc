import LuaMachine.Chunk.Writer
import LuaMachine.Proofs.Prototype.Constant

namespace LuaMachine

/-- The functions in a function: itself, and all that are in the functions right inside it. -/
inductive Prototype.Contains : Prototype → Prototype → Prop
  | self (p : Prototype) : Contains p p
  | child {p c q : Prototype} (hc : c ∈ p.children) (hq : Contains c q) : Contains p q

namespace Chunk

/-- The twelve bytes that announce a layout; numbers are integers if the last one is not zero. -/
def Layout.announcement (l : Layout) (integral : UInt8) : List UInt8 :=
  signature ++ [version, format, if l.littleEndian then 1 else 0, UInt8.ofNat l.intWidth, UInt8.ofNat l.sizeWidth, 4,
    UInt8.ofNat l.numberWidth, integral]

namespace Layout

variable (l : Layout)

/-- The low `width` bytes of a number in the byte order of the layout. -/
def bytesOf (width n : Nat) : List UInt8 :=
  if l.littleEndian then littleEndianBytes width n else (littleEndianBytes width n).reverse

/-- The bytes of a count, a line or an instruction index. -/
def intBytes (n : Nat) : List UInt8 := l.bytesOf l.intWidth n

/-- The bytes of a text behind its length, which counts a closing zero; no text is length zero. -/
def textBytes : Option String → List UInt8
  | none => l.bytesOf l.sizeWidth 0
  | some s => l.bytesOf l.sizeWidth ((Text.encode s).length + 1) ++ (Text.encode s ++ [0])

/-- Whether a number fits the signed integers of the layout. -/
def FitsInt (n : Nat) : Prop := n < 2 ^ (8 * l.intWidth - 1)

/-- Whether 32 bits survive as an integer of the layout: four bytes keep also what they read as negative. -/
def FitsWord (w : UInt32) : Prop := l.FitsInt w.toNat ∨ l.intWidth = 4

/-- Whether the length of a text and its closing zero fits the lengths of the layout. -/
def FitsText (s : String) : Prop := (Text.encode s).length + 1 < 256 ^ l.sizeWidth

/-- The number constant that some raw bits stand for: a two's complement integer, a single or a double. A NaN keeps
its bits, and a single one gets those that widening gives. -/
def Denotes (raw : Nat) (c : Constant) : Prop :=
  if l.integral then
    ∃ i : Int64, c = .int i ∧ -2 ^ (8 * l.numberWidth - 1) ≤ i.toInt ∧ i.toInt < 2 ^ (8 * l.numberWidth - 1) ∧
      (raw : Int) = i.toInt % 2 ^ (8 * l.numberWidth)
  else if l.numberWidth = 4 then
    ∃ bits : UInt32, raw = bits.toNat ∧ c.StandsFor (Binary.ofSingle bits) ∧
      (Binary.ofSingle bits = .nan → c = .float (Number.widen bits))
  else
    ∃ bits : UInt64, raw = bits.toNat ∧ c.StandsFor (Binary.ofBits bits) ∧
      (Binary.ofBits bits = .nan → c = .float bits)

/-- The encodings of a text that may be left out if it is `default`. -/
def EncodesText (default s : String) (bytes : List UInt8) : Prop :=
  ∃ text? : Option String, text?.getD default = s ∧ (∀ text ∈ text?, l.FitsText text) ∧ bytes = l.textBytes text?

/-- The encoding of a line or an instruction index. -/
def EncodesWord (w : UInt32) (bytes : List UInt8) : Prop := l.FitsWord w ∧ bytes = l.intBytes w.toNat

/-- The encoding of an instruction, whose operation is one of the 38. -/
def EncodesInstruction (i : Instruction) (bytes : List UInt8) : Prop :=
  i.opcode?.isSome ∧ bytes = l.bytesOf 4 i.word.toNat

/-- The encodings of a constant. Any byte but zero is true, and an empty text may be left out. -/
inductive EncodesConstant : Constant → List UInt8 → Prop
  | nil : EncodesConstant .nil [nilTag]
  | bool (b : UInt8) : EncodesConstant (.bool (b != 0)) [booleanTag, b]
  | number {raw : Nat} {c : Constant} (hraw : l.Denotes raw c) :
    EncodesConstant c ([numberTag] ++ l.bytesOf l.numberWidth raw)
  | str {s : String} {bytes : List UInt8} (hs : l.EncodesText "" s bytes) :
    EncodesConstant (.str s) ([stringTag] ++ bytes)

/-- The encodings of the debug record of a local variable. -/
def EncodesLocal (v : LocalVariable) (bytes : List UInt8) : Prop :=
  ∃ name start stop, l.EncodesText "" v.name name ∧ l.EncodesWord v.start start ∧ l.EncodesWord v.stop stop ∧
    bytes = name ++ (start ++ stop)

/-- The encodings of a list: its length, and an encoding of each item. -/
def EncodesList {α : Type} (item : α → List UInt8 → Prop) (xs : List α) (bytes : List UInt8) : Prop :=
  ∃ chunks, List.Forall₂ item xs chunks ∧ l.FitsInt xs.length ∧ bytes = l.intBytes xs.length ++ chunks.flatten

mutual
/-- The encodings of a function inside one with some source, which need not be spelled again: a layout leaves such
choices, so that this is a relation. -/
inductive EncodesFunction : String → Prototype → List UInt8 → Prop
  | mk {outerSource : String} {p : Prototype}
    {source lineDefined lastLine code constants lines locals upvalueNames : List UInt8} {children : List (List UInt8)}
    (hsource : l.EncodesText outerSource p.source source)
    (hlineDefined : l.EncodesWord p.lineDefined lineDefined)
    (hlastLine : l.EncodesWord p.lastLine lastLine)
    (hcode : l.EncodesList l.EncodesInstruction p.code.toList code)
    (hconstants : l.EncodesList l.EncodesConstant p.constants.toList constants)
    (hchildren : EncodesFunctions p.source p.children children)
    (hcount : l.FitsInt p.children.length)
    (hlines : l.EncodesList l.EncodesWord p.lines.toList lines)
    (hlocals : l.EncodesList l.EncodesLocal p.locals locals)
    (hupvalueNames : l.EncodesList (l.EncodesText "") p.upvalueNames upvalueNames) :
    EncodesFunction outerSource p
      (source ++ (lineDefined ++ (lastLine ++ ([p.upvalueCount] ++ ([p.paramCount] ++ ([p.varargFlags] ++
        ([p.stackSize] ++ (code ++ (constants ++ ((l.intBytes p.children.length ++ children.flatten) ++
          (lines ++ (locals ++ upvalueNames))))))))))))

/-- The encodings of functions next to each other inside one with some source. -/
inductive EncodesFunctions : String → List Prototype → List (List UInt8) → Prop
  | nil {source : String} : EncodesFunctions source [] []
  | cons {source : String} {p : Prototype} {ps : List Prototype} {bytes : List UInt8} {rest : List (List UInt8)}
    (hp : EncodesFunction source p bytes) (hps : EncodesFunctions source ps rest) :
    EncodesFunctions source (p :: ps) (bytes :: rest)
end

/-- Whether a constant can be encoded. -/
def FitsConstant : Constant → Prop
  | .nil | .bool _ => True
  | .int i => ∃ raw, l.Denotes raw (.int i)
  | .float bits => ∃ raw, l.Denotes raw (.float bits)
  | .str s => l.FitsText s

/-- Whether a function, apart from those inside it, fits a layout. -/
structure FitsFunction (p : Prototype) : Prop where
  source : l.FitsText p.source
  lineDefined : l.FitsInt p.lineDefined.toNat
  lastLine : l.FitsInt p.lastLine.toNat
  codeSize : l.FitsInt p.code.size
  code : ∀ i ∈ p.code, i.opcode?.isSome
  constantsSize : l.FitsInt p.constants.size
  constants : ∀ c ∈ p.constants, l.FitsConstant c
  childCount : l.FitsInt p.children.length
  linesSize : l.FitsInt p.lines.size
  lines : ∀ line ∈ p.lines, l.FitsInt line.toNat
  localCount : l.FitsInt p.locals.length
  locals : ∀ v ∈ p.locals, l.FitsText v.name ∧ l.FitsInt v.start.toNat ∧ l.FitsInt v.stop.toNat
  upvalueNameCount : l.FitsInt p.upvalueNames.length
  upvalueNames : ∀ name ∈ p.upvalueNames, l.FitsText name

/-- Whether a function and all that are in it fit a layout. -/
def Fits (p : Prototype) : Prop := ∀ q, p.Contains q → l.FitsFunction q

end Layout

end Chunk

end LuaMachine
