import LuaMachine.Prototype.Constant
import LuaMachine.Instruction.Basic

namespace LuaMachine

/-- A local variable, alive from instruction `start` up to `stop`. -/
structure LocalVariable where
  name : String
  start : UInt32
  stop : UInt32
deriving DecidableEq, Repr, Inhabited

/-- A compiled function. The lines run parallel to the code. -/
structure Prototype where
  source : String := ""
  lineDefined : UInt32 := 0
  lastLine : UInt32 := 0
  upvalueCount : UInt8 := 0
  paramCount : UInt8 := 0
  varargFlags : UInt8 := 0
  stackSize : UInt8 := 0
  code : Array Instruction := #[]
  constants : Array Constant := #[]
  children : List Prototype := []
  lines : Array UInt32 := #[]
  locals : List LocalVariable := []
  upvalueNames : List String := []
deriving Inhabited

namespace Prototype

/-- Whether surplus arguments are kept. -/
def isVararg (p : Prototype) : Bool := p.varargFlags &&& 2 != 0

/-- Whether surplus arguments are also put into a table. -/
def needsArgTable (p : Prototype) : Bool := p.varargFlags &&& 4 != 0

/-- The source line of an instruction, if line information was kept. -/
def lineAt? (p : Prototype) (pc : Nat) : Option UInt32 := p.lines[pc]?

/-- The value of a constant, nil beyond the last one. -/
def constant (p : Prototype) (i : Nat) : Value := (p.constants[i]?.map Constant.value).getD .nil

/-- The `n`-th variable, from one, that is alive at `pc`; variables are in order of their start. -/
def activeLocal? : List LocalVariable → Nat → Nat → Option String
  | [], _, _ => none
  | v :: rest, n, pc =>
    if pc < v.start.toNat then none
    else if pc < v.stop.toNat then
      if n = 1 then some v.name else activeLocal? rest (n - 1) pc
    else activeLocal? rest n pc

/-- The name of the `n`-th active local variable, counted from one. -/
def localName? (p : Prototype) (n pc : Nat) : Option String :=
  if n = 0 then none else activeLocal? p.locals n pc

/-- The most characters that a source name shows. -/
def sourceNameLimit : Nat := 59

/-- A text up to its first line break. -/
def firstLine (cs : List Char) : List Char :=
  let line := cs.takeWhile (· != '\n')
  if line.length < cs.length && line.getLast? == some '\r' then line.dropLast else line

/-- The short source name in positions: a name after `=`, the end of a path after `@`, the first line of
a program text in brackets, or a question mark. -/
def sourceName (p : Prototype) : String :=
  match p.source.toList with
  | [] => "?"
  | '=' :: rest => String.ofList (rest.take sourceNameLimit)
  | '@' :: path =>
    if path.length ≤ sourceNameLimit then String.ofList path
    else "..." ++ String.ofList (path.drop (path.length - (sourceNameLimit - 3)))
  | text =>
    let first := firstLine text
    let room := sourceNameLimit - 14
    if first.length < text.length ∨ room < first.length then
      "[string \"" ++ String.ofList (first.take room) ++ "...\"]"
    else "[string \"" ++ String.ofList first ++ "\"]"

/-- The text of a closure of this prototype in quoted form. -/
def describe (p : Prototype) : String :=
  "function <" ++ p.sourceName ++ ":" ++ Number.intText p.lineDefined.toNat ++ ">"

end Prototype

end LuaMachine
