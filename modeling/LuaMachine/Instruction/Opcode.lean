namespace LuaMachine

/-- How the 26 bits above the operation and its first operand are read. -/
inductive Mode
  | abc | abx | asbx
deriving DecidableEq, Repr

/-- The operations. -/
inductive Opcode
  | move | loadK | loadBool | loadNil | getUpval | getGlobal | getTable | setGlobal | setUpval
  | setTable | newTable | self | add | sub | mul | div | mod | pow | unm | not | len | concat | jmp
  | eq | lt | le | test | testSet | call | tailCall | ret | forLoop | forPrep | tForLoop | setList
  | close | closure | varArg
deriving DecidableEq, Repr

namespace Opcode

/-- All operations in the order of their numbers. -/
def all : List Opcode :=
  [move, loadK, loadBool, loadNil, getUpval, getGlobal, getTable, setGlobal, setUpval, setTable,
    newTable, self, add, sub, mul, div, mod, pow, unm, not, len, concat, jmp, eq, lt, le, test,
    testSet, call, tailCall, ret, forLoop, forPrep, tForLoop, setList, close, closure, varArg]

/-- The number that encodes an operation. -/
def toNat : Opcode → Nat
  | move => 0 | loadK => 1 | loadBool => 2 | loadNil => 3 | getUpval => 4 | getGlobal => 5
  | getTable => 6 | setGlobal => 7 | setUpval => 8 | setTable => 9 | newTable => 10 | self => 11
  | add => 12 | sub => 13 | mul => 14 | div => 15 | mod => 16 | pow => 17 | unm => 18 | not => 19
  | len => 20 | concat => 21 | jmp => 22 | eq => 23 | lt => 24 | le => 25 | test => 26
  | testSet => 27 | call => 28 | tailCall => 29 | ret => 30 | forLoop => 31 | forPrep => 32
  | tForLoop => 33 | setList => 34 | close => 35 | closure => 36 | varArg => 37

/-- The operation with a number, if the number is one of the 38. -/
def ofNat? (n : Nat) : Option Opcode :=
  match n with
  | 0 => some move | 1 => some loadK | 2 => some loadBool | 3 => some loadNil
  | 4 => some getUpval | 5 => some getGlobal | 6 => some getTable | 7 => some setGlobal
  | 8 => some setUpval | 9 => some setTable | 10 => some newTable | 11 => some self
  | 12 => some add | 13 => some sub | 14 => some mul | 15 => some div | 16 => some mod
  | 17 => some pow | 18 => some unm | 19 => some not | 20 => some len | 21 => some concat
  | 22 => some jmp | 23 => some eq | 24 => some lt | 25 => some le | 26 => some test
  | 27 => some testSet | 28 => some call | 29 => some tailCall | 30 => some ret
  | 31 => some forLoop | 32 => some forPrep | 33 => some tForLoop | 34 => some setList
  | 35 => some close | 36 => some closure | 37 => some varArg
  | _ => none

/-- How an operation reads its operands. -/
def mode : Opcode → Mode
  | loadK | getGlobal | setGlobal | closure => .abx
  | jmp | forLoop | forPrep => .asbx
  | _ => .abc

/-- The name of an operation in listings. -/
def name : Opcode → String
  | move => "MOVE" | loadK => "LOADK" | loadBool => "LOADBOOL" | loadNil => "LOADNIL"
  | getUpval => "GETUPVAL" | getGlobal => "GETGLOBAL" | getTable => "GETTABLE"
  | setGlobal => "SETGLOBAL" | setUpval => "SETUPVAL" | setTable => "SETTABLE"
  | newTable => "NEWTABLE" | self => "SELF" | add => "ADD" | sub => "SUB" | mul => "MUL"
  | div => "DIV" | mod => "MOD" | pow => "POW" | unm => "UNM" | not => "NOT" | len => "LEN"
  | concat => "CONCAT" | jmp => "JMP" | eq => "EQ" | lt => "LT" | le => "LE" | test => "TEST"
  | testSet => "TESTSET" | call => "CALL" | tailCall => "TAILCALL" | ret => "RETURN"
  | forLoop => "FORLOOP" | forPrep => "FORPREP" | tForLoop => "TFORLOOP" | setList => "SETLIST"
  | close => "CLOSE" | closure => "CLOSURE" | varArg => "VARARG"

/-- The operation with a name in listings. -/
def ofName? (s : String) : Option Opcode := all.find? (·.name == s)

end Opcode

/-- The name of an operand format. -/
def Mode.name : Mode → String
  | abc => "IABC"
  | abx => "IABx"
  | asbx => "IAsBx"

end LuaMachine
