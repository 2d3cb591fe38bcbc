import LuaMachine.Number.Text
import LuaMachine.Number.Numeral
import LuaMachine.Text.Quoted

namespace LuaMachine

/-- Names a table of the machine. -/
structure TableId where
  index : Nat
deriving DecidableEq, Repr, Inhabited

/-- Names a closure of the machine. -/
structure ClosureId where
  index : Nat
deriving DecidableEq, Repr, Inhabited

/-- Names a native function of the machine. -/
structure NativeId where
  index : Nat
deriving DecidableEq, Repr, Inhabited

/-- Names a userdata object of the machine. -/
structure UserdataId where
  index : Nat
deriving DecidableEq, Repr, Inhabited

/-- Names a thread of the machine. -/
structure ThreadId where
  index : Nat
deriving DecidableEq, Repr, Inhabited

/-- An object, compared by identity. -/
inductive Ref
  | table (id : TableId)
  | closure (id : ClosureId)
  | native (id : NativeId)
  | userdata (id : UserdataId)
  | thread (id : ThreadId)
deriving DecidableEq, Repr

/-- A value. Objects are referred to by their identifiers, so equality is identity for them. A double that equals a
64-bit integer is kept as that integer, negative zero excepted. -/
inductive Value
  | nil
  | bool (b : Bool)
  | int (i : Int64)
  | float (x : Double)
  | str (s : String)
  | table (id : TableId)
  | closure (id : ClosureId)
  | native (id : NativeId)
  | userdata (id : UserdataId)
  | thread (id : ThreadId)
deriving DecidableEq, Inhabited

/-- The kinds of values that a program can tell apart by `type`. -/
inductive Kind
  | nil | boolean | number | string | table | function | userdata | thread
deriving DecidableEq, Repr

/-- The name of a kind. -/
def Kind.name : Kind → String
  | nil => "nil"
  | boolean => "boolean"
  | number => "number"
  | string => "string"
  | table => "table"
  | function => "function"
  | userdata => "userdata"
  | thread => "thread"

/-- A place in memory that an object's text shows; different objects show different places. -/
def Ref.address : Ref → Nat
  | table id => 0x550000000000 + 80 * id.index
  | closure id => 0x550000000000 + 80 * id.index + 16
  | native id => 0x550000000000 + 80 * id.index + 32
  | userdata id => 0x550000000000 + 80 * id.index + 48
  | thread id => 0x550000000000 + 80 * id.index + 64

/-- The address in hexadecimal. -/
def Ref.addressText (r : Ref) : String := String.ofList ('0' :: 'x' :: Text.hexDigits r.address)

namespace Value

/-- The kind of a value; integers and doubles are both numbers. -/
def kind : Value → Kind
  | nil => .nil
  | bool _ => .boolean
  | int _ => .number
  | float _ => .number
  | str _ => .string
  | table _ => .table
  | closure _ => .function
  | native _ => .function
  | userdata _ => .userdata
  | thread _ => .thread

/-- The name of a value's kind. -/
def typeName (v : Value) : String := v.kind.name

/-- Whether a value is nil. -/
def isNil : Value → Bool
  | nil => true
  | _ => false

/-- Whether a value is an integer or a double. -/
def isNumber (v : Value) : Bool := v.kind = .number

/-- Whether a value is a closure or a native function. -/
def isFunction (v : Value) : Bool := v.kind = .function

/-- Everything except nil and false counts as true. -/
def isTruthy : Value → Bool
  | nil => false
  | bool b => b
  | _ => true

/-- The object that a value is, if it is one. -/
def ref? : Value → Option Ref
  | table id => some (.table id)
  | closure id => some (.closure id)
  | native id => some (.native id)
  | userdata id => some (.userdata id)
  | thread id => some (.thread id)
  | _ => none

/-- Whether the value is an object. -/
def isObject (v : Value) : Bool := v.ref?.isSome

/-- The value that an object is. -/
def ofRef : Ref → Value
  | .table id => table id
  | .closure id => closure id
  | .native id => native id
  | .userdata id => userdata id
  | .thread id => thread id

/-- The number of a double: the equal 64-bit integer if there is one, negative zero excepted. -/
def number (x : Double) : Value :=
  let exact := Binary.ofFloat x
  match exact.integer?.bind Number.int64? with
  | some i => if i = 0 ∧ exact.isNegative then float x else int i
  | none => float x

/-- The value of a numeral. -/
def ofReading : Numeral.Reading → Value
  | .int i => int i
  | .float x => number x

/-- Reads a numeral. -/
def parseNumber? (s : String) : Option Value := (Numeral.parse? s).map ofReading

/-- Reads digits of a base. -/
def parseRadix? (base : Nat) (s : String) : Option Value := (Numeral.parseRadix? base s).map ofReading

/-- The number that a value is or that its text spells. -/
def toNumber? : Value → Option Value
  | int i => some (int i)
  | float x => some (float x)
  | str s => parseNumber? s
  | _ => none

/-- The double nearest to a number. -/
def double? : Value → Option Double
  | int i => some (Number.ofInt64 i)
  | float x => some x
  | _ => none

/-- The double nearest to a number or to the number that a text spells. -/
def toFloat? (v : Value) : Option Float := (v.toNumber?.bind double?).map Double.value

/-- The integer that a value is or that its text spells; both zeros are zero. -/
def toInteger? (v : Value) : Option Int64 :=
  match v.toNumber? with
  | some (int i) => some i
  | some (float x) => if x.value == 0.0 then some 0 else none
  | _ => none

/-- The text of a string or a number. -/
def toText? : Value → Option String
  | str s => some s
  | int i => some (Number.intText i.toInt)
  | float x => some (Number.floatText x)
  | _ => none

/-- The text of any value; objects show their kind and place. -/
def text : Value → String
  | nil => "nil"
  | bool b => if b then "true" else "false"
  | int i => Number.intText i.toInt
  | float x => Number.floatText x
  | str s => s
  | table id => "table: " ++ (Ref.table id).addressText
  | closure id => "function: " ++ (Ref.closure id).addressText
  | native id => "function: " ++ (Ref.native id).addressText
  | userdata id => "userdata: " ++ (Ref.userdata id).addressText
  | thread id => "thread: " ++ (Ref.thread id).addressText

/-- The text of a value with strings in quotes. -/
def quotedText : Value → String
  | str s => Text.quoted s
  | v => v.text

/-- Equality without metamethods: numbers by value, objects by identity. -/
def rawEqual : Value → Value → Bool
  | nil, nil => true
  | bool a, bool b => a == b
  | int i, int j => i == j
  | float x, float y => x.value == y.value
  | int i, float x => Number.ofInt64 i == x.value
  | float x, int i => Number.ofInt64 i == x.value
  | str s, str t => s == t
  | table a, table b => a = b
  | closure a, closure b => a = b
  | native a, native b => a = b
  | userdata a, userdata b => a = b
  | thread a, thread b => a = b
  | _, _ => false

/-- A number is canonical when no 64-bit integer equals it but is not it, negative zero excepted. -/
def IsCanonical (v : Value) : Prop :=
  ∀ x, v = float x → number x = float x

end Value

end LuaMachine
