import LuaMachine.Builtin

namespace LuaMachine

namespace ArithOp

/-- The event that a metatable handles the operation under. -/
def event : ArithOp → String
  | add => "__add"
  | sub => "__sub"
  | mul => "__mul"
  | div => "__div"
  | mod => "__mod"
  | pow => "__pow"
  | unm => "__unm"

/-- The operation with a short name. -/
def ofName? : String → Option ArithOp
  | "add" => some add
  | "sub" => some sub
  | "mul" => some mul
  | "div" => some div
  | "mod" => some mod
  | "pow" => some pow
  | "unm" => some unm
  | _ => none

end ArithOp

namespace Arithmetic

/-- The remainder that goes with the floored quotient. -/
def floorMod (x y : Float) : Float := x - Number.floor (x / y) * y

/-- Whether a remainder lies on the other side of zero than the divisor. -/
@[inline]
def isAcross (remainder divisor : Int64) : Bool := remainder != 0 && remainder ^^^ divisor < 0

/-- The remainder that goes with the floored quotient of integers: that of the truncated quotient, moved by the divisor
if it lies across zero. -/
@[inline]
def floorModInts (x y : Int64) : Int64 :=
  let remainder := x % y
  if isAcross remainder y then remainder + y else remainder

/-- An integer result if it fits, else the double one. -/
@[inline]
def fitted (exact : Int) (rounded : Float) : Value :=
  match Number.int64? exact with
  | some i => .int i
  | none => .number rounded

/-- An operation on integers. -/
def onInts (op : ArithOp) (x y : Int64) : Value :=
  let double := Number.ofInt64
  match op with
  | .add => fitted (x.toInt + y.toInt) (double x + double y)
  | .sub => fitted (x.toInt - y.toInt) (double x - double y)
  | .mul => fitted (x.toInt * y.toInt) (double x * double y)
  | .div => .number (double x / double y)
  | .mod => if y = 0 then .number (floorMod (double x) 0.0) else .int (floorModInts x y)
  | .pow => .number (Float.pow (double x) (double y))
  | .unm => if x = 0 then .float (-0.0) else fitted (-x.toInt) (-double x)

/-- An operation on doubles. -/
def onDoubles (op : ArithOp) (x y : Double) : Value :=
  .number (match op with
    | .add => .ofFloat (x.value + y.value)
    | .sub => .ofFloat (x.value - y.value)
    | .mul => .ofFloat (x.value * y.value)
    | .div => .ofFloat (x.value / y.value)
    | .mod => .ofFloat (floorMod x y)
    | .pow => .ofFloat (Float.pow x y)
    | .unm => -x)

/-- The result of an operation; none if an operand is neither a number nor spells one. -/
def raw? (op : ArithOp) (a b : Value) : Option Value :=
  match a.toNumber?, b.toNumber? with
  | some (.int x), some (.int y) => some (onInts op x y)
  | some a, some b =>
    match a.double?, b.double? with
    | some x, some y => some (onDoubles op x y)
    | _, _ => none
  | _, _ => none

/-- One step of a numeric loop in doubles; a value that is no number counts as NaN, which ends the loop. -/
def forStepInDoubles (index limit step : Value) : Value × Bool :=
  let nan : Float := 0.0 / 0.0
  let i := index.toFloat?.getD nan
  let lim := limit.toFloat?.getD nan
  let s := step.toFloat?.getD nan
  let next := i + s
  (.number next, if 0.0 < s then next ≤ lim else lim ≤ next)

/-- One step of a numeric loop: the next index, and whether the loop goes on with it. -/
def forStep (index limit step : Value) : Value × Bool :=
  match index, limit, step with
  | .int i, .int lim, .int s =>
    match Number.int64? (i.toInt + s.toInt) with
    | some next => (.int next, if 0 < s then next ≤ lim else lim ≤ next)
    | none => forStepInDoubles index limit step
  | _, _, _ => forStepInDoubles index limit step

/-- Whether a number or text comes before another one, or is equal to it if `orEqual`; none for other
values and for mixed ones. -/
def ordered? (orEqual : Bool) (a b : Value) : Option Bool :=
  match a, b with
  | .int x, .int y => some (if orEqual then x ≤ y else x < y)
  | .str s, .str t => some (if orEqual then s ≤ t else s < t)
  | a, b =>
    match a.double?, b.double? with
    | some x, some y => some (if orEqual then x.value ≤ y.value else x.value < y.value)
    | _, _ => none

end Arithmetic

end LuaMachine
