import LuaMachine.Machine.Call

namespace LuaMachine.Machine

/-- What a native function does to the machine once its arguments have been checked. -/
abbrev Effect := Machine → Machine × Signal

/-- The function returns values and does nothing else. -/
def answer (vs : Values) : Effect := fun m => (m, .values vs)

/-- The error for an argument of the wrong type. -/
def argumentError (m : Machine) (t : ThreadId) (i : Nat) (name expected : String) (got : Value) : Error :=
  let found := if got.isNil then "no value" else got.typeName
  m.errorHere t (String.join
    ["bad argument #", Number.intText i, " to '", name, "' (", expected, " expected, got ", found, ")"])

/-- The `i`-th argument, from one, which has to be there. -/
def requireArg (m : Machine) (t : ThreadId) (args : Values) (i : Nat) (name : String) :
    Except Error Value :=
  match args[i - 1]? with
  | some v => .ok v
  | none =>
    .error (m.errorHere t (String.join
      ["bad argument #", Number.intText i, " to '", name, "' (value expected)"]))

/-- An integer argument, `fallback` when it is missing or nil; other numbers are rounded down. -/
def optionalInteger (m : Machine) (t : ThreadId) (args : Values) (i : Nat) (name : String)
    (fallback : Int64) : Except Error Int64 :=
  let v := Values.arg args (i - 1)
  if v.isNil then .ok fallback
  else match v.toInteger? with
    | some n => .ok n
    | none =>
      match v.toFloat?.bind fun x => (Binary.ofFloat x).floor? with
      | some n => .ok (Number.clampInt64 n)
      | none => .error (m.argumentError t i name "number" v)

/-- Argument `i`, which must be a table. -/
def requireTable (m : Machine) (t : ThreadId) (args : Values) (i : Nat) (name : String) :
    Except Error TableId :=
  match Values.arg args (i - 1) with
  | .table id => .ok id
  | other => .error (m.argumentError t i name "table" other)

/-- Argument `i`, which must be a thread. -/
def requireThread (m : Machine) (t : ThreadId) (args : Values) (i : Nat) (name : String) :
    Except Error ThreadId :=
  match Values.arg args (i - 1) with
  | .thread id => .ok id
  | other => .error (m.argumentError t i name "coroutine" other)

/-- The first argument, which must be a function. -/
def requireFunction (m : Machine) (t : ThreadId) (args : Values) (name : String) :
    Except Error Value := do
  let f ← m.requireArg t args 1 name
  if f.isFunction then return f else throw (m.argumentError t 1 name "function" f)

end LuaMachine.Machine
