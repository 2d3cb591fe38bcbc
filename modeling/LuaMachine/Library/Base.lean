import LuaMachine.Library.Arguments

namespace LuaMachine

/-- The name of a base function. -/
def BaseFunction.name : BaseFunction → String
  | assert => "assert"
  | error => "error"
  | pcall => "pcall"
  | next => "next"
  | pairs => "pairs"
  | ipairs => "ipairs"
  | ipairsNext => "ipairs_next"
  | select => "select"
  | type => "type"
  | tostring => "tostring"
  | tonumber => "tonumber"
  | rawget => "rawget"
  | rawset => "rawset"
  | rawequal => "rawequal"
  | setmetatable => "setmetatable"
  | getmetatable => "getmetatable"
  | unpack => "unpack"
  | print => "print"

namespace Machine

/-- A new object for a base function. -/
def newBase (m : Machine) (f : BaseFunction) : Machine × Value :=
  let (m, id) := m.addNative ⟨f.name, .base f⟩
  (m, .native id)

/-- Goes on to print arguments, of which those in the last list are left: it shows values that have no handler
for their text up to one that has. The line is done at the end. -/
def continuePrint (m : Machine) (t : ThreadId) (args : Values) (shown : List String) :
    Values → Machine × Signal
  | [] =>
    let line := String.intercalate "\t" shown.reverse
    ({ m with printed := line :: m.printed }, .values [])
  | v :: rest =>
    match m.toText v args with
    | .handler h => (m.push (.print t shown args)).callHandler t h []
    | .fail e => (m, .error e)
    | .done vs => continuePrint m t args (vs.first.text :: shown) rest

/-- `assert(v, message)`. -/
def baseAssert (m : Machine) (t : ThreadId) (args : Values) : Except Error Effect := do
  let condition ← m.requireArg t args 1 "assert"
  if condition.isTruthy then return answer args
  else
    let message := Values.arg args 1
    if message.isNil then throw (.ofText "assertion failed!")
    else match message.toText? with
      | some s => throw (.ofText s)
      | none => throw (m.argumentError t 2 "assert" "string" message)

/-- `error(message, level)`: a text gets the position of the function `level` frames down. -/
def baseError (m : Machine) (t : ThreadId) (args : Values) : Except Error Effect := do
  let level ← m.optionalInteger t args 2 "error" 1
  match Values.arg args 0 with
  | .str s =>
    if 0 < level then throw (.ofText ((m.thread t).position level.toInt.toNat ++ s))
    else throw (.ofText s)
  | v => throw (.ofValue v)

/-- `next(table, key)`. -/
def baseNext (m : Machine) (t : ThreadId) (args : Values) : Except Error Effect := do
  let id ← m.requireTable t args 1 "next"
  match (m.table id).next (m.context id args) (Values.arg args 1) with
  | .ok (some (k, v)) => return answer [k, v]
  | .ok none => return answer [.nil]
  | .error e => throw (m.errorHere t e.message)

/-- `ipairs`'s iterator. -/
def baseIpairsNext (m : Machine) (t : ThreadId) (args : Values) : Except Error Effect := do
  let id ← m.requireTable t args 1 "ipairs"
  let i := (← m.optionalInteger t args 2 "ipairs" 0) + 1
  let v := m.rawGet id (.int i) args
  return answer (if v.isNil then [] else [.int i, v])

/-- `select(n, ...)`. -/
def baseSelect (m : Machine) (t : ThreadId) (args : Values) : Except Error Effect := do
  let selector ← m.requireArg t args 1 "select"
  let count : Int := args.length
  if selector = .str "#" then return answer [.int (Int64.ofInt (count - 1))]
  else match selector.toInteger? with
    | none => throw (m.argumentError t 1 "select" "number" selector)
    | some n =>
      let n := n.toInt
      let n := if n < 0 then n + count else min n count
      if n < 1 then throw (m.errorHere t "bad argument #1 to 'select' (index out of range)")
      else return answer (args.drop n.toNat)

/-- `tonumber(v, base)`. -/
def baseTonumber (m : Machine) (t : ThreadId) (args : Values) : Except Error Effect := do
  let v ← m.requireArg t args 1 "tonumber"
  let base := (← m.optionalInteger t args 2 "tonumber" 10).toInt
  if base = 10 then return answer [v.toNumber?.getD .nil]
  else if base < 2 ∨ 36 < base then
    throw (m.errorHere t "bad argument #2 to 'tonumber' (base out of range)")
  else match v.toText? with
    | some s => return answer [(Value.parseRadix? base.toNat s).getD .nil]
    | none => throw (m.argumentError t 1 "tonumber" "string" v)

/-- `rawset(table, key, value)`. -/
def baseRawset (m : Machine) (t : ThreadId) (args : Values) : Except Error Effect := do
  let id ← m.requireTable t args 1 "rawset"
  let key ← m.requireArg t args 2 "rawset"
  let value ← m.requireArg t args 3 "rawset"
  match Table.normalizeKey key with
  | .ok key => return fun m => (m.storeKey id key value args, .values [.table id])
  | .error e => throw (m.errorHere t e.message)

/-- Installs or removes the metatable of a table, with the weak mode that it asks for. -/
def setMetatable (m : Machine) (id : TableId) (metatable : Option TableId) (inUse : Values) : Machine :=
  let mode := match metatable with
    | some mt => (m.table mt).requestedMode (m.context mt inUse)
    | none => .strong
  m.installMetatable id metatable mode (metatable.toList.map .table ++ inUse)

/-- `setmetatable(table, metatable)`. -/
def baseSetmetatable (m : Machine) (t : ThreadId) (args : Values) : Except Error Effect := do
  let id ← m.requireTable t args 1 "setmetatable"
  let metatable ← match Values.arg args 1 with
    | .nil => pure none
    | .table mt => pure (some mt)
    | _ => throw (m.errorHere t "bad argument #2 to 'setmetatable' (nil or table expected)")
  match (m.table id).metatable with
  | some old =>
    if (m.getStr old "__metatable" args).isNil then
      return fun m => (m.setMetatable id metatable args, .values [.table id])
    else throw (m.errorHere t "cannot change a protected metatable")
  | none => return fun m => (m.setMetatable id metatable args, .values [.table id])

/-- `getmetatable(v)`. -/
def baseGetmetatable (m : Machine) (t : ThreadId) (args : Values) : Except Error Effect := do
  let v ← m.requireArg t args 1 "getmetatable"
  match m.metatable? v with
  | none => return answer [.nil]
  | some mt =>
    let shown := m.getStr mt "__metatable" args
    return answer [if shown.isNil then .table mt else shown]

/-- `unpack(list, i, j)`. -/
def baseUnpack (m : Machine) (t : ThreadId) (args : Values) : Except Error Effect := do
  let id ← m.requireTable t args 1 "unpack"
  let i ← m.optionalInteger t args 2 "unpack" 1
  let table := m.table id
  let ctx := m.context id args
  let j ←
    if (Values.arg args 2).isNil then pure (table.length ctx : Int)
    else (m.optionalInteger t args 3 "unpack" 0).map Int64.toInt
  let i := i.toInt
  if j < i then return answer []
  else if Limits.unpack ≤ j - i + 1 then throw (m.errorHere t "too many results to unpack")
  else
    let keys := (List.range (j - i + 1).toNat).map fun (n : Nat) => Int64.ofInt (i + n)
    return answer (keys.map fun k => table.getInt ctx k)

/-- What a base function does. -/
def base (m : Machine) (t : ThreadId) (f : BaseFunction) (args : Values) : Except Error Effect := do
  match f with
  | .assert => m.baseAssert t args
  | .error => m.baseError t args
  | .pcall =>
    let f ← m.requireArg t args 1 "pcall"
    return fun m => (m.push .protect).beginCall t f (args.drop 1) []
  | .next => m.baseNext t args
  | .pairs =>
    let id ← m.requireTable t args 1 "pairs"
    return fun m =>
      let (m, next) := m.newBase .next
      (m, .values [next, .table id, .nil])
  | .ipairs =>
    let id ← m.requireTable t args 1 "ipairs"
    return fun m =>
      let (m, next) := m.newBase .ipairsNext
      (m, .values [next, .table id, .int 0])
  | .ipairsNext => m.baseIpairsNext t args
  | .select => m.baseSelect t args
  | .type => return answer [.str (← m.requireArg t args 1 "type").typeName]
  | .tostring =>
    let v ← m.requireArg t args 1 "tostring"
    return fun m => m.attempt t (m.toText v []) args
  | .tonumber => m.baseTonumber t args
  | .rawget =>
    let id ← m.requireTable t args 1 "rawget"
    let key ← m.requireArg t args 2 "rawget"
    return answer [m.rawGet id key args]
  | .rawset => m.baseRawset t args
  | .rawequal =>
    let a ← m.requireArg t args 1 "rawequal"
    let b ← m.requireArg t args 2 "rawequal"
    return answer [.bool (a.rawEqual b)]
  | .setmetatable => m.baseSetmetatable t args
  | .getmetatable => m.baseGetmetatable t args
  | .unpack => m.baseUnpack t args
  | .print => return fun m => m.continuePrint t args [] args

end Machine

end LuaMachine
