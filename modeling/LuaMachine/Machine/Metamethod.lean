import LuaMachine.Machine.Frames
import LuaMachine.Arithmetic

namespace LuaMachine

/-- A call that settles an operation: a function, its arguments and how its results are read. The values in
`held` are kept alive meanwhile. -/
structure Handler where
  function : Value
  args : Values
  reading : Reading
  held : Values := []
deriving DecidableEq

/-- How an operation goes: done, failed, or left to a handler. -/
inductive Attempt
  | done (vs : Values)
  | fail (e : Error)
  | handler (h : Handler)
deriving DecidableEq

namespace Machine

/-- The metatable of a value: its own for tables and userdata, a common one for texts. -/
def metatable? (m : Machine) : Value → Option TableId
  | .table id => (m.table id).metatable
  | .userdata id => (m.userdatum id).metatable
  | .str _ => m.stringMetatable
  | _ => none

/-- The handler of an event, nil if there is none. The value and those in `inUse` exist meanwhile. -/
def metamethod (m : Machine) (v : Value) (event : String) (inUse : Values) : Value :=
  match m.metatable? v with
  | some id => m.getStr id event (v :: inUse)
  | none => .nil

/-- How the failing instruction refers to a value, if it does. -/
def nameOf? (m : Machine) (t : ThreadId) (v : Value) : Option (NameKind × String) :=
  match m.topFrame? t with
  | none => none
  | some top =>
    if top.pc = 0 then none
    else match top.proto.code[top.pc - 1]? with
      | none => none
      | some i =>
        let registers := m.file top.file
        let holding := (Prototype.failingRegisters i).find? fun r =>
          (registers[r]?.map fun held => held.rawEqual v).getD false
        holding.bind fun r => top.proto.registerName? (top.pc - 1) r

/-- The error for an operation on a value of the wrong type. -/
def typeError (m : Machine) (t : ThreadId) (v : Value) (action : String) : Error :=
  match m.nameOf? t v with
  | some (kind, name) =>
    m.errorHere t (String.join
      ["attempt to ", action, " ", kind.word, " '", name, "' (a ", v.typeName, " value)"])
  | none => m.errorHere t (String.join ["attempt to ", action, " a ", v.typeName, " value"])

/-- The error for values that have no order. -/
def orderError (m : Machine) (t : ThreadId) (a b : Value) : Error :=
  let x := a.typeName
  let y := b.typeName
  m.errorHere t
    (if x == y then String.join ["attempt to compare two ", x, " values"]
     else String.join ["attempt to compare ", x, " with ", y])

/-- Follows handlers of an index that are not functions, at most `fuel` of them. -/
def indexFrom (m : Machine) (t : ThreadId) (obj key : Value) : Nat → Value → Attempt
  | 0, _ => .fail (m.errorHere t "loop in gettable")
  | fuel + 1, current =>
    let own := match current with
      | .table id => m.rawGet id key [obj, key]
      | _ => .nil
    if !own.isNil then .done [own]
    else
      let handler := m.metamethod current "__index" [obj, key]
      if handler.isFunction then .handler ⟨handler, [current, key], .first, [obj, key]⟩
      else if !handler.isNil then indexFrom m t obj key fuel handler
      else if current.kind = .table then .done [.nil]
      else .fail (m.typeError t current "index")

/-- `obj[key]`. -/
def index (m : Machine) (t : ThreadId) (obj key : Value) : Attempt :=
  m.indexFrom t obj key Limits.handlerChain obj

/-- Whether a value is a table with an entry of its own for a key. -/
def hasEntry (m : Machine) (v key : Value) (inUse : Values) : Bool :=
  match v with
  | .table id => !(m.rawGet id key inUse).isNil
  | _ => false

/-- Follows handlers of an assignment that are not functions, at most `fuel` of them. -/
def setIndexFrom (m : Machine) (t : ThreadId) (obj key value : Value) : Nat → Value → Machine × Attempt
  | 0, _ => (m, .fail (m.errorHere t "loop in settable"))
  | fuel + 1, current =>
    let inUse := [obj, key, value]
    let handler := m.metamethod current "__newindex" inUse
    let handler := if handler.isNil || m.hasEntry current key inUse then .nil else handler
    if handler.isFunction then (m, .handler ⟨handler, [current, key, value], .nothing, [obj, key]⟩)
    else if !handler.isNil then setIndexFrom m t obj key value fuel handler
    else match current with
      | .table id =>
        match Table.normalizeKey key with
        | .ok key => (m.storeKey id key value inUse, .done [])
        | .error e => (m, .fail (m.errorHere t e.message))
      | _ => (m, .fail (m.typeError t current "index"))

/-- `obj[key] = value`. -/
def setIndex (m : Machine) (t : ThreadId) (obj key value : Value) : Machine × Attempt :=
  m.setIndexFrom t obj key value Limits.handlerChain obj

/-- Arithmetic; a handler of the first operand wins over one of the second. -/
def arith (m : Machine) (t : ThreadId) (op : ArithOp) (a b : Value) : Attempt :=
  match Arithmetic.raw? op a b with
  | some v => .done [v]
  | none =>
    let first := m.metamethod a op.event [b]
    let handler := if first.isNil then m.metamethod b op.event [a] else first
    if handler.isNil then
      .fail (m.typeError t (if a.toNumber?.isSome then b else a) "perform arithmetic on")
    else .handler ⟨handler, [a, b], .first, [a, b]⟩

/-- `#v`: bytes of a text, a border of a table. -/
def lengthOf (m : Machine) (t : ThreadId) (v : Value) : Attempt :=
  match v with
  | .str s => .done [.int (Int64.ofNat s.utf8ByteSize)]
  | .table id => .done [.int (Int64.ofNat ((m.table id).length (m.context id [])))]
  | _ =>
    let handler := m.metamethod v "__len" []
    if handler.isNil then .fail (m.typeError t v "get length of")
    else .handler ⟨handler, [v, v], .first, [v]⟩

/-- `a == b`; two tables or two userdata with one handler may be equal without being the same. The metatable
that the handler comes from is kept. -/
def equal (m : Machine) (a b : Value) : Attempt :=
  let no : Attempt := .done [.bool false]
  let comparable := match a, b with
    | .table _, .table _ => true
    | .userdata _, .userdata _ => true
    | _, _ => false
  if a.rawEqual b then .done [.bool true]
  else if !comparable then no
  else match m.metatable? a with
    | none => no
    | some first =>
      let handler := m.getStr first "__eq" [a, b]
      if handler.isNil then no
      else
        let agreed := match m.metatable? b with
          | some second => second = first || handler.rawEqual (m.getStr second "__eq" [a, b])
          | none => false
        if agreed then .handler ⟨handler, [a, b], .truth, [a, b, .table first]⟩ else no

/-- The handler of an event that both operands share. -/
def sharedHandler? (m : Machine) (a b : Value) (event : String) : Option Value :=
  let first := m.metamethod a event [b]
  if first.isNil then none
  else if first.rawEqual (m.metamethod b event [a]) then some first else none

/-- `a < b`. -/
def lessThan (m : Machine) (t : ThreadId) (a b : Value) : Attempt :=
  match Arithmetic.ordered? false a b with
  | some answer => .done [.bool answer]
  | none =>
    if a.kind = b.kind then
      match m.sharedHandler? a b "__lt" with
      | some handler => .handler ⟨handler, [a, b], .truth, [a, b]⟩
      | none => .fail (m.orderError t a b)
    else .fail (m.orderError t a b)

/-- `a <= b`, which may be left to `not (b < a)`. -/
def lessEqual (m : Machine) (t : ThreadId) (a b : Value) : Attempt :=
  match Arithmetic.ordered? true a b with
  | some answer => .done [.bool answer]
  | none =>
    if a.kind = b.kind then
      match m.sharedHandler? a b "__le" with
      | some handler => .handler ⟨handler, [a, b], .truth, [a, b]⟩
      | none =>
        match m.sharedHandler? b a "__lt" with
        | some handler => .handler ⟨handler, [b, a], .falsity, [a, b]⟩
        | none => .fail (m.orderError t a b)
    else .fail (m.orderError t a b)

/-- The text of a value as programs see it. The values in `inUse` exist meanwhile. -/
def toText (m : Machine) (v : Value) (inUse : Values) : Attempt :=
  let handler := m.metamethod v "__tostring" inUse
  if handler.isNil then .done [.str v.text] else .handler ⟨handler, [v], .first, [v]⟩

/-- How a concatenation goes: done, failed, or left to a handler for the last two values, with the values
before them still to be joined. -/
inductive Joining
  | done (v : Value)
  | fail (e : Error)
  | handler (h : Handler) (left : Values)

/-- Joins values, the last one first in the list; a run of texts and numbers is joined in one go. -/
def joinFrom (m : Machine) (t : ThreadId) (inUse : Values) : Nat → Values → Joining
  | _, [] => .done (.str "")
  | _, [v] => .done v
  | 0, _ => .done .nil
  | fuel + 1, b :: a :: rest =>
    match a.toText?, b.toText? with
    | some _, some _ =>
      let all := b :: a :: rest
      let run := all.takeWhile fun v => v.toText?.isSome
      let text := String.join (run.reverse.filterMap Value.toText?)
      joinFrom m t inUse fuel (.str text :: all.drop run.length)
    | first, _ =>
      let held := b :: a :: rest
      let firstHandler := m.metamethod a "__concat" (held ++ inUse)
      let handler := if firstHandler.isNil then m.metamethod b "__concat" (held ++ inUse) else firstHandler
      if handler.isNil then .fail (m.typeError t (if first.isSome then b else a) "concatenate")
      else .handler ⟨handler, [a, b], .first, held⟩ rest

/-- Joins values, the last one first in the list. The values in `inUse` exist meanwhile. -/
def join (m : Machine) (t : ThreadId) (reversed inUse : Values) : Joining :=
  m.joinFrom t inUse reversed.length reversed

end Machine

end LuaMachine
