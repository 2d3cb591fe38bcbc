import LuaMachine.Json.Basic
import LuaMachine.External
import LuaMachine.Machine.References

namespace LuaMachine.Json

/-- The key of the object that stands for a named object. -/
def markerKey : String := "$external"

/-- Why a value has no JSON form, or JSON no value. -/
inductive BridgeError
  | circular
  | invalidNumber (x : Double)
  | unsupported (kind : Kind)
  | unknownExternal (name : String)
deriving DecidableEq

/-- The reason in words. -/
def BridgeError.message : BridgeError → String
  | circular => "Circular reference detected in table"
  | invalidNumber x => "Invalid number: " ++ Number.floatText x
  | unsupported kind => "Cannot serialize Lua " ++ kind.name ++ " to JSON"
  | unknownExternal name => "Unknown external reference '" ++ name ++ "'"

/-- Whether a double has a JSON form. -/
def isFinite (x : Float) : Bool :=
  match Binary.ofFloat x with
  | .finite .. => true
  | _ => false

/-- Whether all keys are positive integers and as many as the border says. -/
def isSequence (entries : List (Value × Value)) (border : Nat) : Bool :=
  (entries.all fun
    | (.int i, _) => 1 ≤ i
    | _ => false) && entries.length = border

/-- The member name of a key; none for keys that have no text. -/
def memberName? : Value → Option String
  | .str s => some s
  | .int i => some (Value.int i).text
  | .float x => some (Value.float x).text
  | .bool b => some (Value.bool b).text
  | _ => none

/-- A value as JSON, inside the tables in `path`; tables nest at most `fuel` deep. -/
def ofValueWithin (m : Machine) (names? : Option ExternalNames) :
    Nat → List TableId → Value → Except BridgeError Json
  | fuel, path, v =>
    match names?.bind fun names => names.nameOf? v with
    | some name => .ok (.obj [(markerKey, .str name)])
    | none =>
      match v with
      | .nil => .ok .null
      | .bool b => .ok (.bool b)
      | .int i => .ok (.int i.toInt)
      | .float x => if isFinite x then .ok (.float x) else .error (.invalidNumber x)
      | .str s => .ok (.str s)
      | .table id =>
        match fuel with
        | 0 => .error .circular
        | fuel + 1 =>
          if path.contains id then .error .circular
          else
            let ctx := m.context id []
            let table := m.table id
            let entries := table.entries ctx
            let border := table.length ctx
            if isSequence entries border then do
              let items ← (List.range border).mapM fun i =>
                ofValueWithin m names? fuel (id :: path) (table.getInt ctx (Int64.ofNat (i + 1)))
              return .arr items
            else do
              let named := entries.filterMap fun (k, v) => (memberName? k).map fun name => (name, v)
              let members ← named.mapM fun (name, v) => do
                return (name, ← ofValueWithin m names? fuel (id :: path) v)
              return ofMembers members
      | v => .error (.unsupported v.kind)

/-- A value as JSON; without names, no object has a marker. -/
def ofValue (m : Machine) (names? : Option ExternalNames) (v : Value) : Except BridgeError Json :=
  ofValueWithin m names? (m.tables.size + 1) [] v

/-- The name in a marker. -/
def marker? : List (String × Json) → Option String
  | [(key, .str name)] => if key = markerKey then some name else none
  | _ => none

mutual
/-- The value of JSON data, with new tables for containers. Markers are resolved if there are names. -/
def toValue (names? : Option ExternalNames) (m : Machine) : Json → Except BridgeError (Machine × Value)
  | null => .ok (m, .nil)
  | bool b => .ok (m, .bool b)
  | int i =>
    match Number.int64? i with
    | some i => .ok (m, .int i)
    | none => .ok (m, .number (Float.ofInt i))
  | float x => .ok (m, .number x)
  | str s => .ok (m, .str s)
  | arr items => do
    let (m, t) ← fillItems names? m (Table.new items.length 0) 1 items
    let (m, id) := m.addTable t
    return (m, .table id)
  | obj members =>
    match names?, marker? members with
    | some names, some name =>
      match names.resolve? name with
      | some v => .ok (m, v)
      | none => .error (.unknownExternal name)
    | _, _ => do
      let (m, t) ← fillMembers names? m (Table.new 0 members.length) members
      let (m, id) := m.addTable t
      return (m, .table id)

/-- Stores items from index `i` on. -/
def fillItems (names? : Option ExternalNames) (m : Machine) (t : Table) (i : Nat) :
    List Json → Except BridgeError (Machine × Table)
  | [] => .ok (m, t)
  | item :: rest => do
    let (m, v) ← toValue names? m item
    fillItems names? m (t.setInt (.strong m.hash) (Int64.ofNat i) v) (i + 1) rest

/-- Stores members under their names. -/
def fillMembers (names? : Option ExternalNames) (m : Machine) (t : Table) :
    List (String × Json) → Except BridgeError (Machine × Table)
  | [] => .ok (m, t)
  | (key, item) :: rest => do
    let (m, v) ← toValue names? m item
    fillMembers names? m (t.setStr (.strong m.hash) key v) rest
end

end LuaMachine.Json
