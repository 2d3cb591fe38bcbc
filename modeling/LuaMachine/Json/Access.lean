import LuaMachine.Json.Basic

namespace LuaMachine.Json

/-- The member with a key. -/
def get? (j : Json) (key : String) : Option Json :=
  match j with
  | obj members => members.lookup key
  | _ => none

/-- The member with a key, null if there is none. -/
def get (j : Json) (key : String) : Json := (j.get? key).getD null

/-- The integer, else zero. -/
def toInt : Json → Int
  | int i => i
  | _ => 0

/-- The integer, zero if it is negative. -/
def toNat (j : Json) : Nat := j.toInt.toNat

/-- The text, else the empty one. -/
def toText : Json → String
  | str s => s
  | _ => ""

/-- The items of an array, else none. -/
def toList : Json → List Json
  | arr items => items
  | _ => []

/-- Whether the data is `true`. -/
def toBool : Json → Bool
  | bool b => b
  | _ => false

/-- A natural number as data. -/
def ofNat (n : Nat) : Json := int n

/-- Null for a missing value. -/
def ofOption (f : α → Json) : Option α → Json
  | some x => f x
  | none => null

end LuaMachine.Json
