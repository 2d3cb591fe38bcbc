import LuaMachine.Machine.References

namespace LuaMachine.Machine

/-- How many numbers there are from `start` on in steps of `step`, as far as `stop`; none for steps of zero. -/
def runLength (start stop step : Int) : Nat :=
  if step = 0 then 0
  else if 0 < step then ((stop - start) / step + 1).toNat
  else ((start - stop) / -step + 1).toNat

/-- The entry of a number: the number or, behind a text, its digits are the key, and the number is the value if
no other is given. -/
def runEntry (front? : Option String) (value? : Option Value) (i : Int) : Value × Value :=
  let number : Value := .int (Int64.ofInt i)
  let key := match front? with
    | some front => .str (front ++ number.text)
    | none => number
  (key, value?.getD number)

/-- Stores the entries of `count` numbers from `i` on in steps of `step`; their keys are in stored form. -/
def storeRun (id : TableId) (entry : Int → Value × Value) (step : Int) : Nat → Int → Machine → Machine
  | 0, _, m => m
  | count + 1, i, m =>
    let (key, value) := entry i
    storeRun id entry step count (i + step) (m.storeKey id key value [])

/-- Stores the entries of the numbers from `start` on in steps of `step`, as far as `stop`. -/
def fill (m : Machine) (id : TableId) (start stop step : Int) (front? : Option String)
    (value? : Option Value) : Machine :=
  storeRun id (runEntry front? value?) step (runLength start stop step) start m

/-- Visits the entries of a table one after the other from behind `key`, storing `change` under each visited
key if there is one. Gives the entries seen, the last first; they are in use meanwhile. -/
def walkFrom (id : TableId) (change : Option Value) :
    Nat → Machine → Value → List (Value × Value) → Values →
      Except Table.Error (Machine × List (Value × Value))
  | 0, m, _, seen, _ => .ok (m, seen)
  | fuel + 1, m, key, seen, inUse =>
    match (m.table id).next (m.context id inUse) key with
    | .error e => .error e
    | .ok none => .ok (m, seen)
    | .ok (some (k, v)) =>
      match change with
      | none => walkFrom id change fuel m k ((k, v) :: seen) (k :: v :: inUse)
      | some new =>
        match m.rawSet id k new (v :: inUse) with
        | .error e => .error e
        | .ok m => walkFrom id change fuel m k ((k, v) :: seen) (k :: v :: inUse)

/-- Visits all entries of a table, storing `change` under each visited key if there is one. -/
def walk (m : Machine) (id : TableId) (change : Option Value) :
    Except Table.Error (Machine × List (Value × Value)) :=
  let t := m.table id
  let size := t.array.size + t.part.nodes + 1
  (walkFrom id change size m .nil [] []).map fun (m, seen) => (m, seen.reverse)

end LuaMachine.Machine
