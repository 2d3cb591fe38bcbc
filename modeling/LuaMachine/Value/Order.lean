import LuaMachine.Value.Basic

namespace LuaMachine

/-- The total order of doubles, negative zero below zero, as an order of integers. -/
def Number.totalOrder (x : Float) : Int :=
  let bits := x.toBits.toNat
  if bits < 0x8000000000000000 then bits else -((bits - 0x8000000000000000 : Nat) : Int) - 1

namespace Value

/-- The place of a form of values in the order. -/
def rank : Value → Nat
  | nil => 0
  | bool _ => 1
  | int _ => 2
  | float _ => 3
  | str _ => 4
  | _ => 5

/-- Numbered objects come first, in order of their numbers. -/
def compareNumbers : Option Nat → Option Nat → Ordering
  | some a, some b => compare a b
  | some _, none => .lt
  | none, some _ => .gt
  | none, none => .eq

/-- Compares values, given numbers of objects. -/
def compareWith (number : Ref → Option Nat) : Value → Value → Ordering
  | bool a, bool b => compare a b
  | int i, int j => compare i.toInt j.toInt
  | float x, float y => compare (Number.totalOrder x) (Number.totalOrder y)
  | str s, str t => compare s t
  | v, w =>
    match v.ref?, w.ref? with
    | some r, some s => compareNumbers (number r) (number s)
    | _, _ => compare v.rank w.rank

/-- Entries in order of their keys, and of their values where the order does not tell keys apart. -/
def sortEntries (number : Ref → Option Nat) (entries : List (Value × Value)) : List (Value × Value) :=
  entries.mergeSort fun (k, v) (l, w) =>
    ((compareWith number k l).then (compareWith number v w)).isLE

end Value

end LuaMachine
