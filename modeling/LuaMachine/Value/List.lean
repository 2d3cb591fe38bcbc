import LuaMachine.Value.Basic

namespace LuaMachine

/-- The arguments of a call or the results of one. A missing one reads as nil. -/
abbrev Values := List Value

/-- How many values a list holds, as far as callers care. -/
inductive Arity
  | empty | single | many
deriving DecidableEq, Repr

namespace Values

/-- The value at a position, nil when there is none. -/
def arg (vs : Values) (i : Nat) : Value := vs[i]?.getD .nil

/-- The first value, nil when there is none. -/
def first (vs : Values) : Value := vs.headD .nil

def arity : Values → Arity
  | [] => .empty
  | [_] => .single
  | _ => .many

/-- Exactly `count` values: surplus ones are cut, missing ones are nil. -/
def adjust (vs : Values) (count : Nat) : Values :=
  vs.take count ++ List.replicate (count - vs.length) .nil

end Values

end LuaMachine
