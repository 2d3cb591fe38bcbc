namespace LuaMachine

/-- The exact reading of a double; a finite one is `± mantissa * 2 ^ exponent`. -/
inductive Binary
  | nan
  | infinite (negative : Bool)
  | finite (negative : Bool) (mantissa : Nat) (exponent : Int)
deriving DecidableEq, Repr

namespace Binary

/-- Splits the 64 bits into sign, 11 bits of exponent and 52 bits of fraction. -/
def ofFloat (x : Float) : Binary :=
  let bits : Nat := x.toBits.toNat
  let negative := bits / 0x8000000000000000 == 1
  let biased : Nat := bits / 0x10000000000000 % 2048
  let fraction : Nat := bits % 0x10000000000000
  if biased = 2047 then
    if fraction = 0 then infinite negative else nan
  else if biased = 0 then finite negative fraction (-1074)
  else finite negative (0x10000000000000 + fraction) ((biased : Int) - 1075)

/-- The signed integer with this sign and magnitude. -/
def signed (negative : Bool) (magnitude : Nat) : Int :=
  if negative then -magnitude else magnitude

/-- The largest integer that is not above the value; none for infinities and NaN. -/
def floor? : Binary → Option Int
  | finite negative mantissa exponent =>
    let value := signed negative mantissa
    let scale := Nat.pow 2 exponent.natAbs
    some (if exponent < 0 then value.fdiv scale else value * scale)
  | _ => none

/-- The integer that the value equals, if there is one. -/
def integer? : Binary → Option Int
  | finite negative mantissa exponent =>
    let scale := Nat.pow 2 exponent.natAbs
    if exponent < 0 then
      if mantissa % scale = 0 then
        some (signed negative (mantissa / scale))
      else none
    else some (signed negative (mantissa * scale))
  | _ => none

/-- Whether the sign bit is set. -/
def isNegative : Binary → Bool
  | nan => false
  | infinite negative => negative
  | finite negative _ _ => negative

end Binary

namespace Number

/-- The double nearest to an integer, ties to even. -/
def ofInt64 (i : Int64) : Float := Float.ofInt i.toInt

/-- The floor of a double as a double; integral doubles, infinities and NaN are their own floor. -/
def floor (x : Float) : Float :=
  let exact := Binary.ofFloat x
  if exact.integer?.isSome then x
  else match exact.floor? with
    | some n => Float.ofInt n
    | none => x

/-- The nearest 64-bit integer to `n`, which is `n` itself when it fits. -/
def clampInt64 (n : Int) : Int64 :=
  if n < Int64.minValue.toInt then Int64.minValue
  else if Int64.maxValue.toInt < n then Int64.maxValue
  else Int64.ofInt n

/-- The 64-bit integer `n`, if it fits. -/
def int64? (n : Int) : Option Int64 :=
  if Int64.minValue.toInt ≤ n ∧ n ≤ Int64.maxValue.toInt then some (Int64.ofInt n) else none

/-- The bits of the double that equals a single given by its bits. A NaN keeps its payload in front and
becomes a quiet one. -/
def widen (bits : UInt32) : UInt64 :=
  let word : Nat := bits.toNat
  let biased : Nat := word / 0x800000 % 256
  let fraction : Nat := word % 0x800000
  let sign : Nat := if word / 0x80000000 == 1 then 0x8000000000000000 else 0
  let magnitude : Nat :=
    if biased = 255 then
      let quiet : Nat := if fraction = 0 ∨ 0x400000 ≤ fraction then 0 else 0x400000
      0x7ff0000000000000 + (fraction + quiet) * 0x20000000
    else if biased = 0 then
      -- a subnormal single is a normal double: shift its leading bit into place
      if fraction = 0 then 0
      else
        let lead := Nat.log2 fraction
        (lead + 874) * 0x10000000000000 + (fraction * Nat.pow 2 (52 - lead) - 0x10000000000000)
    else (biased + 896) * 0x10000000000000 + fraction * 0x20000000
  UInt64.ofNat (sign + magnitude)

end Number

end LuaMachine
