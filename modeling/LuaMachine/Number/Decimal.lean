import LuaMachine.Number.Binary

namespace LuaMachine

/-- A positive decimal `digits * 10 ^ exponent`. -/
structure Decimal where
  digits : Nat
  exponent : Int
deriving DecidableEq, Repr

namespace Decimal

/-- The number of decimal digits of `n`; one for zero. -/
def length (n : Nat) : Nat := (Nat.toDigits 10 n).length

/-- `num / den` rounded to the nearest integer, a tie to the even one. -/
def roundDiv (num den : Nat) : Nat :=
  let quotient := num / den
  let twice := 2 * (num % den)
  if den < twice ∨ (twice = den ∧ quotient % 2 = 1) then quotient + 1 else quotient

/-- The exponent `k` with `10 ^ k ≤ num / den < 10 ^ (k + 1)`, for positive `num` and `den`. -/
def magnitude (num den : Nat) : Int :=
  if den ≤ num then (length (num / den) : Int) - 1
  else -(length ((den + num - 1) / num - 1) : Int)

/-- Numerator and denominator of `mantissa * 2 ^ exponent`. -/
def ratio (mantissa : Nat) (exponent : Int) : Nat × Nat :=
  if exponent < 0 then (mantissa, Nat.pow 2 exponent.natAbs) else (mantissa * Nat.pow 2 exponent.natAbs, 1)

/-- Numerator and denominator of `num / den * 10 ^ shift`. -/
def scale (num den : Nat) (shift : Int) : Nat × Nat :=
  if shift < 0 then (num, den * Nat.pow 10 shift.natAbs) else (num * Nat.pow 10 shift.natAbs, den)

/-- The positive value `mantissa * 2 ^ exponent` rounded to exactly `count` digits. -/
def rounded (count mantissa : Nat) (exponent : Int) : Decimal :=
  let (num, den) := ratio mantissa exponent
  let unit := magnitude num den - (count - 1)
  let (top, bottom) := scale num den (-unit)
  let digits := roundDiv top bottom
  if digits = Nat.pow 10 count then ⟨Nat.pow 10 (count - 1), unit + 1⟩ else ⟨digits, unit⟩

/-- The ends of the interval of reals that round to the double `mantissa * 2 ^ exponent`, as
multiples of `2 ^ (exponent - 2)`. Below a power of two the spacing halves. -/
def neighbourhood (mantissa : Nat) (exponent : Int) : Nat × Nat :=
  let below := if mantissa = 0x10000000000000 ∧ -1074 < exponent then 4 * mantissa - 1 else 4 * mantissa - 2
  (below, 4 * mantissa + 2)

/-- Whether `digits * 10 ^ unit` rounds to the double `mantissa * 2 ^ exponent`. -/
def readsBack (mantissa : Nat) (exponent : Int) (digits : Nat) (unit : Int) : Bool :=
  let (low, high) := neighbourhood mantissa exponent
  -- compare digits * 10 ^ unit with low, high in units of 2 ^ (exponent - 2)
  let (top, bottom) := scale digits 1 unit
  let (top, bottom) :=
    if exponent - 2 < 0 then (top * Nat.pow 2 (exponent - 2).natAbs, bottom)
    else (top, bottom * Nat.pow 2 (exponent - 2).natAbs)
  if mantissa % 2 = 0 then low * bottom ≤ top && top ≤ high * bottom
  else low * bottom < top && top < high * bottom

/-- The decimal with `count` digits nearest to the double among those that read back, if any. -/
def withDigits? (mantissa : Nat) (exponent : Int) (count : Nat) : Option Decimal :=
  let (num, den) := ratio mantissa exponent
  let unit := magnitude num den - (count - 1)
  let (top, bottom) := scale num den (-unit)
  let nearest := roundDiv top bottom
  let down := top / bottom
  let other := if nearest = down then down + 1 else down
  if readsBack mantissa exponent nearest unit then some ⟨nearest, unit⟩
  else if readsBack mantissa exponent other unit then some ⟨other, unit⟩
  else none

/-- The fewest digits that read back as the double, nearest first; seventeen always do. -/
def shortest (mantissa : Nat) (exponent : Int) : Decimal :=
  ((List.range 17).findSome? fun n => withDigits? mantissa exponent (n + 1)).getD
    (rounded 17 mantissa exponent)

end Decimal

/-- Drops the zeros at the end of a text. -/
def dropTrailingZeros (digits : List Char) : List Char :=
  (digits.reverse.dropWhile (· == '0')).reverse

namespace Decimal

/-- The same number without zeros at the end of its digits. -/
def trimmed (d : Decimal) : List Char × Int :=
  let all := Nat.toDigits 10 d.digits
  let kept := dropTrailingZeros all
  (kept, d.exponent + (all.length - kept.length))

end Decimal

end LuaMachine
