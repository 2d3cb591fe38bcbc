import LuaMachine.Number.Decimal
import LuaMachine.Number.Double

namespace LuaMachine.Number

/-- A whole part and, when it is not empty, a point and a fraction. -/
def withFraction (whole fraction : List Char) : List Char :=
  if fraction.isEmpty then whole else whole ++ '.' :: fraction

/-- The number of significant digits in the text of a double. -/
def precision : Nat := 14

/-- An exponent with its sign and at least two digits. -/
def exponentText (e : Int) : List Char :=
  let digits := Nat.toDigits 10 e.natAbs
  (if e < 0 then '-' else '+') :: (if digits.length < 2 then '0' :: digits else digits)

/-- Lays out significant digits whose first one counts `10 ^ e`: positional for `-4 ≤ e < 14`,
with an exponent otherwise, and no zeros at the end of a fraction. -/
def general (digits : List Char) (e : Int) : List Char :=
  if e < -4 ∨ (precision : Int) ≤ e then
    withFraction (digits.take 1) (dropTrailingZeros (digits.drop 1)) ++ 'e' :: exponentText e
  else if e < 0 then
    withFraction ['0'] (dropTrailingZeros (List.replicate (e.natAbs - 1) '0' ++ digits))
  else
    withFraction (digits.take (e.natAbs + 1)) (dropTrailingZeros (digits.drop (e.natAbs + 1)))

/-- The text of a double with fourteen significant digits, a half rounded to even. -/
def floatText (x : Double) : String :=
  match Binary.ofFloat x with
  | .nan => if x.isNegativeNaN then "-nan" else "nan"
  | .infinite negative => if negative then "-inf" else "inf"
  | .finite negative mantissa exponent =>
    let body :=
      if mantissa = 0 then ['0']
      else
        let d := Decimal.rounded precision mantissa exponent
        general (Nat.toDigits 10 d.digits) (d.exponent + (precision - 1))
    String.ofList (if negative then '-' :: body else body)

/-- The decimal text of an integer. -/
def intText (i : Int) : String :=
  String.ofList (if i < 0 then '-' :: Nat.toDigits 10 i.natAbs else Nat.toDigits 10 i.natAbs)

end LuaMachine.Number
