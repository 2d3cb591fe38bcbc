import LuaMachine.Number.Decimal

namespace LuaMachine.Numeral

/-- A numeral reads as an integer or as a double. -/
inductive Reading
  | int (i : Int64)
  | float (x : Float)
deriving DecidableEq

/-- The ASCII blanks. -/
def isBlank (c : Char) : Bool :=
  c == ' ' || c == '\t' || c == '\n' || c == '\r' || c.toNat == 0x0c

/-- A text without the blanks at both ends. -/
def trim (cs : List Char) : List Char :=
  ((cs.dropWhile isBlank).reverse.dropWhile isBlank).reverse

/-- The worth of a digit below `base`, letters of either case counting from ten. -/
def digit? (base : Nat) (c : Char) : Option Nat :=
  let n := c.toNat
  let worth? :=
    if 48 ≤ n ∧ n ≤ 57 then some (n - 48)
    else if 97 ≤ n ∧ n ≤ 122 then some (n - 87)
    else if 65 ≤ n ∧ n ≤ 90 then some (n - 55)
    else none
  worth?.bind fun worth => if worth < base then some worth else none

/-- Digits of a base read from the left in double arithmetic, rounding at every step. -/
def accumulate (base : Nat) : Float → List Char → Option Float
  | acc, [] => some acc
  | acc, c :: rest =>
    match digit? base c with
    | some worth => accumulate base (acc * Float.ofNat base + Float.ofNat worth) rest
    | none => none

/-- The natural number that decimal digits spell. -/
def natural (digits : List Char) : Nat :=
  digits.foldl (fun acc c => acc * 10 + (c.toNat - 48)) 0

/-- The digits without the zeros in front. -/
def significant (digits : List Char) : List Char := digits.dropWhile (· == '0')

/-- More digits than any number halfway between two doubles has. -/
def decisiveCount : Nat := 800

/-- The digits that decide how digits without zeros at their end are rounded. Those behind the first
`decisiveCount` matter only by not being all zeros. -/
def decisive (digits : List Char) : List Char :=
  if digits.length ≤ decisiveCount then digits else digits.take decisiveCount ++ ['1']

/-- The number that digits spell, times `10 ^ exponent`, rounded once; far beyond the range it is infinite
or zero. -/
def scientific (digits : List Char) (exponent : Int) : Float :=
  let all := significant digits
  let kept := decisive (dropTrailingZeros all)
  let scale := exponent + ((all.length : Int) - kept.length)
  if kept.isEmpty then 0.0
  else if 400 < all.length + exponent then 1.0 / 0.0
  else if all.length + exponent < -400 then 0.0
  else Float.ofScientific (natural kept) (scale < 0) scale.natAbs

/-- The exponent that digits spell. Once it has reached 65536, the digits behind are ignored. -/
def exponentOf (digits : List Char) : Nat :=
  digits.foldl (fun acc c => if acc < 0x10000 then acc * 10 + (c.toNat - 48) else acc) 0

/-- An exponent part: nothing, or a mark, an optional sign and digits. -/
def exponent? : List Char → Option Int
  | [] => some 0
  | mark :: rest =>
    if mark = 'e' ∨ mark = 'E' then
      let (negative, digits) := match rest with
        | '-' :: ds => (true, ds)
        | '+' :: ds => (false, ds)
        | ds => (false, ds)
      if !digits.isEmpty && digits.all Char.isDigit then
        some (Binary.signed negative (exponentOf digits))
      else none
    else none

/-- A decimal: digits, or digits around a point with at least one digit, then an exponent part. -/
def decimal? (cs : List Char) : Option Float :=
  let whole := cs.takeWhile Char.isDigit
  let (fraction, rest) := match cs.dropWhile Char.isDigit with
    | '.' :: rest => (rest.takeWhile Char.isDigit, rest.dropWhile Char.isDigit)
    | rest => ([], rest)
  if whole.isEmpty && fraction.isEmpty then none
  else (exponent? rest).map fun e =>
    scientific (whole ++ fraction) (e - fraction.length)

/-- The double with its sign turned. -/
def withSign (negative : Bool) (x : Float) : Float := if negative then -x else x

/-- Splits off an optional sign; true for a minus. -/
def splitSign : List Char → Bool × List Char
  | '-' :: rest => (true, rest)
  | '+' :: rest => (false, rest)
  | rest => (false, rest)

/-- The digits after a hexadecimal mark, if the text starts with one. -/
def hexBody? : List Char → Option (List Char)
  | '0' :: 'x' :: rest => some rest
  | '0' :: 'X' :: rest => some rest
  | _ => none

/-- The integer that a row of decimal digits spells, if it is below `2 ^ 63`; such an integer has at most
nineteen digits. -/
def integer? (negative : Bool) (body : List Char) : Option Int64 :=
  if !body.isEmpty && body.all Char.isDigit && (significant body).length ≤ 19 &&
      natural body ≤ 0x7fffffffffffffff then
    some (Int64.ofInt (Binary.signed negative (natural body)))
  else none

/-- Whether a text begins like a decimal: with a digit or a point. -/
def startsDecimal : List Char → Bool
  | [] => false
  | c :: _ => c.isDigit || c == '.'

/-- A character of a decimal. -/
def isDecimalChar (c : Char) : Bool := c.isDigit || ['.', 'e', 'E', '+', '-'].contains c

/-- Reads a numeral: blanks around it, an optional sign, and a hexadecimal or a decimal. A decimal has to begin like one
and must not have other characters, so that no name of a double is read as one. Digits alone that fit 64 bits are an
integer. -/
def parse? (s : String) : Option Reading :=
  let (negative, body) := splitSign (trim s.toList)
  match hexBody? body with
  | some digits =>
    if digits.isEmpty then none
    else (accumulate 16 0.0 digits).map fun x => .float (withSign negative x)
  | none =>
    if !startsDecimal body then none
    else if !body.all isDecimalChar then none
    else match integer? negative body with
      | some i => some (.int i)
      | none => (decimal? body).map fun x => .float (withSign negative x)

/-- Reads digits of a base, with blanks around them and an optional minus. -/
def parseRadix? (base : Nat) (s : String) : Option Reading :=
  let (negative, body) := match trim s.toList with
    | '-' :: rest => (true, rest)
    | rest => (false, rest)
  if body.isEmpty then none
  else (accumulate base 0.0 body).map fun x => .float (withSign negative x)

end LuaMachine.Numeral
