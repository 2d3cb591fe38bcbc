import LuaMachine.Json.Basic

namespace LuaMachine.Json.Reader

/-- The blanks of JSON. -/
def isBlank (c : Char) : Bool := c == ' ' || c == '\n' || c == '\t' || c == '\r'

/-- The text behind leading blanks. -/
def skipBlanks (cs : List Char) : List Char := cs.dropWhile isBlank

/-- The value of a hexadecimal digit. -/
def hexDigit? (c : Char) : Option Nat :=
  let n := c.toNat
  if 48 ≤ n ∧ n ≤ 57 then some (n - 48)
  else if 97 ≤ n ∧ n ≤ 102 then some (n - 87)
  else if 65 ≤ n ∧ n ≤ 70 then some (n - 55)
  else none

/-- Four hexadecimal digits. -/
def unit? : List Char → Option (Nat × List Char)
  | a :: b :: c :: d :: rest => do
    return ((((← hexDigit? a) * 16 + (← hexDigit? b)) * 16 + (← hexDigit? c)) * 16 + (← hexDigit? d), rest)
  | _ => none

/-- The character of an escape behind its `u`: one unit, or two that make up one character. -/
def unicode? (cs : List Char) : Option (Char × List Char) := do
  let (first, rest) ← unit? cs
  if 0xdc00 ≤ first ∧ first ≤ 0xdfff then none
  else if 0xd800 ≤ first ∧ first ≤ 0xdbff then
    match rest with
    | '\\' :: 'u' :: rest =>
      let (second, rest) ← unit? rest
      if 0xdc00 ≤ second ∧ second ≤ 0xdfff then
        return (Char.ofNat (0x10000 + (first - 0xd800) * 0x400 + (second - 0xdc00)), rest)
      else none
    | _ => none
  else return (Char.ofNat first, rest)

/-- The character behind a backslash. -/
def escape? : List Char → Option (Char × List Char)
  | '"' :: rest => some ('"', rest)
  | '\\' :: rest => some ('\\', rest)
  | '/' :: rest => some ('/', rest)
  | 'b' :: rest => some (Char.ofNat 8, rest)
  | 'f' :: rest => some (Char.ofNat 12, rest)
  | 'n' :: rest => some ('\n', rest)
  | 'r' :: rest => some ('\r', rest)
  | 't' :: rest => some ('\t', rest)
  | 'u' :: rest => unicode? rest
  | _ => none

/-- The text up to the closing quote, the characters read so far in reverse; it takes a step per character. -/
def string? : Nat → List Char → List Char → Option (String × List Char)
  | 0, _, _ => none
  | fuel + 1, acc, cs =>
    match cs with
    | [] => none
    | '"' :: rest => some (String.ofList acc.reverse, rest)
    | '\\' :: rest => do
      let (c, rest) ← escape? rest
      string? fuel (c :: acc) rest
    | c :: rest => if c.toNat < 32 then none else string? fuel (c :: acc) rest

/-- `significand * 10 ^ exponent` in double arithmetic, none beyond the range of doubles. -/
def scaled? : Nat → Float → Int → Option Float
  | 0, x, _ => some x
  | fuel + 1, x, exponent =>
    if exponent.natAbs ≤ 308 then
      let power := Float.ofScientific 1 false exponent.natAbs
      if 0 ≤ exponent then
        let y := x * power
        if y == 1.0 / 0.0 then none else some y
      else some (x / power)
    else if x == 0.0 then some x
    else if 0 ≤ exponent then none
    else scaled? fuel (x / Float.ofScientific 1 false 308) (exponent + 308)

/-- Whether a significand with one more digit still fits 64 bits. -/
def fits (significand : Nat) (c : Char) : Bool := significand * 10 + (c.toNat - 48) < 0x10000000000000000

/-- Digits in front of the point: a significand, how many digits beyond it were dropped, and the rest. -/
def wholePart : Nat → Nat → List Char → Nat × Nat × List Char
  | significand, dropped, [] => (significand, dropped, [])
  | significand, dropped, c :: rest =>
    if c.isDigit then
      if dropped = 0 && fits significand c then wholePart (significand * 10 + (c.toNat - 48)) 0 rest
      else wholePart significand (dropped + 1) rest
    else (significand, dropped, c :: rest)

/-- Digits behind the point: the significand, how many digits were added to it, and the rest. Digits that do
not fit are dropped, and all behind them. -/
def fractionPart : Nat → Nat → List Char → Nat × Nat × List Char
  | significand, added, [] => (significand, added, [])
  | significand, added, c :: rest =>
    if c.isDigit then
      if fits significand c then fractionPart (significand * 10 + (c.toNat - 48)) (added + 1) rest
      else (significand, added, rest.dropWhile Char.isDigit)
    else (significand, added, c :: rest)

/-- An exponent behind its mark. -/
def exponent? (cs : List Char) : Option (Int × List Char) :=
  let (negative, cs) := match cs with
    | '+' :: rest => (false, rest)
    | '-' :: rest => (true, rest)
    | rest => (false, rest)
  let digits := cs.takeWhile Char.isDigit
  if digits.isEmpty then none
  else
    let n : Nat := digits.foldl (fun acc c => acc * 10 + (c.toNat - 48)) 0
    some (if negative then -(n : Int) else n, cs.dropWhile Char.isDigit)

/-- A double from its parts. -/
def double? (negative : Bool) (significand : Nat) (exponent : Int) : Option Json :=
  -- exponents of ten digits and more decide by their sign alone
  let x? :=
    if 0x80000000 ≤ exponent ∧ significand ≠ 0 then none
    else if exponent.natAbs < 0x80000000 then scaled? 8 (Float.ofNat significand) exponent
    else some 0.0
  x?.map fun x => .float (if negative then -x else x)

/-- A number behind its sign. -/
def number? (negative : Bool) (cs : List Char) : Option (Json × List Char) := do
  let leadingZero ← match cs with
    | '0' :: c :: _ => if c.isDigit then none else some true
    | '0' :: _ => some true
    | c :: _ => if c.isDigit then some false else none
    | [] => none
  let (whole, dropped, rest) := if leadingZero then (0, 0, cs.drop 1) else wholePart 0 0 cs
  let (significand, exponent, isDouble, rest) ← match rest with
    | '.' :: rest =>
      match rest with
      | c :: _ =>
        if c.isDigit then
          let (significand, added, rest) := fractionPart whole 0 rest
          some (significand, (dropped : Int) - added, true, rest)
        else none
      | [] => none
    | rest => some (whole, (dropped : Int), decide (0 < dropped), rest)
  match rest with
  | mark :: tail =>
    if mark = 'e' ∨ mark = 'E' then
      let (e, rest) ← exponent? tail
      return (← double? negative significand (exponent + e), rest)
    else finish significand exponent isDouble rest
  | [] => finish significand exponent isDouble rest
where
  finish (significand : Nat) (exponent : Int) (isDouble : Bool) (rest : List Char) :
      Option (Json × List Char) := do
    if isDouble then return (← double? negative significand exponent, rest)
    else if !negative then return (.int significand, rest)
    else if significand = 0 ∨ 0x8000000000000000 < significand then
      return (.float (-(Float.ofNat significand)), rest)
    else return (.int (-(significand : Int)), rest)

/-- Drops a word from the front. -/
def word? (word : List Char) (cs : List Char) : Option (List Char) :=
  if word.isPrefixOf cs then some (cs.drop word.length) else none

mutual
/-- A value in a text of less than `size` characters, with containers at most `depth` deep; `fuel` bounds the
work by the length of the text. -/
def value? (size : Nat) : Nat → Nat → List Char → Option (Json × List Char)
  | 0, _, _ => none
  | fuel + 1, depth, cs =>
    match skipBlanks cs with
    | 'n' :: rest => (word? ['u', 'l', 'l'] rest).map fun rest => (.null, rest)
    | 't' :: rest => (word? ['r', 'u', 'e'] rest).map fun rest => (.bool true, rest)
    | 'f' :: rest => (word? ['a', 'l', 's', 'e'] rest).map fun rest => (.bool false, rest)
    | '"' :: rest => (string? size [] rest).map fun (s, rest) => (.str s, rest)
    | '[' :: rest =>
      match depth with
      | 0 => none
      | depth + 1 =>
        match skipBlanks rest with
        | ']' :: rest => some (.arr [], rest)
        | rest => (items? size fuel depth [] rest).map fun (items, rest) => (.arr items, rest)
    | '\x7b' :: rest =>
      match depth with
      | 0 => none
      | depth + 1 =>
        match skipBlanks rest with
        | '\x7d' :: rest => some (.obj [], rest)
        | rest => (members? size fuel depth [] rest).map fun (members, rest) => (ofMembers members, rest)
    | '-' :: rest => number? true rest
    | rest => number? false rest

/-- Items up to the closing bracket, those read so far in reverse. -/
def items? (size : Nat) : Nat → Nat → List Json → List Char → Option (List Json × List Char)
  | 0, _, _, _ => none
  | fuel + 1, depth, acc, cs =>
    match value? size fuel depth cs with
    | none => none
    | some (item, rest) =>
      match skipBlanks rest with
      | ',' :: rest => items? size fuel depth (item :: acc) rest
      | ']' :: rest => some ((item :: acc).reverse, rest)
      | _ => none

/-- Members up to the closing brace, those read so far in reverse. -/
def members? (size : Nat) : Nat → Nat → List (String × Json) → List Char →
    Option (List (String × Json) × List Char)
  | 0, _, _, _ => none
  | fuel + 1, depth, acc, cs =>
    match skipBlanks cs with
    | '"' :: rest =>
      match string? size [] rest with
      | none => none
      | some (key, rest) =>
        match skipBlanks rest with
        | ':' :: rest =>
          match value? size fuel depth rest with
          | none => none
          | some (value, rest) =>
            match skipBlanks rest with
            | ',' :: rest => members? size fuel depth ((key, value) :: acc) rest
            | '\x7d' :: rest => some (((key, value) :: acc).reverse, rest)
            | _ => none
        | _ => none
    | _ => none
end

end Reader

/-- Reads a JSON text; none unless the whole text is one value, with containers at most 127 deep. -/
def parse? (s : String) : Option Json :=
  let cs := s.toList
  let size := cs.length + 1
  match Reader.value? size size 127 cs with
  | some (value, rest) => if (Reader.skipBlanks rest).isEmpty then some value else none
  | none => none

end LuaMachine.Json
