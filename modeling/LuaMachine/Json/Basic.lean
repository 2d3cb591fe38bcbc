import LuaMachine.Number.Text

namespace LuaMachine

/-- A JSON value; the members of an object are in the order they were given. -/
inductive Json
  | null
  | bool (b : Bool)
  | int (i : Int)
  | float (x : Float)
  | str (s : String)
  | arr (items : List Json)
  | obj (members : List (String × Json))
deriving Inhabited

namespace Json

/-- Puts a member in front of members with keys of its own; one that has the key of the first of them is
left out. -/
def consMember (member : String × Json) : List (String × Json) → List (String × Json)
  | [] => [member]
  | next :: rest => if member.1 = next.1 then next :: rest else member :: next :: rest

/-- Members in byte order of their keys, the last one of those with one key. Sorting keeps members with one key
in their order, so the last of them has the next key behind it. -/
def sortMembers (members : List (String × Json)) : List (String × Json) :=
  (members.mergeSort fun a b => !(b.1 < a.1)).foldr consMember []

/-- An object of members, of which the last one with a key counts. -/
def ofMembers (members : List (String × Json)) : Json := .obj (sortMembers members)

/-- The escaped form of a character between quotes. -/
def escapeChar (c : Char) : List Char :=
  if c = '"' then ['\\', '"']
  else if c = '\\' then ['\\', '\\']
  else if c = '\n' then ['\\', 'n']
  else if c = '\r' then ['\\', 'r']
  else if c = '\t' then ['\\', 't']
  else if c.toNat = 8 then ['\\', 'b']
  else if c.toNat = 12 then ['\\', 'f']
  else if c.toNat < 16 then ['\\', 'u', '0', '0', '0'] ++ Nat.toDigits 16 c.toNat
  else if c.toNat < 32 then ['\\', 'u', '0', '0'] ++ Nat.toDigits 16 c.toNat
  else [c]

/-- A text in quotes, with its escapes. -/
def stringText (s : String) : String :=
  String.ofList ('"' :: s.toList.flatMap escapeChar ++ ['"'])

/-- Lays out the fewest digits of a double: positional up to sixteen places before the point and five zeros
behind it, always with a fraction, and with a signed exponent otherwise. -/
def layout (digits : List Char) (exponent : Int) : List Char :=
  let places := (digits.length : Int) + exponent
  if 0 ≤ exponent ∧ places ≤ 16 then
    digits ++ List.replicate exponent.natAbs '0' ++ ['.', '0']
  else if 0 < places ∧ places ≤ 16 then
    digits.take places.natAbs ++ '.' :: digits.drop places.natAbs
  else if -5 < places ∧ places ≤ 0 then
    '0' :: '.' :: List.replicate places.natAbs '0' ++ digits
  else
    let sign := if places - 1 < 0 then '-' else '+'
    Number.withFraction (digits.take 1) (digits.drop 1) ++
      'e' :: sign :: Nat.toDigits 10 (places - 1).natAbs

/-- The text of a finite double: the fewest digits that read back. -/
def floatText (x : Float) : String :=
  match Binary.ofFloat x with
  | .finite negative mantissa exponent =>
    let body :=
      if mantissa = 0 then ['0', '.', '0']
      else
        let (digits, e) := (Decimal.shortest mantissa exponent).trimmed
        layout digits e
    String.ofList (if negative then '-' :: body else body)
  | _ => "null"

mutual
/-- Writes a value without blanks behind a text. -/
def compactOnto (front : String) : Json → String
  | null => front ++ "null"
  | bool b => front ++ (if b then "true" else "false")
  | int i => front ++ Number.intText i
  | float x => front ++ floatText x
  | str s => front ++ stringText s
  | arr items => compactItems (front ++ "[") items ++ "]"
  | obj members => compactMembers (front ++ "\x7b") members ++ "\x7d"

/-- Writes items behind a text, with commas between them. -/
def compactItems (front : String) : List Json → String
  | [] => front
  | [item] => compactOnto front item
  | item :: rest => compactItems (compactOnto front item ++ ",") rest

/-- Writes members behind a text, with commas between them. -/
def compactMembers (front : String) : List (String × Json) → String
  | [] => front
  | [(key, value)] => compactOnto (front ++ stringText key ++ ":") value
  | (key, value) :: rest => compactMembers (compactOnto (front ++ stringText key ++ ":") value ++ ",") rest
end

/-- The text without blanks. -/
def compact (j : Json) : String := compactOnto "" j

/-- A line break and an indentation of two blanks per level. -/
def breakLine (level : Nat) : String := String.ofList ('\n' :: List.replicate (2 * level) ' ')

mutual
/-- Writes a value behind a text, on lines of its own for every item, indented by level. -/
def prettyOnto (level : Nat) (front : String) : Json → String
  | arr [] => front ++ "[]"
  | arr items => prettyItems (level + 1) (front ++ "[") items ++ breakLine level ++ "]"
  | obj [] => front ++ "\x7b\x7d"
  | obj members => prettyMembers (level + 1) (front ++ "\x7b") members ++ breakLine level ++ "\x7d"
  | other => compactOnto front other

/-- Writes items behind a text, each on a line of its own. -/
def prettyItems (level : Nat) (front : String) : List Json → String
  | [] => front
  | [item] => prettyOnto level (front ++ breakLine level) item
  | item :: rest => prettyItems level (prettyOnto level (front ++ breakLine level) item ++ ",") rest

/-- Writes members behind a text, each on a line of its own. -/
def prettyMembers (level : Nat) (front : String) : List (String × Json) → String
  | [] => front
  | [(key, value)] => prettyOnto level (front ++ breakLine level ++ stringText key ++ ": ") value
  | (key, value) :: rest =>
    prettyMembers level
      (prettyOnto level (front ++ breakLine level ++ stringText key ++ ": ") value ++ ",") rest
end

/-- The text on lines of its own for every item. -/
def pretty (j : Json) : String := prettyOnto 0 "" j

end Json

end LuaMachine
