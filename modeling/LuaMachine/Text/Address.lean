namespace LuaMachine.Text

/-- What stands in front of an address. -/
def addressMarks : List (List Char) :=
  ["table: 0x", "function: 0x", "userdata: 0x", "thread: 0x"].map String.toList

/-- What stands for a hidden address. -/
def hiddenAddress : List Char := ['A', 'D', 'D', 'R']

/-- A digit of an address as it is printed. -/
def isAddressDigit (c : Char) : Bool := c.isDigit || ('a' ≤ c && c ≤ 'f')

/-- The text behind an address at the front, with the mark of the address. -/
def address? (cs : List Char) : Option (List Char × List Char) :=
  (addressMarks.find? (·.isPrefixOf cs)).bind fun mark =>
    let behind := cs.drop mark.length
    if (behind.head?.map isAddressDigit).getD false then some (mark, behind.dropWhile isAddressDigit)
    else none

/-- Hides the addresses among characters, those done so far in reverse; `fuel` bounds their number. -/
def hideAddressesIn : Nat → List Char → List Char → List Char
  | 0, done, _ => done.reverse
  | _, done, [] => done.reverse
  | fuel + 1, done, c :: rest =>
    match address? (c :: rest) with
    | some (mark, behind) => hideAddressesIn fuel (hiddenAddress.reverse ++ (mark.reverse ++ done)) behind
    | none => hideAddressesIn fuel (c :: done) rest

/-- Hides the addresses in a text. -/
def hideAddresses (s : String) : String :=
  let cs := s.toList
  String.ofList (hideAddressesIn cs.length [] cs)

end LuaMachine.Text
