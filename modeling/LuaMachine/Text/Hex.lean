namespace LuaMachine.Text.Hex

/-- The two digits of a byte. -/
def ofByte (b : UInt8) : List Char := [Nat.digitChar (b.toNat / 16), Nat.digitChar (b.toNat % 16)]

/-- The digits of bytes. -/
def encode (bytes : List UInt8) : String := String.ofList (bytes.flatMap ofByte)

/-- The value of a digit, in either case. -/
def digitValue (c : Char) : Nat :=
  if c.isDigit then c.toNat - 48 else if c.isUpper then c.toNat - 55 else c.toNat - 87

/-- The number that digits spell. -/
def natural (s : String) : Nat := s.toList.foldl (fun n c => 16 * n + digitValue c) 0

/-- Digits in pairs; a digit left over is dropped. -/
def bytesOf : List Char → List UInt8
  | high :: low :: rest => UInt8.ofNat (16 * digitValue high + digitValue low) :: bytesOf rest
  | _ => []

/-- The bytes that digits spell. -/
def decode (s : String) : List UInt8 := bytesOf s.toList

end LuaMachine.Text.Hex
