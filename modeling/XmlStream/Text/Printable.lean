import XmlStream.Byte
/-! Bytes as printable ASCII. Tab, line feed, return, both quotes and the backslash have a short
form; any other byte outside the printable range is written by its two hexadecimal digits. -/
namespace XmlStream

def hexDigit (n : Nat) : Char := if n < 10 then Char.ofNat (48 + n) else Char.ofNat (87 + n)

def Byte.hex (b : Byte) : List Char := [hexDigit (b.toNat / 16), hexDigit (b.toNat % 16)]

def Byte.printable (b : Byte) : List Char :=
  if b = 9 then ['\\', 't']
  else if b = 10 then ['\\', 'n']
  else if b = 13 then ['\\', 'r']
  else if b = quote ∨ b = apostrophe ∨ b = 92 then ['\\', Char.ofNat b.toNat]
  else if 32 ≤ b ∧ b < 127 then [Char.ofNat b.toNat]
  else '\\' :: 'x' :: b.hex

def Bytes.printable (bytes : Bytes) : String := String.ofList (bytes.flatMap Byte.printable)

end XmlStream
