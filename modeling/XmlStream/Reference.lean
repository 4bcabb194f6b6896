import XmlStream.Buffer
/-! References: the text between `&` and `;`. Five names stand for a byte of markup; a numeral after
`#` stands for the character with that code; any other text stands for itself. -/
namespace XmlStream.Reference

def named? (name : Bytes) : Option Byte :=
  if name = utf8 "lt" then some .openAngle
  else if name = utf8 "gt" then some .closeAngle
  else if name = utf8 "amp" then some .ampersand
  else if name = utf8 "apos" then some .apostrophe
  else if name = utf8 "quot" then some .quote
  else none

def decimalDigit? (b : Byte) : Option Nat := if b.isDigit then some (b.toNat - 48) else none

def hexDigit? (b : Byte) : Option Nat :=
  if b.isDigit then some (b.toNat - 48)
  else if 97 ≤ b ∧ b ≤ 102 then some (b.toNat - 87)
  else if 65 ≤ b ∧ b ≤ 70 then some (b.toNat - 55)
  else none

def numeral? (base : Nat) (digit? : Byte → Option Nat) (digits : Bytes) : Option Nat :=
  if digits.isEmpty then none
  else (digits.mapM digit?).map (·.foldl (fun n d => n * base + d) 0)

def character? (code : Nat) : Option Char :=
  if code.isValidChar then some (Char.ofNat code) else none

/-- Decimal after `#`, hexadecimal after `#x` or `#X`. -/
def numbered? : Bytes → Option Char
  | [] => none
  | b :: digits =>
    if b ≠ .hash then none
    else if digits.head? = some 120 ∨ digits.head? = some 88 then
      (numeral? 16 hexDigit? (digits.drop 1)).bind character?
    else (numeral? 10 decimalDigit? digits).bind character?

def expand (name : Bytes) : Bytes :=
  match named? name with
  | some b => [b]
  | none =>
    match numbered? name with
    | some c => String.utf8EncodeChar c
    | none => name

def expandInto (buffer : Buffer) (name : Bytes) : Buffer := buffer.append (expand name)

end XmlStream.Reference
