import XmlStream.Byte
/-! UTF-8, one byte at a time. A reading lists the characters of a byte sequence in order, with
`none` for each piece that belongs to none: the longest beginning of a character, or else one byte.
The bytes are text when there is no such piece; shown as text all the same, each of them is one
replacement character. -/
namespace XmlStream.Utf8

/-- A character begun: how many bytes it still owes, the range of the next one, its value so far. -/
structure Pending where
  owed : Nat
  low : Byte
  high : Byte
  value : Nat
deriving DecidableEq

inductive Step where
  | character (c : Char)
  | more (pending : Pending)
  | refuse
deriving DecidableEq

def lead (b : Byte) : Step :=
  let begun owed low high base : Step := .more ⟨owed, low, high, b.toNat - base⟩
  if b ≤ 0x7F then .character (Char.ofNat b.toNat)
  else if b < 0xC2 then .refuse
  else if b ≤ 0xDF then begun 1 0x80 0xBF 0xC0
  else if b = 0xE0 then begun 2 0xA0 0xBF 0xE0
  else if b = 0xED then begun 2 0x80 0x9F 0xE0
  else if b ≤ 0xEF then begun 2 0x80 0xBF 0xE0
  else if b = 0xF0 then begun 3 0x90 0xBF 0xF0
  else if b ≤ 0xF3 then begun 3 0x80 0xBF 0xF0
  else if b = 0xF4 then begun 3 0x80 0x8F 0xF0
  else .refuse

def Pending.step (p : Pending) (b : Byte) : Step :=
  let value := p.value * 64 + (b.toNat - 0x80)
  if b < p.low ∨ p.high < b then .refuse
  else if p.owed ≤ 1 then .character (Char.ofNat value)
  else .more ⟨p.owed - 1, 0x80, 0xBF, value⟩

structure Reading where
  done : Array (Option Char) := #[]
  pending : Option Pending := none

def Reading.take (r : Reading) : Step → Reading
  | .character c => ⟨r.done.push (some c), none⟩
  | .more p => ⟨r.done, some p⟩
  | .refuse => ⟨r.done.push none, none⟩

/-- A byte that cannot go on with the character begun ends that piece and leads the next one. -/
def Reading.step (r : Reading) (b : Byte) : Reading :=
  match r.pending with
  | none => r.take (lead b)
  | some p =>
    match p.step b with
    | .refuse => (r.take .refuse).take (lead b)
    | s => r.take s

def Reading.finish (r : Reading) : List (Option Char) :=
  match r.pending with
  | none => r.done.toList
  | some _ => (r.done.push none).toList

def read (bytes : Bytes) : List (Option Char) := (bytes.foldl Reading.step {}).finish

def decode? (bytes : Bytes) : Option String := ((read bytes).mapM id).map String.ofList

def lossy (bytes : Bytes) : String := String.ofList ((read bytes).map (·.getD '\uFFFD'))

end XmlStream.Utf8
