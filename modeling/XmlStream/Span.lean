import XmlStream.Text.Utf8
/-! Values as a reader hands them over. A stable span is a slice of the document and stays good; a
transient one was decoded and has to be copied by whoever keeps it. -/
namespace XmlStream

structure Slice where
  offset : Nat
  bytes : Bytes
deriving DecidableEq, Repr

namespace Slice

def of (arena : Bytes) (start stop : Nat) : Slice := ⟨start, (arena.take stop).drop start⟩

def stop (s : Slice) : Nat := s.offset + s.bytes.length

/-- Lies inside, the ends included: an empty slice at either end is inside. -/
def within (s whole : Slice) : Bool := whole.offset ≤ s.offset && s.stop ≤ whole.stop

end Slice

inductive Span where
  | stable (slice : Slice)
  | transient (bytes : Bytes)
deriving DecidableEq, Repr

namespace Span

def bytes : Span → Bytes
  | stable s => s.bytes
  | transient b => b

def isTransient : Span → Bool
  | stable _ => false
  | transient _ => true

def stable? : Span → Option Slice
  | stable s => some s
  | transient _ => none

def text? (v : Span) : Option String := Utf8.decode? v.bytes
def lossy (v : Span) : String := Utf8.lossy v.bytes

def offsetIn? (v : Span) (whole : Slice) : Option Nat :=
  match v with
  | stable s => if s.within whole then some (s.offset - whole.offset) else none
  | transient _ => none

def alike (v w : Span) : Bool := v.isTransient == w.isTransient && v.bytes == w.bytes

end Span
end XmlStream
