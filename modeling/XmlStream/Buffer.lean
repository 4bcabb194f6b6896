import XmlStream.Byte
/-! A growing byte buffer. It is emptied for reuse; what it holds is the bytes put in since. -/
namespace XmlStream

structure Buffer where
  bytes : Array Byte := #[]
deriving DecidableEq

namespace Buffer

def empty : Buffer := {}
def toList (b : Buffer) : Bytes := b.bytes.toList
def size (b : Buffer) : Nat := b.bytes.size
def append (b : Buffer) (more : Bytes) : Buffer := ⟨b.bytes ++ more⟩
def push (b : Buffer) (byte : Byte) : Buffer := ⟨b.bytes.push byte⟩

def slice (b : Buffer) (start stop : Nat) : Bytes := (b.bytes.extract start stop).toList

@[simp] theorem toList_empty : empty.toList = [] := rfl

@[simp] theorem toList_append (b : Buffer) (more : Bytes) :
    (b.append more).toList = b.toList ++ more := by
  simp [append, toList]

@[simp] theorem toList_push (b : Buffer) (byte : Byte) :
    (b.push byte).toList = b.toList ++ [byte] := by
  simp [push, toList]

theorem size_eq (b : Buffer) : b.size = b.toList.length := by
  simp [size, toList]

theorem slice_eq (b : Buffer) (start stop : Nat) :
    b.slice start stop = (b.toList.take stop).drop start := by
  simp [slice, toList, List.extract_eq_take_drop, List.drop_take]

end Buffer
end XmlStream
