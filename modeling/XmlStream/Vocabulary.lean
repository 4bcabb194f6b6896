import XmlStream.Namespace.Registry
/-! Vocabularies number the words of a list by their places. The first place stands for all that is
not in the list, so its own word is never matched. -/
namespace XmlStream

structure Token where
  index : Nat
deriving DecidableEq, Repr, Inhabited

namespace Token

def unknown : Token := ⟨0⟩
def isUnknown (t : Token) : Bool := t == unknown
def label (t : Token) : String := s!"#{t.index}"

end Token

structure Vocabulary where
  words : List Bytes
deriving DecidableEq, Repr

namespace Vocabulary

def size (v : Vocabulary) : Nat := v.words.length

def token (v : Vocabulary) (word : Bytes) : Token :=
  match (v.words.drop 1).idxOf? word with
  | some place => ⟨place + 1⟩
  | none => .unknown

def word (v : Vocabulary) (t : Token) : Bytes := (v.words[t.index]?).getD []

def isValid (v : Vocabulary) (t : Token) : Bool := !t.isUnknown && decide (t.index < v.size)

def entries (v : Vocabulary) : List (Token × Bytes) :=
  ((v.words.zipIdx).drop 1).map fun (word, place) => (⟨place⟩, word)

end Vocabulary

structure NsTokens where
  entries : List (NsId × Token) := []
deriving DecidableEq, Repr

namespace NsTokens

def size (m : NsTokens) : Nat := m.entries.length
def find? (m : NsTokens) (ns : NsId) : Option Token := m.entries.lookup ns
def token (m : NsTokens) (ns : NsId) : Token := (m.find? ns).getD .unknown

def insert (m : NsTokens) (ns : NsId) (t : Token) : NsTokens :=
  if ns.isUnknown || (m.find? ns).isSome then m else ⟨m.entries ++ [(ns, t)]⟩

def ofVocabulary (v : Vocabulary) (r : Registry) : Registry × NsTokens :=
  v.entries.foldl (fun (r, m) (t, uri) =>
    let (r, id) := r.intern uri
    (r, m.insert id t)) (r, {})

end NsTokens
end XmlStream
