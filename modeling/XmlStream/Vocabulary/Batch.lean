import XmlStream.Buffer
import XmlStream.Handler
import XmlStream.Namespace.Event
import XmlStream.Vocabulary.Event
/-! Batches: a stage that gives names their tokens and holds the attributes back until the start of
their element. A transient value is copied when it comes, since it does not last until then. -/
namespace XmlStream

structure Lexicon where
  words : Vocabulary
  namespaces : NsTokens

namespace Lexicon

def prepare (words uris : Vocabulary) (r : Registry) : Registry × Lexicon :=
  let (r, namespaces) := NsTokens.ofVocabulary uris r
  (r, ⟨words, namespaces⟩)

def name (l : Lexicon) (ns : NsId) (raw : Bytes) : TokenName :=
  ⟨ns, l.namespaces.token ns, l.words.token raw, raw⟩

end Lexicon

inductive Held where
  | slice (slice : Slice)
  | copy (start stop : Nat)
deriving DecidableEq, Repr

structure HeldAttr where
  name : TokenName
  value : Held
deriving DecidableEq, Repr

structure Batch where
  attrs : List HeldAttr := []
  copies : Buffer := .empty
deriving DecidableEq

namespace Batch

def empty : Batch := {}

def hold (b : Batch) (name : TokenName) : Span → Batch
  | .stable s => { b with attrs := b.attrs ++ [⟨name, .slice s⟩] }
  | .transient bytes =>
    let copies := b.copies.append bytes
    ⟨b.attrs ++ [⟨name, .copy b.copies.size copies.size⟩], copies⟩

def value (b : Batch) : Held → Span
  | .slice s => .stable s
  | .copy start stop => .transient (b.copies.slice start stop)

def release (b : Batch) : List TokenAttr := b.attrs.map fun a => ⟨a.name, b.value a.value⟩

def step (l : Lexicon) (b : Batch) : NsEvent → Batch × Passing TokenEvent
  | .attr ns name value => (b.hold (l.name ns name.localName) value, .absorb)
  | .startElement ns name extent =>
    (empty, .deliver (.startElement (l.name ns name.localName) extent b.release))
  | .endElement ns name extent => (b, .deliver (.endElement (l.name ns name.localName) extent))
  | .characters text => (b, .deliver (.characters text))
  | .doctype _ | .startDeclaration _ | .endDeclaration _ | .declarationAttr _ _ => (b, .absorb)

end Batch
end XmlStream
