import XmlStream.Name
import XmlStream.Span
/-! Events: what a document says, in the order it says it. An attribute comes before the start of
its element, and between the two ends of a declaration when it belongs to one. -/
namespace XmlStream

inductive Identifier where
  | publicId
  | systemId
deriving DecidableEq, Repr

structure Doctype where
  keyword : Identifier
  root : Bytes
  fpi : Bytes
  uri : Option Bytes
deriving DecidableEq, Repr

/-- Where a tag stands: the offset of its `<` and the offset after its `>`. -/
structure Extent where
  start : Nat
  stop : Nat
deriving DecidableEq, Repr

inductive Event where
  | doctype (doctype : Doctype)
  | startDeclaration (name : Bytes)
  | endDeclaration (name : Bytes)
  | attr (name : QName) (value : Span)
  | startElement (name : QName) (extent : Extent)
  | endElement (name : QName) (extent : Extent)
  | characters (text : Span)
deriving DecidableEq, Repr

end XmlStream
