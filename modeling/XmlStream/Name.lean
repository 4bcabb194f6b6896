import XmlStream.Byte
/-! Names in a document: a local name, with a qualifier before a colon when there is one. -/
namespace XmlStream

/-- The qualifier is empty when the name has none. -/
structure QName where
  qualifier : Bytes
  localName : Bytes
deriving DecidableEq, Repr

end XmlStream
