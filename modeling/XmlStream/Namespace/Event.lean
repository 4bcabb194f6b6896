import XmlStream.Event
import XmlStream.Namespace.Id
/-! Events with namespaces: elements and their attributes have ids, attributes of declarations are
told apart, and bindings are no longer among them. -/
namespace XmlStream

inductive NsEvent where
  | doctype (doctype : Doctype)
  | startDeclaration (name : Bytes)
  | endDeclaration (name : Bytes)
  | declarationAttr (name : QName) (value : Span)
  | attr (ns : NsId) (name : QName) (value : Span)
  | startElement (ns : NsId) (name : QName) (extent : Extent)
  | endElement (ns : NsId) (name : QName) (extent : Extent)
  | characters (text : Span)
deriving DecidableEq, Repr

end XmlStream
