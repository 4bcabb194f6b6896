import XmlStream.Event
import XmlStream.Vocabulary
/-! Events with tokens. A start tag brings its attributes along, so they are no events of their own;
declarations and document types are not told. -/
namespace XmlStream

structure TokenName where
  ns : NsId
  nsToken : Token
  token : Token
  raw : Bytes
deriving DecidableEq, Repr

structure TokenAttr where
  name : TokenName
  value : Span
deriving DecidableEq, Repr

inductive TokenEvent where
  | startElement (name : TokenName) (extent : Extent) (attrs : List TokenAttr)
  | endElement (name : TokenName) (extent : Extent)
  | characters (text : Span)
deriving DecidableEq, Repr

def TokenAttr.find? (attrs : List TokenAttr) (nsToken token : Token) : Option TokenAttr :=
  attrs.find? fun a => a.name.nsToken == nsToken && a.name.token == token

end XmlStream
