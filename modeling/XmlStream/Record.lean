import XmlStream.Namespace.Event
import XmlStream.Vocabulary.Event
/-! Records: copies of events that need no document, whichever kind of reading they come from. -/
namespace XmlStream

/-- What is known of a name: it has an id after resolving, and tokens after looking it up. -/
structure RecordName where
  ns : Option NsId := none
  nsToken : Option Token := none
  token : Option Token := none
  qualifier : Bytes := []
  localName : Bytes := []
deriving DecidableEq, Repr

namespace RecordName

def raw (name : QName) : RecordName := { qualifier := name.qualifier, localName := name.localName }

def resolved (ns : NsId) (name : QName) : RecordName := { raw name with ns := some ns }

def tokenized (name : TokenName) : RecordName :=
  { ns := some name.ns, nsToken := some name.nsToken, token := some name.token,
    localName := name.raw }

def display (n : RecordName) : String :=
  let ns := match n.ns with
    | some ns => "\x7b" ++ ns.label ++ "\x7d"
    | none => ""
  let qualifier := if n.qualifier.isEmpty then "" else Utf8.lossy n.qualifier ++ ":"
  let tokens := match n.nsToken, n.token with
    | some nsToken, some token => "[" ++ nsToken.label ++ token.label ++ "]"
    | _, _ => ""
  ns ++ qualifier ++ Utf8.lossy n.localName ++ tokens

end RecordName

inductive Record where
  | startDeclaration (name : Bytes)
  | endDeclaration (name : Bytes)
  | declarationAttr (name value : Bytes)
  | startElement (name : RecordName)
  | endElement (name : RecordName)
  | attr (name : RecordName) (value : Bytes) (transient : Bool)
  | characters (text : Bytes) (transient : Bool)
deriving DecidableEq, Repr

namespace Record

def isStartElement : Record → Bool
  | startElement _ => true
  | _ => false

def isEndElement : Record → Bool
  | endElement _ => true
  | _ => false

def isCharacters : Record → Bool
  | characters _ _ => true
  | _ => false

def isTransient : Record → Bool
  | attr _ _ transient => transient
  | characters _ transient => transient
  | _ => false

def elementName? : Record → Option RecordName
  | startElement name => some name
  | endElement name => some name
  | _ => none

def display : Record → String
  | startDeclaration name => "start_declaration(" ++ Utf8.lossy name ++ ")"
  | endDeclaration name => "end_declaration(" ++ Utf8.lossy name ++ ")"
  | declarationAttr name value =>
    "declaration_attribute(" ++ Utf8.lossy name ++ ",\"" ++ Utf8.lossy value ++ "\")"
  | startElement name => "start_element(" ++ name.display ++ ")"
  | endElement name => "end_element(" ++ name.display ++ ")"
  | attr name value _ => "attribute(" ++ name.display ++ ",\"" ++ Utf8.lossy value ++ "\")"
  | characters text _ => "characters(\"" ++ Utf8.lossy text ++ "\")"

def ofText (text : Span) : Record := .characters text.bytes text.isTransient

def ofEvent : Event → List Record
  | .doctype _ => []
  | .startDeclaration name => [.startDeclaration name]
  | .endDeclaration name => [.endDeclaration name]
  | .attr name value => [.attr (.raw name) value.bytes value.isTransient]
  | .startElement name _ => [.startElement (.raw name)]
  | .endElement name _ => [.endElement (.raw name)]
  | .characters text => [ofText text]

def ofNsEvent : NsEvent → List Record
  | .doctype _ => []
  | .startDeclaration name => [.startDeclaration name]
  | .endDeclaration name => [.endDeclaration name]
  | .declarationAttr name value => [.declarationAttr name.localName value.bytes]
  | .attr ns name value => [.attr (.resolved ns name) value.bytes value.isTransient]
  | .startElement ns name _ => [.startElement (.resolved ns name)]
  | .endElement ns name _ => [.endElement (.resolved ns name)]
  | .characters text => [ofText text]

def ofTokenAttr (a : TokenAttr) : Record :=
  .attr (.tokenized a.name) a.value.bytes a.value.isTransient

def ofTokenEvent : TokenEvent → List Record
  | .startElement name _ attrs => .startElement (.tokenized name) :: attrs.map ofTokenAttr
  | .endElement name _ => [.endElement (.tokenized name)]
  | .characters text => [ofText text]

end Record
end XmlStream
