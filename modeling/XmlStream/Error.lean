import XmlStream.Text.Printable
import XmlStream.Text.Utf8
import XmlStream.Name
import XmlStream.Namespace.Id
/-! What can go wrong: a malformed document, for a cause and mostly at an offset, or a handler that
stopped the parse. -/
namespace XmlStream

inductive Cause where
  | prematureEnd
  | elementsOpen (count : Nat)
  | unsupportedEncoding
  | noOpeningAngle
  | noDeclaration
  | declarationName (expected found : Bytes)
  | letterExpected
  | nameStart (found : Byte)
  | unexpectedClose
  | selfCloseExpected
  | closeExpected
  | specialTooShort
  | specialUnknown
  | commentExpected
  | commentTooShort
  | commentUnclosed
  | commentDashes
  | textTooShort
  | textExpected (text : String)
  | cdataUnclosed
  | doctypeTooShort
  | doctypeMalformed
  | doctypeUnclosed
  | declarationUnclosed
  | attributeEquals (name : QName)
  | valueUnquoted
  | quoteUnclosed
  | referenceUnclosed
  | referenceEmpty
  | duplicateAttribute (ns : NsId) (name : Bytes)
  | mismatchedClose (expectedNs : NsId) (expected : Bytes) (foundNs : NsId) (found : Bytes)
  | stated (text : String)
deriving DecidableEq, Repr

namespace Cause

def message : Cause → String
  | prematureEnd => "xml stream ended prematurely."
  | elementsOpen count => s!"xml stream ended prematurely with {count} element(s) still open."
  | unsupportedEncoding => "unsupported encoding. only 8 bit encodings are supported"
  | noOpeningAngle => "xml file must begin with '<'."
  | noDeclaration => "xml file must begin with '<?'."
  | declarationName expected found =>
    "declaration name of '" ++ expected.printable ++ "' was expected, but '" ++ found.printable
      ++ "' was found instead."
  | letterExpected => "expected an alphabet."
  | nameStart found =>
    "name must begin with an alphabet, but got this instead '" ++ Bytes.printable [found] ++ "'"
  | unexpectedClose => "unexpected closing element."
  | selfCloseExpected => "expected '/>' to self-close the element."
  | closeExpected => "expected '>' to close the element."
  | specialTooShort => "special tag too short."
  | specialUnknown => "failed to parse special tag."
  | commentExpected => "comment expected."
  | commentTooShort => "malformed comment."
  | commentUnclosed => "malformed comment: closing '-->' was not found."
  | commentDashes => "'--' should not occur in comment other than in the closing tag."
  | textTooShort => "not enough stream left to check for an expected string segment."
  | textExpected text => "'" ++ text ++ "' was expected, but not found."
  | cdataUnclosed => "malformed CDATA section."
  | doctypeTooShort => "DOCTYPE section too short."
  | doctypeMalformed => "malformed DOCTYPE section."
  | doctypeUnclosed => "malformed DOCTYPE section - closing '>' expected but not found."
  | declarationUnclosed => "declaration must end with '?>'."
  | attributeEquals name =>
    "Attribute must begin with 'name=..'. (ns='" ++ name.qualifier.printable ++ "', name='"
      ++ name.localName.printable ++ "')"
  | valueUnquoted => "value must be quoted"
  | quoteUnclosed => "closing quote of a value was not found."
  | referenceUnclosed => "error parsing encoded character: terminating character is not found."
  | referenceEmpty => "empty encoded character."
  | duplicateAttribute ns name =>
    "duplicate attribute '" ++ ns.label ++ ":" ++ name.printable ++ "'."
  | mismatchedClose expectedNs expected foundNs found =>
    "mis-matching closing element. expected '" ++ expectedNs.label ++ ":" ++ expected.printable
      ++ "' but found '" ++ foundNs.label ++ ":" ++ found.printable ++ "'."
  | stated text => text

end Cause

inductive Error where
  | malformed (cause : Cause) (offset : Option Nat)
  | handler (reason : String)
deriving DecidableEq, Repr

namespace Error

def message? : Error → Option String
  | malformed cause _ => some cause.message
  | handler _ => none

def offset? : Error → Option Nat
  | malformed _ offset => offset
  | handler _ => none

def display : Error → String
  | malformed cause (some offset) => s!"malformed document at offset {offset}: " ++ cause.message
  | malformed cause none => "malformed document: " ++ cause.message
  | handler reason => "parse aborted by handler: " ++ reason

end Error
end XmlStream
