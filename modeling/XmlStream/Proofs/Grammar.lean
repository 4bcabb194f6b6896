import XmlStream.Document
/-! The grammar of documents, as relations on bytes. It is said without cursors, offsets or guards
on how much is left; what a run of text or of a value decodes to is said along with its bytes. -/
namespace XmlStream

namespace QName

def text (name : QName) : Bytes :=
  if name.qualifier = [] then name.localName else name.qualifier ++ .colon :: name.localName

end QName

namespace Grammar

def Blanks (w : Bytes) : Prop := ∀ b ∈ w, b.isBlank = true

def Name (n : Bytes) : Prop := ∃ b r, n = b :: r ∧ b.isLetter = true ∧ ∀ c ∈ r, c.isNameByte = true

def IsQName (name : QName) : Prop :=
  (name.qualifier = [] ∨ Name name.qualifier) ∧ Name name.localName

/-- Bytes before a stop byte and what they decode to. A reference reaches to the next `;`, and may
have any bytes before it. -/
inductive Run (stop : Byte) : Bytes → Bytes → Prop
  | nil : Run stop [] []
  | plain {b r v} : b ≠ stop → b ≠ .ampersand → Run stop r v → Run stop (b :: r) (b :: v)
  | reference {n r v} : n ≠ [] → .semicolon ∉ n → Run stop r v →
      Run stop (.ampersand :: (n ++ .semicolon :: r)) (Reference.expand n ++ v)

/-- In the body and the text after it, the text stands at the end and nowhere before. -/
def UpTo (text body : Bytes) : Prop := ∀ n < body.length, ¬ text <+: (body ++ text).drop n

def quoted (body : Bytes) : Bytes := .quote :: (body ++ [.quote])

inductive Attr : Bytes → Prop
  | mk {name raw v} : IsQName name → Run .quote raw v →
      Attr (name.text ++ .equals :: quoted raw)

inductive Attrs : Bytes → Prop
  | nil : Attrs []
  | cons {w a r} : Blanks w → Attr a → Attrs r → Attrs (w ++ a ++ r)

def keyword : Identifier → Bytes
  | .publicId => utf8 "PUBLIC"
  | .systemId => utf8 "SYSTEM"

inductive Second : Bytes → Option Bytes → Prop
  | absent : Second [] none
  | present {uri w} : .quote ∉ uri → Blanks w → Second (quoted uri ++ w) (some uri)

/-! Blanks after a name are optional, so where it ends is a matter of its own: `Ends` says before
which bytes a name may end. -/

/-- A name goes on as long as its bytes do. -/
def Apart (rest : Bytes) : Prop := ∀ b, rest.head? = some b → b.isNameByte = false

/-- A name may end after any of its bytes. -/
def Anywhere (_ : Bytes) : Prop := True

variable (Ends : Bytes → Prop)

def Inside (w : Bytes) : Prop := Ends w ∧ ∃ as bs, Attrs as ∧ Blanks bs ∧ w = as ++ bs

inductive IsDoctype : Bytes → Doctype → Prop
  | mk {d : Doctype} {w₁ w₂ w₃ t} : Name d.root → Blanks w₁ → Ends (w₁ ++ keyword d.keyword) →
      Blanks w₂ → .quote ∉ d.fpi → Blanks w₃ → Second t d.uri →
      IsDoctype (d.root ++ (w₁ ++ (keyword d.keyword ++ (w₂ ++ (quoted d.fpi ++ (w₃ ++
        (t ++ [.closeAngle]))))))) d

def IsDeclaration (name w : Bytes) : Prop :=
  ∃ inside, Name name ∧ Inside Ends inside ∧ w = utf8 "<?" ++ name ++ inside ++ utf8 "?>"

def after (depth : Nat) : Option Nat := if depth = 0 then none else some depth

inductive Item : Nat → Bytes → Option Nat → Prop
  | openTag {d name w} : IsQName name → Inside Ends w →
      Item d (.openAngle :: (name.text ++ w ++ [.closeAngle])) (some (d + 1))
  | selfClosing {d name w} : IsQName name → Inside Ends w →
      Item d (.openAngle :: (name.text ++ w ++ utf8 "/>")) (after d)
  | closeTag {d name w} : IsQName name → Blanks w →
      Item (d + 1) (utf8 "</" ++ name.text ++ w ++ [.closeAngle]) (after d)
  | comment {d b} : UpTo (utf8 "--") b → Item d (utf8 "<!--" ++ b ++ utf8 "-->") (some d)
  | cdata {d b} : UpTo (utf8 "]]>") b → Item d (utf8 "<![CDATA[" ++ b ++ utf8 "]]>") (some d)
  | doctype {d w t doctype} : Blanks w → IsDoctype Ends t doctype →
      Item d (utf8 "<!DOCTYPE" ++ w ++ t) (some d)
  | declaration {d n w} : IsDeclaration Ends n w → Item d w (some d)
  | byte {d b} : b ≠ .openAngle → b ≠ .ampersand → Item (d + 1) [b] (some (d + 1))
  | reference {d n} : n ≠ [] → .semicolon ∉ n →
      Item (d + 1) (.ampersand :: (n ++ [.semicolon])) (some (d + 1))
  | outside {b} : b ≠ .openAngle → Item 0 [b] (some 0)

/-- Items up to the one that ends the root element, after which anything may follow, or up to the
end of a document in which no element was opened. -/
inductive Items : Nat → Bytes → Prop
  | none : Items 0 []
  | last {d w rest} : Item Ends d w none → Items d (w ++ rest)
  | next {d d' w rest} : Item Ends d w (some d') → Items d' rest → Items d (w ++ rest)

/-- A document from its first `<` on: read strictly, it has a declaration named `xml` first. -/
def IsBody (config : Config) (body : Bytes) : Prop :=
  body.head? = some .openAngle ∧
    if config.strict then
      ∃ declaration rest, IsDeclaration Ends (utf8 "xml") declaration ∧ body = declaration ++ rest ∧
        Items Ends 0 rest
    else Items Ends 0 body

def Accepts (config : Config) (doc : Bytes) : Prop :=
  ∃ body, (doc = body ∨ doc = Read.byteOrderMark ++ body) ∧ IsBody Ends config body

end Grammar
end XmlStream
