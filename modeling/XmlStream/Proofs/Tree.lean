import XmlStream.Proofs.Grammar
/-! Trees: what a document says, written in one way. Names and the bodies of sections and comments
are such as markup allows; values and text are any bytes, since they are written escaped. -/
namespace XmlStream.Tree
open Grammar

abbrev ElementName := { name : QName // IsQName name }

abbrev DeclarationName := { name : Bytes // Name name }

abbrev SectionBody := { body : Bytes // ¬ utf8 "]]>" <:+: body }

abbrev CommentBody := { body : Bytes // ¬ utf8 "--" <:+: body ∧ body.getLast? ≠ some .dash }

structure Attribute where
  name : ElementName
  value : Bytes

inductive Node where
  | element (name : ElementName) (attrs : List Attribute) (children : List Node)
  | text (bytes : Bytes)
  | cdata (body : SectionBody)
  | comment (body : CommentBody)
  | declaration (name : DeclarationName) (attrs : List Attribute)

def Node.isText : Node → Bool
  | .text _ => true
  | _ => false

/-! Writing. -/

def escapeByte (b : Byte) : Bytes :=
  if b = .ampersand then utf8 "&amp;"
  else if b = .openAngle then utf8 "&lt;"
  else if b = .closeAngle then utf8 "&gt;"
  else if b = .quote then utf8 "&quot;"
  else [b]

def escape (bytes : Bytes) : Bytes := bytes.flatMap escapeByte

theorem escape_cons (b : Byte) (bytes : Bytes) :
    escape (b :: bytes) = escapeByte b ++ escape bytes := rfl

theorem escape_append (u v : Bytes) : escape (u ++ v) = escape u ++ escape v :=
  List.flatMap_append

def Attribute.render (a : Attribute) : Bytes :=
  utf8 " " ++ (a.name.val.text ++ .equals :: quoted (escape a.value))

def renderAttrs (attrs : List Attribute) : Bytes := attrs.flatMap Attribute.render

mutual
def Node.render : Node → Bytes
  | .element name attrs children =>
    .openAngle :: (name.val.text ++ renderAttrs attrs) ++
      if children.isEmpty then utf8 "/>"
      else .closeAngle :: renderAll children ++ (utf8 "</" ++ name.val.text ++ [.closeAngle])
  | .text bytes => escape bytes
  | .cdata body => utf8 "<![CDATA[" ++ body.val ++ utf8 "]]>"
  | .comment body => utf8 "<!--" ++ body.val ++ utf8 "-->"
  | .declaration name attrs => utf8 "<?" ++ name.val ++ renderAttrs attrs ++ utf8 "?>"

def renderAll : List Node → Bytes
  | [] => []
  | node :: nodes => node.render ++ renderAll nodes
end

/-- Whatever is not text is markup. -/
theorem head_render {node : Node} (hn : node.isText = false) :
    node.render.head? = some .openAngle := by
  cases node with
  | text => cases hn
  | element =>
    rw [Node.render]
    rfl
  | cdata | comment | declaration =>
    rw [Node.render]
    simp only [List.append_assoc]
    rfl

/-! Telling: the events of what is written from an offset on. -/

def spanAt (pos : Nat) (bytes : Bytes) : Span :=
  if escape bytes = bytes then .stable ⟨pos, bytes⟩ else .transient bytes

def tellAttrs (pos : Nat) : List Attribute → List Event
  | [] => []
  | a :: attrs =>
    .attr a.name (spanAt (pos + 1 + a.name.val.text.length + 2) a.value) ::
      tellAttrs (pos + a.render.length) attrs

def tellText (pos : Nat) (bytes : Bytes) : List Event :=
  if bytes = [] then [] else [.characters (spanAt pos bytes)]

mutual
def Node.tell (pos : Nat) : Node → List Event
  | .element name attrs children =>
    let attrsFrom := pos + 1 + name.val.text.length
    let attrsTo := attrsFrom + (renderAttrs attrs).length
    if children.isEmpty then
      tellAttrs attrsFrom attrs ++
        [.startElement name ⟨pos, attrsTo + 2⟩, .endElement name ⟨pos, attrsTo + 2⟩]
    else
      let closing := attrsTo + 1 + (renderAll children).length
      tellAttrs attrsFrom attrs ++ .startElement name ⟨pos, attrsTo + 1⟩ ::
        tellAll (attrsTo + 1) [] children ++
          [.endElement name ⟨closing, closing + 3 + name.val.text.length⟩]
  | .text bytes => tellText pos bytes
  | .cdata body => [.characters (.stable ⟨pos + 9, body.val⟩)]
  | .comment _ => []
  | .declaration name attrs =>
    .startDeclaration name :: tellAttrs (pos + 2 + name.val.length) attrs ++ [.endDeclaration name]

/-- Text that stands side by side is told at once: `run` is what has come of it, from the offset
on. -/
def tellAll (pos : Nat) (run : Bytes) : List Node → List Event
  | [] => tellText pos run
  | .text bytes :: nodes => tellAll pos (run ++ bytes) nodes
  | node :: nodes =>
    let next := pos + (escape run).length
    tellText pos run ++ node.tell next ++ tellAll (next + node.render.length) [] nodes
end

theorem tellAll_cons {node : Node} (hn : node.isText = false) (pos : Nat) (run : Bytes)
    (nodes : List Node) : tellAll pos run (node :: nodes) =
      tellText pos run ++ (node.tell (pos + (escape run).length) ++
        tellAll (pos + (escape run).length + node.render.length) [] nodes) := by
  cases node with
  | text => cases hn
  | _ => simp only [tellAll, List.append_assoc]

/-- Text side by side is told at once, that on the other side of a comment for itself. -/
example : tellAll 3 [] [.text (utf8 "x"), .text (utf8 "&"), .comment ⟨[], by decide⟩,
    .text (utf8 "y")] =
      [.characters (.transient (utf8 "x&")), .characters (.stable ⟨16, utf8 "y"⟩)] := by
  decide

end XmlStream.Tree
