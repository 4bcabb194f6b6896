import XmlStream.Namespace.Resolver
/-! Lexical scope. What names mean is told by the open elements and what each of them binds, with no
stacks of keys, no marks in them and no ids; ids come in only where a registry is asked for one. -/
namespace XmlStream.Lexical

abbrev Bindings := List (Bytes × Bytes)

/-- What a name belongs to: a URI, which is empty for no namespace, or an id that was bound to the
qualifier beforehand. -/
inductive Meaning where
  | uri (uri : Bytes)
  | given (ns : NsId)

structure Element where
  meaning : Meaning
  localName : Bytes
  bindings : Bindings

/-- The open elements, the innermost first, and what the tag being read has bound and has had for
attributes, the newest first. -/
structure Env where
  outer : List Element := []
  own : Bindings := []
  attrs : List (Meaning × Bytes) := []
  inDeclaration : Bool := false

def binding? (name : QName) (value : Span) : Option (Bytes × Bytes) :=
  if name.qualifier = [] ∧ name.localName = Resolver.xmlns then some ([], value.bytes)
  else if name.qualifier = Resolver.xmlns then some (name.localName, value.bytes)
  else none

namespace Env

def bindings (v : Env) : Bindings := v.own ++ v.outer.flatMap (·.bindings)

/-- The innermost binding counts, then what was bound beforehand, then that of `xml`. -/
def meaning (context : Scope) (v : Env) (qualifier : Bytes) : Meaning :=
  match v.bindings.lookup qualifier with
  | some uri => .uri uri
  | none =>
    match context.bound? qualifier with
    | some ns => .given ns
    | none => if qualifier = utf8 "xml" then .uri Registry.xmlUri else .uri []

def attr (context : Scope) (v : Env) (name : QName) (value : Span) : Env :=
  if v.inDeclaration then v
  else
    match binding? name value with
    | some b => { v with own := b :: v.own }
    | none => { v with attrs := (v.meaning context name.qualifier, name.localName) :: v.attrs }

def idle (v : Env) : Env := { v with own := [], attrs := [] }

def step (context : Scope) (v : Env) : Event → Env
  | .attr name value => v.attr context name value
  | .startElement name _ =>
    { v.idle with
      outer := ⟨v.meaning context name.qualifier, name.localName, v.own⟩ :: v.outer }
  | .endElement .. => { v.idle with outer := v.outer.tail }
  | .startDeclaration _ => { v.idle with inDeclaration := true }
  | .endDeclaration _ => { v.idle with inDeclaration := false }
  | .doctype _ | .characters _ => v.idle

/-- An end tag closes an element, and what is not of a tag does not come inside one. -/
def Proper (v : Env) : Event → Prop
  | .attr .. | .startElement .. => True
  | .endElement .. => v = v.idle ∧ v.outer ≠ []
  | _ => v = v.idle

def Orderly (context : Scope) : Env → List Event → Prop
  | _, [] => True
  | v, e :: es => v.Proper e ∧ Orderly context (v.step context e) es

def run (context : Scope) (v : Env) (es : List Event) : Env := es.foldl (step context) v

end Env

def Meaning.Names (r : Registry) : Meaning → NsId → Prop
  | .given ns, id => id = ns
  | .uri u, id => if u = [] then id = .unknown else r.uri? id = some u

def Meaning.id (r : Registry) : Meaning → NsId
  | .given ns => ns
  | .uri u => if u = [] then .unknown else (r.catalogue.find? u).elim .unknown .numbered

/-- What an event is forwarded as. A start tag and an end tag mean the same by their names when all
of their element's bindings count; for an attribute those before it do. -/
inductive Forwards (r : Registry) (context : Scope) (v : Env) : Event → NsEvent → Prop
  | doctype d : Forwards r context v (.doctype d) (.doctype d)
  | startDeclaration n : Forwards r context v (.startDeclaration n) (.startDeclaration n)
  | endDeclaration n : Forwards r context v (.endDeclaration n) (.endDeclaration n)
  | declarationAttr {n value} : v.inDeclaration = true →
      Forwards r context v (.attr n value) (.declarationAttr n value)
  | attr {ns n value} : v.inDeclaration = false → binding? n value = none →
      (v.meaning context n.qualifier).Names r ns →
      Forwards r context v (.attr n value) (.attr ns n value)
  | startElement {ns n x} : (v.meaning context n.qualifier).Names r ns →
      Forwards r context v (.startElement n x) (.startElement ns n x)
  | endElement {ns n x} : (v.meaning context n.qualifier).Names r ns →
      Forwards r context v (.endElement n x) (.endElement ns n x)
  | characters t : Forwards r context v (.characters t) (.characters t)

inductive Forwarded (r : Registry) (context : Scope) : Env → List Event → List NsEvent → Prop
  | nil {v} : Forwarded r context v [] []
  | forward {v e b es bs} : Forwards r context v e b →
      Forwarded r context (v.step context e) es bs → Forwarded r context v (e :: es) (b :: bs)
  | bind {v n value b es bs} : v.inDeclaration = false → binding? n value = some b →
      Forwarded r context (v.step context (.attr n value)) es bs →
      Forwarded r context v (.attr n value :: es) bs

/-- The fault of an event: an end tag whose id or local name is not that of the innermost element,
or an attribute whose id and local name its tag has had. -/
def Env.fault? (r : Registry) (context : Scope) (v : Env) : Event → Option Error
  | .attr name value =>
    let ns := (v.meaning context name.qualifier).id r
    if v.inDeclaration = false ∧ binding? name value = none ∧
        ∃ a ∈ v.attrs, a.1.id r = ns ∧ a.2 = name.localName then
      some (.malformed (.duplicateAttribute (r.known ns) name.localName) none)
    else none
  | .endElement name extent =>
    let ns := (v.meaning context name.qualifier).id r
    match v.outer with
    | [] => none
    | element :: _ =>
      if (element.meaning.id r, element.localName) = (ns, name.localName) then none
      else some (.malformed (.mismatchedClose (r.known (element.meaning.id r)) element.localName
        (r.known ns) name.localName) (some extent.start))
  | _ => none

def verdict? (r : Registry) (context : Scope) : Env → List Event → Option Error
  | _, [] => none
  | v, e :: es => (v.fault? r context e).or (verdict? r context (v.step context e) es)

end XmlStream.Lexical
