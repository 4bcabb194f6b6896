import XmlStream.Handler
import XmlStream.Namespace.Event
import XmlStream.Namespace.Scope
/-! Resolving: a stage that keeps the scope of the open elements, gives names their ids, and checks
that an end tag names the element it closes and that no start tag has an attribute twice. -/
namespace XmlStream

/-- An open element: its id and local name, and how many keys were held before its own. -/
structure Frame where
  ns : NsId
  localName : Bytes
  keysFrom : Nat
deriving DecidableEq, Repr

/-- `frames` has the innermost element first. `keys` are those bound here and not undone, the oldest
first; from `pendingFrom` on they belong to a start tag that has not ended. `seen` are the names of
that tag's attributes. -/
structure Resolver where
  registry : Registry
  scope : Scope
  frames : List Frame := []
  keys : List Bytes := []
  pendingFrom : Nat := 0
  seen : List (NsId × Bytes) := []
  inDeclaration : Bool := false

namespace Resolver

def xmlns : Bytes := utf8 "xmlns"

def depth (r : Resolver) : Nat := r.frames.length

def resolve (r : Resolver) (qualifier : Bytes) : Resolver × NsId :=
  let (registry, ns) := r.scope.resolve r.registry qualifier
  ({ r with registry }, ns)

def declare (r : Resolver) (key uri : Bytes) : Resolver :=
  let (registry, scope, _) := r.scope.push r.registry key uri
  { r with registry, scope, keys := r.keys ++ [key] }

/-- Undoes the bindings of all keys held but the first `n`, the newest first. -/
def release (r : Resolver) (n : Nat) : Resolver :=
  { r with
    scope := (r.keys.drop n).reverse.foldl Scope.unbind r.scope
    keys := r.keys.take n
    pendingFrom := (r.keys.take n).length }

def unwind (r : Resolver) : Resolver :=
  { r.release 0 with frames := [], seen := [], inDeclaration := false }

def attr (r : Resolver) (name : QName) (value : Span) : Resolver × Passing NsEvent :=
  if r.inDeclaration then (r, .deliver (.declarationAttr name value))
  else if name.qualifier = [] ∧ name.localName = xmlns then (r.declare [] value.bytes, .absorb)
  else if name.qualifier = xmlns then (r.declare name.localName value.bytes, .absorb)
  else
    let (r, ns) := r.resolve name.qualifier
    if (ns, name.localName) ∈ r.seen then
      (r, .reject (.malformed (.duplicateAttribute (r.registry.known ns) name.localName) none))
    else
      ({ r with seen := (ns, name.localName) :: r.seen }, .deliver (.attr ns name value))

def startElement (r : Resolver) (name : QName) (extent : Extent) : Resolver × Passing NsEvent :=
  let (r, ns) := r.resolve name.qualifier
  ({ r with
      frames := ⟨ns, name.localName, r.pendingFrom⟩ :: r.frames
      pendingFrom := r.keys.length
      seen := [] },
    .deliver (.startElement ns name extent))

/-- The tag is resolved before the bindings of its element are undone. -/
def endElement (r : Resolver) (name : QName) (extent : Extent) : Resolver × Passing NsEvent :=
  let (r, ns) := r.resolve name.qualifier
  match r.frames with
  | [] => (r, .reject (.malformed .unexpectedClose (some extent.start)))
  | frame :: frames =>
    let r := { r with frames }
    if frame.ns = ns ∧ frame.localName = name.localName then
      (r.release frame.keysFrom, .deliver (.endElement ns name extent))
    else
      (r, .reject (.malformed
        (.mismatchedClose (r.registry.known frame.ns) frame.localName (r.registry.known ns)
          name.localName) (some extent.start)))

def step (r : Resolver) : Event → Resolver × Passing NsEvent
  | .doctype d => (r, .deliver (.doctype d))
  | .startDeclaration name => ({ r with inDeclaration := true }, .deliver (.startDeclaration name))
  | .endDeclaration name => ({ r with inDeclaration := false }, .deliver (.endDeclaration name))
  | .attr name value => r.attr name value
  | .startElement name extent => r.startElement name extent
  | .endElement name extent => r.endElement name extent
  | .characters text => (r, .deliver (.characters text))

end Resolver
end XmlStream
