import XmlStream.Namespace.Id
import XmlStream.Namespace.Catalogue
/-! Registries give a URI an id, the same one each time. The empty URI is that of no namespace and
gets the unknown id. One that is shared looks a URI up before it inserts. -/
namespace XmlStream

inductive Sharing where
  | exclusive
  | shared
deriving DecidableEq, Repr

structure Registry where
  sharing : Sharing := .exclusive
  catalogue : Catalogue := .empty

namespace Registry

def xmlUri : Bytes := utf8 "http://www.w3.org/XML/1998/namespace"

def size (r : Registry) : Nat := r.catalogue.size

def insert (r : Registry) (uri : Bytes) : Registry × NsId :=
  let (catalogue, index, _) := r.catalogue.insert uri
  ({ r with catalogue }, .numbered index)

def intern (r : Registry) (uri : Bytes) : Registry × NsId :=
  if uri.isEmpty then (r, .unknown)
  else
    match r.sharing with
    | .exclusive => r.insert uri
    | .shared =>
      match r.catalogue.find? uri with
      | some index => (r, .numbered index)
      | none => r.insert uri

/-- Ids for a list that an application knows beforehand, the empty URI included. -/
def predefine (r : Registry) (uris : List Bytes) : Registry × List NsId :=
  let (catalogue, indices) := r.catalogue.predefine uris
  ({ r with catalogue }, indices.map .numbered)

def ofPredefined (sharing : Sharing) (uris : List Bytes) : Registry :=
  (predefine { sharing } uris).1

def uri? (r : Registry) (id : NsId) : Option Bytes := id.index?.bind r.catalogue.get?

def index? (r : Registry) (id : NsId) : Option Nat := id.index?.filter (· < r.size)

def identifier (r : Registry) (index : Nat) : NsId :=
  if index < r.size then .numbered index else .unknown

def known (r : Registry) (id : NsId) : NsId :=
  match r.index? id with
  | some index => .numbered index
  | none => .unknown

def shortName (r : Registry) (id : NsId) : String := (r.known id).label

end Registry
end XmlStream
