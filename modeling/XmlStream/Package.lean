import XmlStream.Namespace.Document
/-! Packages: several documents read over one registry, each with a scope and a handler state of its
own. A document that fails says so in its place and leaves the others alone. -/
namespace XmlStream

variable {σ : Type}

namespace Package

def readFrom (config : Config) (h : Handler σ NsEvent) (start : Nat → σ) (index : Nat)
    (registry : Registry) : List Bytes → List (Except Error σ) × Registry
  | [] => ([], registry)
  | doc :: docs =>
    let r := Document.readResolved config doc registry .empty h (start index)
    let result := match r.error with
      | none => .ok r.state
      | some e => .error e
    let (results, registry) := readFrom config h start (index + 1) r.registry docs
    (result :: results, registry)

def read (config : Config) (h : Handler σ NsEvent) (start : Nat → σ) (registry : Registry)
    (docs : List Bytes) : List (Except Error σ) × Registry :=
  readFrom config h start 0 registry docs

end Package
end XmlStream
