import XmlStream.Document
import XmlStream.Namespace.Resolver
/-! Reading a document with namespaces. What the reading binds is undone when it ends, by the end
tags or, after an error, by unwinding. -/
namespace XmlStream

variable {σ : Type}

structure Resolution (σ : Type) where
  state : σ
  error : Option Error
  registry : Registry
  scope : Scope

def Document.readResolved (config : Config) (doc : Bytes) (registry : Registry) (scope : Scope)
    (h : Handler σ NsEvent) (s : σ) : Resolution σ :=
  let ending := Document.read config doc (Stage.before Resolver.step h) ({ registry, scope }, s)
  let (resolver, s) := ending.state
  let resolver := if ending.error.isSome then resolver.unwind else resolver
  ⟨s, ending.error, resolver.registry, resolver.scope⟩

end XmlStream
