import XmlStream.Namespace.Document
import XmlStream.Vocabulary.Batch
/-! Reading a document with tokens. -/
namespace XmlStream

variable {σ : Type}

def Document.readTokens (config : Config) (doc : Bytes) (lexicon : Lexicon) (registry : Registry)
    (scope : Scope) (h : Handler σ TokenEvent) (s : σ) : Resolution σ :=
  let r := readResolved config doc registry scope (Stage.before (Batch.step lexicon) h) (.empty, s)
  ⟨r.state.2, r.error, r.registry, r.scope⟩

end XmlStream
