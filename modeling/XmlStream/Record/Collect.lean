import XmlStream.Record
import XmlStream.Vocabulary.Document
/-! Collecting: handlers that keep records, and readings that answer all of them or an error. -/
namespace XmlStream

variable {α : Type}

namespace Record

def collector (records : α → List Record) : Handler (Array Record) α :=
  fun kept a => (kept ++ records a, none)

def collected (kept : Array Record) : Option Error → Except Error (List Record)
  | none => .ok kept.toList
  | some e => .error e

end Record

namespace Document

def records (config : Config) (doc : Bytes) : Except Error (List Record) :=
  let e := read config doc (Record.collector Record.ofEvent) #[]
  Record.collected e.state e.error

def resolvedRecords (config : Config) (doc : Bytes) (registry : Registry) (scope : Scope) :
    Except Error (List Record) × Registry × Scope :=
  let r := readResolved config doc registry scope (Record.collector Record.ofNsEvent) #[]
  (Record.collected r.state r.error, r.registry, r.scope)

def tokenRecords (config : Config) (doc : Bytes) (words uris : Vocabulary) (registry : Registry)
    (scope : Scope) : Except Error (List Record) × Registry × Scope :=
  let (registry, lexicon) := Lexicon.prepare words uris registry
  let r := readTokens config doc lexicon registry scope (Record.collector Record.ofTokenEvent) #[]
  (Record.collected r.state r.error, r.registry, r.scope)

end Document
end XmlStream
