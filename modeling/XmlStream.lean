import XmlStream.Document.Trace
import XmlStream.Package
import XmlStream.Record.Collect
import XmlStream.Proofs.Language
import XmlStream.Proofs.Namespace.Restoring
import XmlStream.Proofs.Namespace.Verdict
import XmlStream.Proofs.Namespace.Filtering
import XmlStream.Proofs.Batching
import XmlStream.Proofs.Namespace.Renumbering
import XmlStream.Proofs.Stopping
import XmlStream.Proofs.Protocol
import XmlStream.Proofs.Reader
import XmlStream.Proofs.Rendering
import XmlStream.Proofs.Reader.Scanning
import XmlStream.Proofs.Reader.Running
import XmlStream.Proofs.Namespace.Growing
import XmlStream.Proofs.Repeating
import XmlStream.Proofs.Shifting
import XmlStream.Proofs.Strictness
import XmlStream.Proofs.Trailing
import XmlStream.Proofs.Namespace.Interning
import XmlStream.Proofs.Decoding
import XmlStream.Proofs.Escapes
import XmlStream.Proofs.Extents
import XmlStream.Proofs.Namespace.Matching
import XmlStream.Proofs.Namespace.Marking
import XmlStream.Proofs.Waiting
import XmlStream.Proofs.Characters
import XmlStream.Proofs.Numerals
import XmlStream.Proofs.Namespace.Identity
import XmlStream.Proofs.Namespace.Predefining
import XmlStream.Proofs.Namespace.Using
import XmlStream.Proofs.Namespace.Stacking
import XmlStream.Proofs.Numbering
import XmlStream.Proofs.Labelling
import XmlStream.Proofs.Namespace.Wording
import XmlStream.Proofs.Filling
