/-! Namespace ids: the index at which a registry keeps a URI, or unknown where a name has none. -/
namespace XmlStream

inductive NsId where
  | unknown
  | numbered (index : Nat)
deriving DecidableEq, Repr, Inhabited

namespace NsId

def isUnknown : NsId → Bool
  | unknown => true
  | numbered _ => false

def index? : NsId → Option Nat
  | unknown => none
  | numbered i => some i

def label : NsId → String
  | unknown => "???"
  | numbered i => s!"ns{i}"

end NsId
end XmlStream
