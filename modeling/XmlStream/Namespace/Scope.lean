import XmlStream.Namespace.Registry
import XmlStream.Text.Utf8
/-! Scopes: which ids the qualifiers stand for. A binding hides the older ones of its key until it
is undone; the empty key is that of names without a qualifier. -/
namespace XmlStream

/-- Bindings with the newest first, and the index of every id ever bound. -/
structure Scope where
  bindings : List (Bytes × NsId) := []
  seen : List Nat := []
deriving DecidableEq, Repr

namespace Scope

def empty : Scope := {}

def stack (s : Scope) (key : Bytes) : List NsId :=
  (s.bindings.filter (·.1 == key)).map (·.2)

def note (s : Scope) (id : NsId) : List Nat :=
  match id with
  | .unknown => s.seen
  | .numbered index => if index ∈ s.seen then s.seen else index :: s.seen

def bind (s : Scope) (key : Bytes) (id : NsId) : Scope := ⟨(key, id) :: s.bindings, s.note id⟩

def unbind (s : Scope) (key : Bytes) : Scope :=
  { s with bindings := s.bindings.eraseP (·.1 == key) }

def bound? (s : Scope) (key : Bytes) : Option NsId := (s.stack key).head?

def push (s : Scope) (r : Registry) (key uri : Bytes) : Registry × Scope × NsId :=
  let (r, id) := r.intern uri
  (r, s.bind key id, id)

def pop (s : Scope) (key : Bytes) : Scope × Option NsId := (s.unbind key, s.bound? key)

def resolve (s : Scope) (r : Registry) (key : Bytes) : Registry × NsId :=
  match s.bound? key with
  | some id => (r, id)
  | none => if key = utf8 "xml" then r.intern Registry.xmlUri else (r, .unknown)

def all (s : Scope) : List NsId := (s.seen.mergeSort (· ≤ ·)).map .numbered

def dump (s : Scope) (r : Registry) : String :=
  String.join (s.all.map fun id =>
    match r.uri? id with
    | none => ""
    | some uri => r.shortName id ++ "=\"" ++ Utf8.lossy uri ++ "\"\n")

@[simp] theorem stack_bind_self (s : Scope) (key : Bytes) (id : NsId) :
    (s.bind key id).stack key = id :: s.stack key := by
  simp [stack, bind]

theorem stack_bind_ne (s : Scope) {key other : Bytes} (h : key ≠ other) (id : NsId) :
    (s.bind key id).stack other = s.stack other := by
  simp [stack, bind, h]

@[simp] theorem stack_unbind_self (s : Scope) (key : Bytes) :
    (s.unbind key).stack key = (s.stack key).tail := by
  obtain ⟨bindings, seen⟩ := s
  simp only [stack, unbind]
  induction bindings with
  | nil => rfl
  | cons b bs ih => by_cases h : b.1 = key <;> simp_all

theorem stack_unbind_ne (s : Scope) {key other : Bytes} (h : key ≠ other) :
    (s.unbind key).stack other = s.stack other := by
  obtain ⟨bindings, seen⟩ := s
  simp only [stack, unbind]
  induction bindings with
  | nil => rfl
  | cons b bs ih =>
    by_cases hk : b.1 = key
    · simp [hk, h]
    · by_cases ho : b.1 = other <;> simp_all

end Scope
end XmlStream
