import Mathlib.Data.UInt
import XmlStream.Proofs.Namespace.Growing
/-! Pools. A vector has each URI at its index, and a table beside it leads from the URI back to the
index, which is a word. Only inserting keeps the two in step; what they hold together is a
catalogue. -/
namespace XmlStream

structure Pool where
  uris : Array Bytes := #[]
  lookup : Std.HashMap Bytes UInt32 := {}
  predefined : Nat := 0

namespace Pool

def size (p : Pool) : Nat := p.uris.size
def find? (p : Pool) (uri : Bytes) : Option UInt32 := p.lookup[uri]?
def get? (p : Pool) (index : UInt32) : Option Bytes := p.uris[index.toNat]?

def insert (p : Pool) (uri : Bytes) : Pool × UInt32 × Bool :=
  match p.find? uri with
  | some index => (p, index, false)
  | none =>
    let index := UInt32.ofNat p.size
    ({ p with uris := p.uris.push uri, lookup := p.lookup.insert uri index }, index, true)

def insertAll (p : Pool) : List Bytes → Pool × List UInt32
  | [] => (p, [])
  | uri :: more =>
    let (p, index, _) := p.insert uri
    let (p, indices) := insertAll p more
    (p, index :: indices)

def predefine (p : Pool) (uris : List Bytes) : Pool × List UInt32 :=
  let (p, indices) := p.insertAll uris
  ({ p with predefined := max p.predefined p.size }, indices)

/-- A pool holds a catalogue: the URIs are in the vector, and each is in the table with what is left
of its index in a word. -/
structure Holds (p : Pool) (c : Catalogue) : Prop where
  uris : p.uris.toList = c.uris
  find? : ∀ uri, p.find? uri = (c.find? uri).map UInt32.ofNat
  predefined : p.predefined = c.predefined

theorem insert_of_find? {p : Pool} {uri : Bytes} {index : UInt32} (h : p.find? uri = some index) :
    p.insert uri = (p, index, false) := by
  simp only [insert, h]

end Pool

namespace Catalogue

theorem predefined_insert (c : Catalogue) (uri : Bytes) :
    (c.insert uri).1.predefined = c.predefined := by
  unfold insert
  split <;> rfl

/-- What a catalogue finds after a URI that is new to it has been inserted. -/
theorem find?_insert {c : Catalogue} {uri : Bytes} (h : c.find? uri = none) (other : Bytes) :
    (c.insert uri).1.find? other = if uri = other then some c.size else c.find? other := by
  have huris := (uris_insert_of_find? h).1
  have hnew : (c.insert uri).1.find? uri = some c.size := by
    rw [find?_eq_some_iff, get?, huris, size, List.getElem?_concat_length]
  split
  · rename_i he
    rw [← he, hnew]
  · rename_i he
    simp only [find?, huris, List.idxOf?, List.findIdx?_append, List.findIdx?_cons,
      List.findIdx?_nil, beq_eq_false_iff_ne.2 he]
    simp

end Catalogue

namespace Pool

theorem holds_empty : Holds {} .empty where
  uris := rfl
  find? _ := Std.HashMap.getElem?_empty
  predefined := rfl

namespace Holds

variable {p : Pool} {c : Catalogue}

theorem size_eq (h : p.Holds c) : p.size = c.size := by
  rw [size, ← Array.length_toList, h.uris, Catalogue.size]

theorem get?_eq (h : p.Holds c) (index : UInt32) : p.get? index = c.get? index.toNat := by
  rw [get?, ← Array.getElem?_toList, h.uris, Catalogue.get?]

/-- The vector and the table stay in step. -/
theorem insert (h : p.Holds c) (uri : Bytes) :
    (p.insert uri).1.Holds (c.insert uri).1 ∧
      (p.insert uri).2 = (UInt32.ofNat (c.insert uri).2.1, (c.insert uri).2.2) := by
  have hfound := h.find? uri
  cases hc : c.find? uri with
  | some index =>
    rw [hc, Option.map_some] at hfound
    rw [insert_of_find? hfound, Catalogue.insert_of_find? hc]
    exact ⟨h, rfl⟩
  | none =>
    rw [hc, Option.map_none] at hfound
    obtain ⟨huris, hindex⟩ := Catalogue.uris_insert_of_find? hc
    simp only [Pool.insert, hfound, hindex, h.size_eq, and_true]
    refine ⟨?_, fun other => ?_, h.predefined.trans (c.predefined_insert uri).symm⟩
    · rw [Array.toList_push, h.uris, huris]
    · rw [Pool.find?, Std.HashMap.getElem?_insert, Catalogue.find?_insert hc]
      by_cases he : uri = other
      · simp [he]
      · simp only [beq_eq_false_iff_ne.2 he, Bool.false_eq_true, if_false, he]
        exact h.find? other

theorem insertAll (h : p.Holds c) (uris : List Bytes) :
    (p.insertAll uris).1.Holds (c.insertAll uris).1 ∧
      (p.insertAll uris).2 = (c.insertAll uris).2.map UInt32.ofNat := by
  induction uris generalizing p c with
  | nil => exact ⟨h, rfl⟩
  | cons uri uris ih =>
    obtain ⟨hinsert, hindex⟩ := h.insert uri
    obtain ⟨hall, hindices⟩ := ih hinsert
    refine ⟨hall, ?_⟩
    simp only [Pool.insertAll, Catalogue.insertAll, List.map_cons, hindices, hindex]

theorem predefine (h : p.Holds c) (uris : List Bytes) :
    (p.predefine uris).1.Holds (c.predefine uris).1 ∧
      (p.predefine uris).2 = (c.predefine uris).2.map UInt32.ofNat := by
  obtain ⟨hall, hindices⟩ := h.insertAll uris
  have hpredefined : max (p.insertAll uris).1.predefined (p.insertAll uris).1.size =
      max (c.insertAll uris).1.predefined (c.insertAll uris).1.size := by
    rw [hall.predefined, hall.size_eq]
  exact ⟨⟨hall.uris, hall.find?, hpredefined⟩, hindices⟩

/-- As long as an index fits its word, a word is found for a URI where the URI is. -/
theorem find?_eq_some_iff (h : p.Holds c) (room : c.size ≤ 2 ^ 32) {uri : Bytes} {index : UInt32} :
    p.find? uri = some index ↔ p.get? index = some uri := by
  rw [h.find?, h.get?_eq, ← Catalogue.find?_eq_some_iff, Option.map_eq_some_iff]
  constructor
  · rintro ⟨i, hi, rfl⟩
    have hlt : i < c.size := (List.getElem?_eq_some_iff.1 (Catalogue.find?_eq_some_iff.1 hi)).1
    rwa [UInt32.toNat_ofNat_of_lt' (hlt.trans_le room)]
  · intro hi
    exact ⟨_, hi, UInt32.ofNat_toNat⟩

end Holds

/-- A pool in good order. Its vector and its table lead back and forth between URIs and indices, and
go on doing so: a URI that is there already changes nothing, and a new one comes behind the others. -/
structure Faithful (p : Pool) : Prop where
  distinct : p.uris.toList.Nodup
  found : ∀ uri index, p.find? uri = some index ↔ p.get? index = some uri
  added : ∀ uri, (p.insert uri).2.2 = true ↔ uri ∉ p.uris
  kept : ∀ uri ∈ p.uris, (p.insert uri).1 = p
  grown : ∀ uri ∉ p.uris, (p.insert uri).1.uris = p.uris.push uri ∧
    (p.insert uri).2.1.toNat = p.size

theorem Holds.faithful {p : Pool} {c : Catalogue} (h : p.Holds c) (room : c.size < 2 ^ 32) :
    p.Faithful := by
  have hmem (uri : Bytes) : p.find? uri = none ↔ uri ∉ p.uris := by
    rw [h.find?, Option.map_eq_none_iff, ← Array.mem_toList_iff, h.uris]
    simp [Catalogue.find?]
  have hnew (uri : Bytes) (hu : uri ∉ p.uris) : p.insert uri =
      ({ p with uris := p.uris.push uri, lookup := p.lookup.insert uri (UInt32.ofNat p.size) },
        UInt32.ofNat p.size, true) := by
    simp only [Pool.insert, (hmem uri).2 hu]
  have hold (uri : Bytes) (hu : uri ∈ p.uris) : ∃ index, p.insert uri = (p, index, false) := by
    obtain ⟨index, hindex⟩ := Option.ne_none_iff_exists'.1 fun hnone => (hmem uri).1 hnone hu
    exact ⟨index, insert_of_find? hindex⟩
  refine { distinct := ?distinct, found := fun _ _ => h.find?_eq_some_iff room.le,
           added := fun uri => ?added, kept := fun uri hu => ?kept, grown := fun uri hu => ?grown }
  case distinct =>
    rw [h.uris]
    exact c.nodup
  case added =>
    by_cases hu : uri ∈ p.uris
    · obtain ⟨index, hinsert⟩ := hold uri hu
      simp [hinsert, hu]
    · simp [hnew uri hu, hu]
  case kept =>
    obtain ⟨index, hinsert⟩ := hold uri hu
    rw [hinsert]
  case grown =>
    rw [hnew uri hu]
    exact ⟨rfl, UInt32.toNat_ofNat_of_lt' (h.size_eq ▸ room)⟩

end Pool
end XmlStream
