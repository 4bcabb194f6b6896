import XmlStream.Byte
/-! A catalogue of URIs: each is kept once, at an index that never changes. -/
namespace XmlStream

/-- `predefined` is how many URIs the catalogue held when the last list known beforehand was in. -/
structure Catalogue where
  uris : List Bytes
  predefined : Nat
  nodup : uris.Nodup

namespace Catalogue

def empty : Catalogue := ⟨[], 0, List.nodup_nil⟩
def size (c : Catalogue) : Nat := c.uris.length
def find? (c : Catalogue) (uri : Bytes) : Option Nat := c.uris.idxOf? uri
def get? (c : Catalogue) (index : Nat) : Option Bytes := c.uris[index]?

def insert (c : Catalogue) (uri : Bytes) : Catalogue × Nat × Bool :=
  match h : c.find? uri with
  | some index => (c, index, false)
  | none =>
    let grown : Catalogue := {
      uris := c.uris ++ [uri]
      predefined := c.predefined
      nodup := by
        have hu : uri ∉ c.uris := by simpa [find?] using h
        simp only [List.nodup_append, List.mem_singleton]
        exact ⟨c.nodup, by simp, fun a ha b hb => by subst hb; exact fun e => hu (e ▸ ha)⟩ }
    (grown, c.size, true)

def insertAll (c : Catalogue) : List Bytes → Catalogue × List Nat
  | [] => (c, [])
  | uri :: more =>
    let (c, index, _) := c.insert uri
    let (c, indices) := insertAll c more
    (c, index :: indices)

/-- A list that an application knows beforehand: all that the catalogue then holds counts as
known. -/
def predefine (c : Catalogue) (uris : List Bytes) : Catalogue × List Nat :=
  let (c, indices) := c.insertAll uris
  ({ c with predefined := max c.predefined c.size }, indices)

/-- A URI is found where it stands and nowhere else. -/
theorem find?_eq_some_iff {c : Catalogue} {uri : Bytes} {index : Nat} :
    c.find? uri = some index ↔ c.get? index = some uri := by
  simp only [find?, get?, List.idxOf?, List.findIdx?_eq_some_iff_getElem, beq_iff_eq]
  constructor
  · rintro ⟨h, hu, -⟩
    exact List.getElem?_eq_some_iff.2 ⟨h, hu⟩
  · intro h
    obtain ⟨hi, hu⟩ := List.getElem?_eq_some_iff.1 h
    refine ⟨hi, hu, fun j hj he => ?_⟩
    exact List.pairwise_iff_getElem.1 c.nodup j index _ hi hj (he.trans hu.symm)

theorem insert_of_find? {c : Catalogue} {uri : Bytes} {index : Nat} (h : c.find? uri = some index) :
    c.insert uri = (c, index, false) := by
  unfold insert
  split <;> simp_all

theorem uris_insert_of_find? {c : Catalogue} {uri : Bytes} (h : c.find? uri = none) :
    (c.insert uri).1.uris = c.uris ++ [uri] ∧ (c.insert uri).2 = (c.size, true) := by
  unfold insert
  split <;> simp_all

end Catalogue
end XmlStream
