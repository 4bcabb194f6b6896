import XmlStream.Error
/-! A cursor: an offset and the bytes from there on. A read moves it forward and answers, or fails
with a cause and leaves it where the fault was found. -/
namespace XmlStream

/-- Past the end of the document `rest` is empty and the offset still counts. -/
structure Cursor where
  pos : Nat
  rest : Bytes
deriving DecidableEq, Repr

namespace Cursor

def atStart (doc : Bytes) : Cursor := ⟨0, doc⟩

def seek (doc : Bytes) (pos : Nat) : Cursor := ⟨pos, doc.drop pos⟩

def advance (c : Cursor) (n : Nat) : Cursor := ⟨c.pos + n, c.rest.drop n⟩

def peek? (c : Cursor) : Option Byte := c.rest.head?
def peekAt? (c : Cursor) (n : Nat) : Option Byte := c.rest[n]?
def remains (c : Cursor) : Nat := c.rest.length
def startsWith (c : Cursor) (text : Bytes) : Bool := text.isPrefixOf c.rest

def has (c : Cursor) (n : Nat) : Bool := n == 0 || !(c.rest.drop (n - 1)).isEmpty

def skipWhile (c : Cursor) (p : Byte → Bool) : Cursor :=
  ⟨c.pos + (c.rest.takeWhile p).length, c.rest.dropWhile p⟩

def skipBlank (c : Cursor) : Cursor := c.skipWhile Byte.isBlank

def find? (c : Cursor) (p : Byte → Bool) : Option Nat := (c.rest.findIdx? p).map (c.pos + ·)

/-- How many bytes precede the first occurrence of `text`, `passed` of them already passed. -/
def occurrence? (text : Bytes) (passed : Nat) : Bytes → Option Nat
  | [] => if text.isEmpty then some passed else none
  | b :: r => if text.isPrefixOf (b :: r) then some passed else occurrence? text (passed + 1) r

def findText? (c : Cursor) (text : Bytes) : Option Nat :=
  (occurrence? text 0 c.rest).map (c.pos + ·)

theorem has_iff (c : Cursor) (n : Nat) : c.has n = true ↔ n ≤ c.rest.length := by
  cases n with
  | zero => exact ⟨fun _ => Nat.zero_le _, fun _ => rfl⟩
  | succ n =>
    change (!(c.rest.drop n).isEmpty) = true ↔ n < c.rest.length
    rw [Bool.not_eq_true', List.isEmpty_eq_false_iff, ne_eq, List.drop_eq_nil_iff, Nat.not_le]

theorem occurrence?_bound {text : Bytes} {rest : Bytes} {passed n : Nat}
    (h : occurrence? text passed rest = some n) :
    passed ≤ n ∧ n + text.length ≤ passed + rest.length := by
  induction rest generalizing passed with
  | nil =>
    simp only [occurrence?, List.isEmpty_iff] at h
    split at h <;> simp_all
  | cons b r ih =>
    simp only [occurrence?] at h
    split at h
    · rename_i hp
      have := (List.isPrefixOf_iff_prefix.mp hp).length_le
      simp at h; simp only [List.length_cons] at this ⊢; omega
    · have := ih h; simp only [List.length_cons]; omega

def Reaches (c c' : Cursor) : Prop :=
  ∃ passed, c.rest = passed ++ c'.rest ∧ c'.pos = c.pos + passed.length

theorem Reaches.refl (c : Cursor) : c.Reaches c := ⟨[], by simp⟩

theorem Reaches.trans {a b c : Cursor} (h : a.Reaches b) (k : b.Reaches c) : a.Reaches c := by
  obtain ⟨u, hu, pu⟩ := h
  obtain ⟨v, hv, pv⟩ := k
  exact ⟨u ++ v, by rw [hu, hv, List.append_assoc], by rw [pv, pu, List.length_append]; omega⟩

theorem Reaches.length_eq {c c' : Cursor} (h : c.Reaches c') :
    c'.pos + c'.rest.length = c.pos + c.rest.length := by
  obtain ⟨u, hu, pu⟩ := h
  simp [hu, pu]; omega

theorem Reaches.length_le {c c' : Cursor} (h : c.Reaches c') :
    c'.rest.length ≤ c.rest.length := by
  obtain ⟨u, hu, -⟩ := h
  simp [hu]

theorem reaches_advance {c : Cursor} {n : Nat} (h : n ≤ c.rest.length) :
    c.Reaches (c.advance n) :=
  ⟨c.rest.take n, by simp [advance], by simp [advance, h]⟩

theorem reaches_skipWhile (c : Cursor) (p : Byte → Bool) : c.Reaches (c.skipWhile p) :=
  ⟨c.rest.takeWhile p, by simp [skipWhile], by simp [skipWhile]⟩

end Cursor
end XmlStream
