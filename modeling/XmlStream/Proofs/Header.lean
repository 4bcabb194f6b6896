import XmlStream.Proofs.Construct
import XmlStream.Document
/-! The beginning of a document: a mark of its encoding, and what has to be there when it is read
strictly. -/
namespace XmlStream
open Grammar

inductive Start (config : Config) : Read.Shape Progress
  | lenient {pos rest} : config.strict = false → rest.head? = some .openAngle →
      Start config pos [] ⟨[], some ⟨0, .content⟩⟩ rest
  | strict {pos rest} : config.strict = true → rest ≠ [] → Apart rest →
      Start config pos (utf8 "<?xml")
        ⟨[⟨.startDeclaration (utf8 "xml"), pos + 5⟩], some ⟨0, .declaration (utf8 "xml")⟩⟩ rest

namespace Read

/-- What may come first: a byte order mark, or nothing. What is too short is not looked at. -/
def Marked (w rest : Bytes) : Prop :=
  (w = [] ∧ (rest.length < 4 ∨ rest.head? = some .openAngle)) ∨
    (w = byteOrderMark ∧ rest.head? = some .openAngle)

theorem marked_iff {w rest : Bytes} (h : 4 ≤ rest.length) :
    Marked w rest ↔ (w = [] ∨ w = byteOrderMark) ∧ rest.head? = some .openAngle := by
  have : ¬ rest.length < 4 := by omega
  simp only [Marked, this, false_or, ← or_and_right]

theorem reads_encoding : Reads encoding fun _ w _ rest => Marked w rest := by
  intro c a c'
  obtain ⟨pos, text⟩ := c
  unfold encoding
  constructor
  · intro h
    split at h
    · cases h
      rename_i hc
      refine ⟨[], text, rfl, rfl, .inl ⟨rfl, ?_⟩⟩
      simpa [← Bool.not_eq_true, Cursor.has_iff, Cursor.peek?] using hc
    · split at h <;> cases h
      rename_i hb
      rw [Bool.and_eq_true, Cursor.startsWith, List.isPrefixOf_iff_prefix] at hb
      obtain ⟨⟨r, hr⟩, hb⟩ := hb
      obtain rfl : byteOrderMark ++ r = text := hr
      refine ⟨byteOrderMark, r, rfl, rfl, .inr ⟨rfl, ?_⟩⟩
      simpa [Cursor.peekAt?, byteOrderMark, List.head?_eq_getElem?] using hb
  · rintro ⟨w, rest, hw, rfl, ⟨rfl, hr⟩ | ⟨rfl, hr⟩⟩
    · obtain rfl : text = rest := hw
      rw [if_pos (by simpa [← Bool.not_eq_true, Cursor.has_iff, Cursor.peek?] using hr)]
      rfl
    · obtain rfl : text = byteOrderMark ++ rest := hw
      obtain ⟨r, rfl⟩ := List.head?_eq_some_iff.1 hr
      rfl

theorem name_xml : Name (utf8 "xml") := by
  refine ⟨120, [109, 108], by decide, by decide, ?_⟩
  rw [List.forall_mem_cons, List.forall_mem_singleton]
  decide

theorem reads_header (config : Config) : Reads (header config) fun pos w p rest =>
    ∃ u v t, w = u ++ (v ++ t) ∧ Marked u (v ++ t ++ rest) ∧ Blanks v ∧
      Start config (pos + u.length + v.length) t p rest :=
  (reads_encoding.bind fun _ => reads_skipBlank.bind fun _ => .peek fun _ =>
    ((Reads.next fun _ => (reads_openDeclaration 0 _).ite (reads_throw _)).ite
      (reads_pure _)).ite (reads_throw _)).congr fun pos w p rest => by
        constructor
        · rintro ⟨u, _, _, rfl, hu, v, _, t, rfl, ⟨hv, -⟩,
            ⟨ht, ⟨hs, h⟩ | ⟨hs, rfl, rfl⟩⟩ | ⟨-, h⟩⟩
          · obtain ⟨x, _, y, rfl, hy, ⟨rfl, x', n, rfl, hn, he, ha, hx, rfl⟩ | ⟨-, h⟩⟩ := h
            · obtain rfl : x = .openAngle := by simpa using ht
              obtain rfl : x' = .question := by simpa using hy
              obtain rfl := hx _ rfl
              exact ⟨u, v, _, rfl, hu, hv, .strict hs he ha⟩
            · exact h.elim
          · exact ⟨u, v, [], rfl, hu, hv, .lenient (by simpa using hs) (by simpa using ht)⟩
          · exact h.elim
        · rintro ⟨u, v, t, rfl, hu, hv, h⟩
          have ht : (t ++ rest).head? = some .openAngle := by
            cases h with
            | lenient _ hr => exact hr
            | strict => rfl
          have hblank : ∀ b, (t ++ rest).head? = some b → b.isBlank = false := by
            obtain ⟨r, hr⟩ := List.head?_eq_some_iff.1 ht
            rw [hr]
            exact forall_head (by decide)
          refine ⟨u, (), _, rfl, hu, v, (), t, rfl, ⟨hv, hblank⟩, .inl ⟨ht, ?_⟩⟩
          cases h with
          | lenient hs hr => exact .inr ⟨by simp [hs], rfl, rfl⟩
          | strict hs he ha =>
            refine .inl ⟨hs, .openAngle, _, .question, rfl, rfl, .inl ⟨rfl, ?_⟩⟩
            exact ⟨.question, _, rfl, name_xml, he, ha, fun _ h => Option.some.inj h, rfl⟩

end Read

end XmlStream
