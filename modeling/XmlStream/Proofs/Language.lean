import XmlStream.Proofs.Items
import XmlStream.Proofs.Header
import XmlStream.Proofs.Handing
/-! The accepted language. A document is read without an error exactly when the grammar has it: its
beginning, and items up to the end of the root element or of the document. -/
namespace XmlStream
open Grammar Document

theorem isBody_iff (config : Config) (pos : Nat) (body : Bytes) :
    IsBody Apart config body ↔ ∃ t p rest, body = t ++ rest ∧ Start config pos t p rest ∧
      ∀ place, p.place = some place → Constructs place (pos + t.length) rest := by
  constructor
  · rintro ⟨hb, h⟩
    split at h
    · rename_i hs
      obtain ⟨_, rest, ⟨w, hn, hw, rfl⟩, rfl, hr⟩ := h
      obtain ⟨he, ha, hc⟩ := constructs_of_inside hw
        fun pos => (constructs_iff_items 0 pos rest).2 hr
      refine ⟨utf8 "<?xml", _, w ++ utf8 "?>" ++ rest, ?_, .strict hs he ha, fun place h => ?_⟩
      · simp only [← List.append_assoc]
        rfl
      · cases h
        exact hc _
    · rename_i hs
      refine ⟨[], _, body, rfl, .lenient (by simpa using hs) hb, fun place hp => ?_⟩
      cases hp
      exact (constructs_iff_items 0 _ body).2 h
  · rintro ⟨t, p, rest, rfl, ⟨hs, hr⟩ | ⟨hs, he, ha⟩, hc⟩
    · refine ⟨hr, ?_⟩
      rw [if_neg (by simp [hs])]
      exact (constructs_iff_items 0 _ rest).1 (hc _ rfl)
    · refine ⟨rfl, ?_⟩
      rw [if_pos hs]
      obtain ⟨as, bs, r, has, hbs, rfl, hr⟩ := continues_of_constructs (hc _ rfl)
      have hi := inside_of_apart has hbs (by simpa using ha)
      refine ⟨_, r, ⟨_, Read.name_xml, hi, rfl⟩, ?_, hr⟩
      simp only [← List.append_assoc]
      rfl

/-- Nothing that is accepted is too short to be looked at for its encoding. -/
theorem length_of_isBody {config : Config} {body : Bytes} (h : IsBody Apart config body) :
    4 ≤ body.length := by
  obtain ⟨hb, h⟩ := h
  split at h
  · obtain ⟨_, rest, ⟨w, -, -, rfl⟩, rfl, -⟩ := h
    have : (utf8 "<?" ++ utf8 "xml").length = 5 := rfl
    simp at this ⊢; omega
  · have head {w rest : Bytes} (h : 1 ≤ w.length) (hb : (w ++ rest).head? = some .openAngle) :
        w.head? = some .openAngle := by
      cases w with
      | nil => simp at h
      | cons => exact hb
    cases h with
    | none => cases hb
    | @last _ w rest h =>
      obtain ⟨h₁, h⟩ := length_of_item h
      have := (h (head h₁ hb)).2 (by simp)
      simp; omega
    | @next _ d' w rest h hr =>
      obtain ⟨h₁, h⟩ := length_of_item h
      obtain ⟨h₃, h₄⟩ := h (head h₁ hb)
      by_cases hd : d' = 1
      · subst hd
        have := length_of_items hr
        simp; omega
      · have := h₄ (by simp [hd])
        simp; omega

/-- A document is read to its end without an error exactly when the grammar accepts it. -/
theorem trace_error_iff (config : Config) (doc : Bytes) :
    (trace config doc).error = none ↔ Accepts Apart config doc := by
  have hh : (trace config doc).error = none ↔ ∃ p c, Read.header config (.atStart doc) = .ok p c ∧
      ∀ place, p.place = some place → Constructs place c.pos c.rest := by
    unfold trace
    cases Read.header config (.atStart doc) with
    | error cause c => simp
    | ok p c =>
      refine (Constructs.iff_traceOn p c).trans ⟨fun h => ⟨p, c, rfl, h⟩, ?_⟩
      rintro ⟨_, _, ⟨⟩, h⟩
      exact h
  rw [hh]
  constructor
  · rintro ⟨p, c, h, hc⟩
    obtain ⟨_, rest, hd, rfl, u, v, t, rfl, hu, hv, hs⟩ := (Read.reads_header _ _ _ _).1 h
    have hb : IsBody Apart config (t ++ rest) :=
      (isBody_iff config _ _).2 ⟨t, p, rest, rfl, hs, by simpa [Nat.add_assoc] using hc⟩
    have hl := length_of_isBody hb
    rw [List.append_assoc, Read.marked_iff (by simp at hl ⊢; omega)] at hu
    obtain ⟨hu, hm⟩ := hu
    -- the blanks that are skipped here are none, since the mark stands right before `<`
    obtain rfl : v = [] := by
      cases v with
      | nil => rfl
      | cons b v =>
        obtain rfl : b = .openAngle := by simpa using hm
        exact absurd (hv Byte.openAngle (by simp)) (by decide)
    obtain rfl : doc = u ++ ([] ++ t) ++ rest := hd
    refine ⟨t ++ rest, ?_, hb⟩
    obtain rfl | rfl := hu <;> simp
  · rintro ⟨body, hd, hb⟩
    obtain ⟨u, hu, rfl⟩ : ∃ u, (u = [] ∨ u = Read.byteOrderMark) ∧ doc = u ++ body := by
      obtain rfl | rfl := hd
      · exact ⟨[], .inl rfl, rfl⟩
      · exact ⟨_, .inr rfl, rfl⟩
    have hm := (Read.marked_iff (length_of_isBody hb)).2 ⟨hu, hb.1⟩
    obtain ⟨t, p, rest, rfl, hs, hc⟩ := (isBody_iff config u.length body).1 hb
    have hstart : Start config (0 + u.length + ([] : Bytes).length) t p rest := by simpa using hs
    have hread := (Read.reads_header config (.atStart (u ++ (t ++ rest))) p _).2
      ⟨u ++ t, rest, (List.append_assoc _ _ _).symm, rfl, u, [], t, rfl, hm, by simp [Blanks],
        hstart⟩
    refine ⟨p, _, hread, ?_⟩
    simpa [Cursor.atStart] using hc

/-- A handler that never stops a reading has it end without an error for the documents of the
grammar and for no others. -/
theorem read_error_eq_none_iff {σ : Type} {h : Handler σ Event} (hh : h.Tireless)
    (config : Config) (doc : Bytes) (s : σ) :
    (read config doc h s).error = none ↔ Accepts Apart config doc := by
  rw [read_error, hh.feed, Option.none_or]
  exact trace_error_iff config doc

/-- An empty element is a document. -/
theorem read_emptyElement :
    (read .lenient (utf8 "<a/>") (fun (n : Nat) _ => (n + 1, none)) 0).error = none := by
  refine (read_error_eq_none_iff (fun _ _ => rfl) .lenient (utf8 "<a/>") 0).2
    ⟨utf8 "<a/>" ++ [], .inl rfl, rfl, .last ?_⟩
  have hq : IsQName ⟨[], [97]⟩ := ⟨.inl rfl, 97, [], rfl, rfl, by simp⟩
  have hw : Inside Apart [] := ⟨by simp [Apart], [], [], .nil, by simp [Blanks], rfl⟩
  exact .selfClosing (d := 0) hq hw

/-- Names are read as far as they go: `ab` is not a name and the beginning of an attribute, though
a grammar in which names end anywhere would have it so. -/
theorem anywhere_accepts_more : Accepts Anywhere .lenient (utf8 "<ab=\"c\"/>") ∧
    (read .lenient (utf8 "<ab=\"c\"/>") (fun (n : Nat) _ => (n + 1, none)) 0).error ≠ none := by
  constructor
  · refine ⟨utf8 "<ab=\"c\"/>" ++ [], .inl rfl, rfl, .last ?_⟩
    have ha : IsQName ⟨[], [97]⟩ := ⟨.inl rfl, 97, [], rfl, rfl, by simp⟩
    have hb : IsQName ⟨[], [98]⟩ := ⟨.inl rfl, 98, [], rfl, rfl, by simp⟩
    have hv : Run .quote [99] [99] := .plain (by decide) (by decide) .nil
    have hw : Inside Anywhere (utf8 "b=\"c\"") :=
      ⟨trivial, _, [], .cons (w := []) (by simp [Blanks]) (.mk hb hv) .nil, by simp [Blanks], rfl⟩
    exact .selfClosing (d := 0) ha hw
  · rw [read_error, Ne, Option.or_eq_none_iff, not_and]
    intro _
    have hh : Read.header .lenient (.atStart (utf8 "<ab=\"c\"/>")) =
        .ok ⟨[], some ⟨0, .content⟩⟩ ⟨0, utf8 "<ab=\"c\"/>"⟩ := rfl
    have hs : Read.step ⟨0, .content⟩ ⟨0, utf8 "<ab=\"c\"/>"⟩ =
        .ok ⟨[], some ⟨0, .tag 0 ⟨[], utf8 "ab"⟩⟩⟩ ⟨3, utf8 "=\"c\"/>"⟩ := rfl
    have he : Read.step ⟨0, .tag 0 ⟨[], utf8 "ab"⟩⟩ ⟨3, utf8 "=\"c\"/>"⟩ =
        .error (.nameStart .equals) ⟨3, utf8 "=\"c\"/>"⟩ := rfl
    simp only [trace, hh]
    rw [traceOn_ok (p := ⟨[], some ⟨0, .content⟩⟩) rfl hs, traceOn_error rfl he]
    simp [Trace.prepend]

end XmlStream
