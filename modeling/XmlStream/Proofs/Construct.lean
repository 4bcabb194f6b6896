import XmlStream.Proofs.Reading.Special
/-! Constructs: what one step of reading passes at each place, what it tells of it and where it
leads. The statement is exact, so nothing about a step has to be read off the reader again. -/
namespace XmlStream
open Grammar

def outOf (depth : Nat) : Option Place := (after depth).map (⟨·, .content⟩)

theorem outOf_eq (depth : Nat) :
    outOf depth = if depth = 0 then none else some ⟨depth, .content⟩ := by
  unfold outOf after
  split <;> rfl

/-- From a place and an offset, the bytes passed, the progress, and the bytes that follow. -/
inductive Construct : Place → Read.Shape Progress
  | finish {pos} : Construct ⟨0, .content⟩ pos [] ⟨[], none⟩ []
  | outside {pos w rest} : w ≠ [] → .openAngle ∉ w → rest = [] ∨ rest.head? = some .openAngle →
      Construct ⟨0, .content⟩ pos w ⟨[], some ⟨0, .content⟩⟩ rest
  | text {d pos w v rest} : w ≠ [] → Read.Spelt .openAngle pos w v rest →
      Construct ⟨d + 1, .content⟩ pos w
        ⟨[⟨.characters v, pos + w.length⟩], some ⟨d + 1, .content⟩⟩ rest
  | comment {d pos b rest} : UpTo (utf8 "--") b →
      Construct ⟨d, .content⟩ pos (utf8 "<!--" ++ b ++ utf8 "-->") ⟨[], some ⟨d, .content⟩⟩ rest
  | cdata {d pos b rest} : UpTo (utf8 "]]>") b →
      Construct ⟨d, .content⟩ pos (utf8 "<![CDATA[" ++ b ++ utf8 "]]>")
        ⟨if d = 0 then [] else [⟨.characters (.stable ⟨pos + 9, b⟩), pos + 9 + (b.length + 3)⟩],
          some ⟨d, .content⟩⟩ rest
  | doctype {d pos w t doctype rest} : Blanks w → IsDoctype Apart t doctype →
      Construct ⟨d, .content⟩ pos (utf8 "<!DOCTYPE" ++ w ++ t)
        ⟨[⟨.doctype doctype, pos + 9 + (w ++ t).length⟩], some ⟨d, .content⟩⟩ rest
  | openDeclaration {d pos n rest} : Name n → rest ≠ [] → Apart rest →
      Construct ⟨d, .content⟩ pos (utf8 "<?" ++ n)
        ⟨[⟨.startDeclaration n, pos + 2 + n.length⟩], some ⟨d, .declaration n⟩⟩ rest
  | openTag {d pos name rest} : IsQName name → rest ≠ [] → Apart rest →
      (name.qualifier = [] → rest.head? ≠ some .colon) →
      Construct ⟨d, .content⟩ pos (.openAngle :: name.text) ⟨[], some ⟨d, .tag pos name⟩⟩ rest
  | closeTag {d pos name w rest stop} : IsQName name → Blanks w →
      stop = pos + 3 + (name.text ++ w).length →
      Construct ⟨d + 1, .content⟩ pos (utf8 "</" ++ name.text ++ w ++ [.closeAngle])
        ⟨[⟨.endElement name ⟨pos, stop⟩, stop⟩], outOf d⟩ rest
  | attr {d start name pos w a t v rest stop} : Blanks w → IsQName a →
      Read.Quoted (pos + w.length + a.text.length + 1) t v →
      stop = pos + w.length + a.text.length + 1 + t.length →
      Construct ⟨d, .tag start name⟩ pos (w ++ (a.text ++ .equals :: t))
        ⟨[⟨.attr a v, stop⟩], some ⟨d, .tag start name⟩⟩ rest
  | tagEnd {d start name pos w rest stop} : Blanks w → stop = pos + w.length + 1 →
      Construct ⟨d, .tag start name⟩ pos (w ++ [.closeAngle])
        ⟨[⟨.startElement name ⟨start, stop⟩, stop⟩], some ⟨d + 1, .content⟩⟩ rest
  | selfClose {d start name pos w rest stop} : Blanks w → stop = pos + w.length + 2 →
      Construct ⟨d, .tag start name⟩ pos (w ++ utf8 "/>")
        ⟨[⟨.startElement name ⟨start, stop⟩, stop⟩, ⟨.endElement name ⟨start, stop⟩, stop⟩],
          outOf d⟩ rest
  | declarationAttr {d n pos w a t v rest stop} : Blanks w → IsQName a →
      Read.Quoted (pos + w.length + a.text.length + 1) t v →
      stop = pos + w.length + a.text.length + 1 + t.length →
      Construct ⟨d, .declaration n⟩ pos (w ++ (a.text ++ .equals :: t))
        ⟨[⟨.attr a v, stop⟩], some ⟨d, .declaration n⟩⟩ rest
  | declarationEnd {d n pos w rest} : Blanks w →
      Construct ⟨d, .declaration n⟩ pos (w ++ utf8 "?>")
        ⟨[⟨.endDeclaration n, pos + w.length + 1⟩], some ⟨d, .content⟩⟩ rest

namespace Read

/-! Tags and declarations. -/

theorem reads_expectName (expected : Option Bytes) (found : Bytes) :
    Reads (expectName expected found) fun _ w _ _ =>
      w = [] ∧ ∀ wanted, expected = some wanted → found = wanted := by
  cases expected with
  | none => exact (reads_pure ()).congr fun _ _ _ _ => by simp
  | some wanted =>
    exact ((reads_pure ()).ite (reads_throw _)).congr fun _ _ _ _ => by simp [and_comm]

theorem reads_openDeclaration (depth : Nat) (expected : Option Bytes) :
    Reads (openDeclaration depth expected) fun pos w p rest => ∃ x n, w = x :: n ∧ Name n ∧
      rest ≠ [] ∧ Apart rest ∧ (∀ wanted, expected = some wanted → n = wanted) ∧
      p = ⟨[⟨.startDeclaration n, pos + 1 + n.length⟩], some ⟨depth, .declaration n⟩⟩ :=
  (Reads.next fun _ => Reads.name fun _ => (reads_expectName _ _).bind fun _ =>
    .emit fun _ => reads_pure _).congr fun pos w p rest => by
      constructor
      · rintro ⟨x, _, y, rfl, -, n, _, rfl, hn, he, ha, h⟩
        obtain ⟨_, _, _, rfl, ⟨rfl, hw⟩, rfl, rfl⟩ := h
        exact ⟨x, n, by simp, hn, he, ha, hw, rfl⟩
      · rintro ⟨x, n, rfl, hn, he, ha, hw, rfl⟩
        obtain ⟨y, hy⟩ : ∃ y, (n ++ rest).head? = some y :=
          ⟨_, List.head?_eq_some_head (by simp [he])⟩
        refine ⟨x, n, y, rfl, hy, n, [], by simp, hn, he, ha, ?_⟩
        exact ⟨[], (), [], rfl, ⟨rfl, hw⟩, rfl, rfl⟩

theorem reads_openTag (depth start : Nat) :
    Reads (openTag depth start) fun _ w p rest => ∃ name : QName, w = name.text ∧ IsQName name ∧
      rest ≠ [] ∧ Apart rest ∧ (name.qualifier = [] → rest.head? ≠ some .colon) ∧
      p = ⟨[], some ⟨depth, .tag start name⟩⟩ :=
  (reads_qname.bind fun _ => reads_pure _).congr fun pos w p rest => by
    constructor
    · rintro ⟨_, name, _, rfl, ⟨rfl, hn, he, ha, hc⟩, rfl, rfl⟩
      exact ⟨name, List.append_nil _, hn, he, ha, hc, rfl⟩
    · rintro ⟨name, rfl, hn, he, ha, hc, rfl⟩
      exact ⟨_, name, [], by simp, ⟨rfl, hn, he, ha, hc⟩, rfl, rfl⟩

/-- What holds of blanks and of what comes after some holds where they begin. -/
theorem head_of_blanks {u rest : Bytes} {P : Byte → Prop} (hu : Blanks u)
    (hb : ∀ b, b.isBlank = true → P b) (hr : ∀ b, rest.head? = some b → P b) :
    ∀ b, (u ++ rest).head? = some b → P b := by
  cases u with
  | nil => exact hr
  | cons x u => exact forall_head (hb x (hu x (by simp)))

theorem not_colon_of_blanks {u rest : Bytes} (hu : Blanks u) (hr : rest.head? ≠ some .colon) :
    (u ++ rest).head? ≠ some .colon := fun h =>
  head_of_blanks (P := (· ≠ .colon)) hu (fun b hb he => by subst he; exact absurd hb (by decide))
    (fun b hb he => hr (he ▸ hb)) _ h rfl

theorem reads_closeTag (depth start : Nat) :
    Reads (closeTag depth start) fun pos w p _ => ∃ d name u x, depth = d + 1 ∧
      w = x :: (name.text ++ u ++ [.closeAngle]) ∧ IsQName name ∧ Blanks u ∧
      p = ⟨[⟨.endElement name ⟨start, pos + w.length⟩, pos + w.length⟩], outOf d⟩ := by
  cases depth with
  | zero => exact (reads_throw (α := Progress) .unexpectedClose).congr fun _ _ _ _ => by simp
  | succ d =>
    refine Reads.congr (r := Read.next >>= _) (Reads.next fun _ => reads_qname.bind fun _ =>
      reads_skipBlank.bind fun _ => .current fun _ => (Reads.pass <| .position fun _ =>
        .emit fun _ => reads_pure _).ite (reads_throw _)) fun pos w p rest => ?_
    constructor
    · rintro ⟨x, _, y, rfl, -, _, name, _, rfl, ⟨rfl, hn, -⟩, h⟩
      obtain ⟨u, _, _, rfl, ⟨hu, -⟩, b, hb, ⟨rfl, b, _, rfl, rfl, rfl⟩ | ⟨-, h⟩⟩ := h
      · obtain rfl : b = .closeAngle := by simpa using hb
        refine ⟨d, name, u, x, rfl, by simp, hn, hu, ?_⟩
        simp [outOf_eq, Nat.add_assoc, Nat.add_comm 1]
      · exact h.elim
    · rintro ⟨_, name, u, x, ⟨⟩, rfl, hn, hu, rfl⟩
      obtain ⟨y, hy⟩ : ∃ y, (name.text ++ u ++ [Byte.closeAngle] ++ rest).head? = some y :=
        ⟨_, List.head?_eq_some_head (by simp)⟩
      have hapart : Apart (u ++ ([Byte.closeAngle] ++ rest)) :=
        head_of_blanks hu (fun b => isNameByte_of_isBlank) (forall_head (by decide))
      have hcolon : (u ++ ([Byte.closeAngle] ++ rest)).head? ≠ some .colon :=
        not_colon_of_blanks hu (by simp; decide)
      rw [← List.append_assoc] at hapart hcolon
      refine ⟨x, _, y, rfl, hy, _, name, u ++ [Byte.closeAngle], by simp,
        ⟨rfl, hn, by simp, hapart, fun _ => hcolon⟩, ?_⟩
      refine ⟨u, (), [Byte.closeAngle], rfl, ⟨hu, forall_head (by decide)⟩, _, rfl,
        .inl ⟨rfl, _, [], rfl, rfl, ?_⟩⟩
      simp [outOf_eq, Nat.add_assoc, Nat.add_comm 1]

theorem letter_of_qname {q : QName} (h : IsQName q) :
    ∃ b r, q.text = b :: r ∧ b.isLetter = true := by
  obtain ⟨hq, b, r, hn, hb, -⟩ := h
  unfold QName.text
  split
  · exact ⟨b, r, hn, hb⟩
  · rename_i hne
    obtain ⟨c, s, hs, hc, -⟩ := hq.resolve_left hne
    exact ⟨c, _, by rw [hs]; rfl, hc⟩

theorem not_blank_of_qname {q : QName} (h : IsQName q) (v rest : Bytes) :
    ∀ b, (q.text ++ v ++ rest).head? = some b → b.isBlank = false := by
  obtain ⟨b, r, hb, hl⟩ := letter_of_qname h
  rw [hb]
  exact forall_head (not_blank_of_letter hl)

theorem ne_of_letter {b c : Byte} (hb : b.isLetter = true) (hc : c.isLetter = false) : b ≠ c := by
  rintro rfl
  simp [hb] at hc

theorem reads_tag (depth start : Nat) (name : QName) :
    Reads (tag depth start name) (Construct ⟨depth, .tag start name⟩) :=
  (reads_skipBlank.bind fun _ => .current fun _ =>
    (Reads.next fun _ => (Reads.pass <| .position fun _ => .emit fun _ => .emit fun _ =>
      reads_pure _).ite (reads_throw _)).ite <|
    (Reads.pass <| .position fun _ => .emit fun _ => reads_pure _).ite <|
    reads_attr.bind fun _ => .emit fun _ => reads_pure _).congr fun pos w p rest => by
      constructor
      · rintro ⟨u, _, _, rfl, ⟨hu, -⟩, b, hb, ⟨rfl, h⟩ | ⟨hs, ⟨rfl, h⟩ | ⟨hc, h⟩⟩⟩
        · obtain ⟨x, _, y, rfl, hy, ⟨rfl, y', _, rfl, rfl, rfl⟩ | ⟨-, h⟩⟩ := h
          · obtain rfl : x = .slash := by simpa using hb
            obtain rfl : y' = .closeAngle := by simpa using hy
            simp only [← outOf_eq]
            exact .selfClose hu rfl
          · exact h.elim
        · obtain ⟨x, _, rfl, rfl, rfl⟩ := h
          obtain rfl : x = .closeAngle := by simpa using hb
          exact .tagEnd hu rfl
        · obtain ⟨_, a, _, rfl, ⟨ha, v, rfl, hv⟩, rfl, rfl⟩ := h
          rw [List.append_nil]
          exact .attr hu ha hv (by simp; omega)
      · intro h
        cases h with
        | @attr d start name pos w a t v rest stop hu ha hv hs =>
          obtain ⟨b, r, hb, hl⟩ := letter_of_qname ha
          have hslash : b ≠ .slash := ne_of_letter hl rfl
          have hclose : b ≠ .closeAngle := ne_of_letter hl rfl
          refine ⟨w, (), _, rfl, ⟨hu, not_blank_of_qname ha _ rest⟩, b, by simp [hb],
            .inr ⟨hslash, .inr ⟨hclose, ?_⟩⟩⟩
          exact ⟨_, (a, v), [], by simp, ⟨ha, t, rfl, hv⟩, rfl, by simp; omega⟩
        | tagEnd hu hs =>
          subst hs
          refine ⟨_, (), [Byte.closeAngle], rfl, ⟨hu, forall_head (by decide)⟩, _, rfl,
            .inr ⟨by decide, .inl ⟨rfl, ?_⟩⟩⟩
          exact ⟨_, [], rfl, rfl, by simp⟩
        | selfClose hu hs =>
          subst hs
          refine ⟨_, (), utf8 "/>", rfl, ⟨hu, forall_head (by decide)⟩, _, rfl, .inl ⟨rfl, ?_⟩⟩
          exact ⟨_, [Byte.closeAngle], _, rfl, rfl, .inl ⟨rfl, _, [], rfl, rfl, by simp [outOf_eq]⟩⟩

theorem reads_declaration (depth : Nat) (name : Bytes) :
    Reads (declaration depth name) (Construct ⟨depth, .declaration name⟩) :=
  (reads_skipBlank.bind fun _ => .current fun _ =>
    (Reads.next fun _ => (Reads.emit fun _ => .pass <| reads_pure _).ite (reads_throw _)).ite <|
    reads_attr.bind fun _ => .emit fun _ => reads_pure _).congr fun pos w p rest => by
      constructor
      · rintro ⟨u, _, _, rfl, ⟨hu, -⟩, b, hb, ⟨rfl, h⟩ | ⟨hq, h⟩⟩
        · obtain ⟨x, _, y, rfl, hy, ⟨rfl, y', _, rfl, rfl, rfl⟩ | ⟨-, h⟩⟩ := h
          · obtain rfl : x = .question := by simpa using hb
            obtain rfl : y' = .closeAngle := by simpa using hy
            exact .declarationEnd hu
          · exact h.elim
        · obtain ⟨_, a, _, rfl, ⟨ha, v, rfl, hv⟩, rfl, rfl⟩ := h
          rw [List.append_nil]
          exact .declarationAttr hu ha hv (by simp; omega)
      · intro h
        cases h with
        | @declarationAttr d n pos w a t v rest stop hu ha hv hs =>
          obtain ⟨b, r, hb, hl⟩ := letter_of_qname ha
          have hquestion : b ≠ .question := ne_of_letter hl rfl
          refine ⟨w, (), _, rfl, ⟨hu, not_blank_of_qname ha _ rest⟩, b, by simp [hb],
            .inr ⟨hquestion, ?_⟩⟩
          exact ⟨_, (a, v), [], by simp, ⟨ha, t, rfl, hv⟩, rfl, by simp; omega⟩
        | declarationEnd hu =>
          refine ⟨_, (), utf8 "?>", rfl, ⟨hu, forall_head (by decide)⟩, _, rfl, .inl ⟨rfl, ?_⟩⟩
          exact ⟨_, [Byte.closeAngle], _, rfl, rfl, .inl ⟨rfl, _, [], rfl, rfl, rfl⟩⟩

theorem reads_markup (depth : Nat) : Reads (markup depth) fun pos w p rest =>
    ∃ x v, w = x :: v ∧ Construct ⟨depth, .content⟩ pos (.openAngle :: v) p rest :=
  (Reads.position fun _ => .next fun _ => (reads_closeTag _ _).ite <| (reads_special _).ite <|
    (reads_openDeclaration _ _).ite <| (reads_openTag _ _).ite <| reads_throw _).congr
      fun pos w p rest => by
        have hs : utf8 "</" = [.openAngle, .slash] := by decide
        have hq : utf8 "<?" = [.openAngle, .question] := by decide
        have hc : utf8 "<!--" = .openAngle :: .exclamation :: utf8 "--" := by decide
        have hb : utf8 "<![CDATA[" = .openAngle :: .exclamation :: utf8 "[CDATA[" := by decide
        have ht : utf8 "<!DOCTYPE" = .openAngle :: .exclamation :: utf8 "DOCTYPE" := by decide
        constructor
        · rintro ⟨x, v, y, rfl, hy,
            ⟨rfl, h⟩ | ⟨-, ⟨rfl, h⟩ | ⟨-, ⟨rfl, h⟩ | ⟨-, ⟨-, h⟩ | ⟨-, h⟩⟩⟩⟩⟩
          · obtain ⟨d, name, u, x', rfl, rfl, hn, hu, rfl⟩ := h
            obtain rfl : x' = .slash := by simpa using hy
            refine ⟨x, _, rfl, ?_⟩
            have hw : Byte.openAngle :: .slash :: (name.text ++ u ++ [.closeAngle])
                = utf8 "</" ++ name.text ++ u ++ [.closeAngle] := by simp [hs]
            rw [hw]
            exact .closeTag hn hu (by simp; omega)
          · obtain ⟨x', v, rfl, h⟩ := h
            obtain rfl : x' = .exclamation := by simpa using hy
            refine ⟨x, _, rfl, ?_⟩
            obtain ⟨b, h, rfl, rfl⟩ | ⟨b, h, rfl, rfl⟩ | ⟨u, t, d, hu, h, rfl, rfl⟩ := h
            · have hw : Byte.openAngle :: .exclamation :: (utf8 "--" ++ b ++ utf8 "-->")
                  = utf8 "<!--" ++ b ++ utf8 "-->" := by simp [hc]
              rw [hw]
              exact .comment h
            · have hw : Byte.openAngle :: .exclamation :: (utf8 "[CDATA[" ++ b ++ utf8 "]]>")
                  = utf8 "<![CDATA[" ++ b ++ utf8 "]]>" := by simp [hb]
              rw [hw]
              exact .cdata h
            · have hw : Byte.openAngle :: .exclamation :: (utf8 "DOCTYPE" ++ u ++ t)
                  = utf8 "<!DOCTYPE" ++ u ++ t := by simp [ht]
              rw [hw]
              exact .doctype hu h
          · obtain ⟨x', n, rfl, hn, he, ha, -, rfl⟩ := h
            obtain rfl : x' = .question := by simpa using hy
            refine ⟨x, _, rfl, ?_⟩
            have hw : Byte.openAngle :: .question :: n = utf8 "<?" ++ n := by simp [hq]
            rw [hw]
            exact .openDeclaration hn he ha
          · obtain ⟨name, rfl, hn, he, ha, hc, rfl⟩ := h
            exact ⟨x, _, rfl, .openTag hn he ha hc⟩
          · exact h.elim
        · rintro ⟨x, v, rfl, h⟩
          generalize hw : Byte.openAngle :: v = w at h
          cases h with
          | finish => cases hw
          | outside _ hn => exact (hn (hw ▸ by simp)).elim
          | text _ h =>
            obtain ⟨-, bytes, h, -⟩ := h
            subst hw
            cases h with
            | plain hb => exact (hb rfl).elim
          | @comment d pos b rest h =>
            obtain rfl : v = .exclamation :: (utf8 "--" ++ b ++ utf8 "-->") := by
              simpa [hc] using hw
            exact ⟨x, _, .exclamation, rfl, rfl, .inr ⟨by decide, .inl ⟨rfl, _, _, rfl,
              .inl ⟨b, h, rfl, rfl⟩⟩⟩⟩
          | @cdata d pos b rest h =>
            obtain rfl : v = .exclamation :: (utf8 "[CDATA[" ++ b ++ utf8 "]]>") := by
              simpa [hb] using hw
            exact ⟨x, _, .exclamation, rfl, rfl, .inr ⟨by decide, .inl ⟨rfl, _, _, rfl,
              .inr (.inl ⟨b, h, rfl, rfl⟩)⟩⟩⟩
          | @doctype d pos u t k rest hu h =>
            obtain rfl : v = .exclamation :: (utf8 "DOCTYPE" ++ u ++ t) := by
              simpa [ht] using hw
            exact ⟨x, _, .exclamation, rfl, rfl, .inr ⟨by decide, .inl ⟨rfl, _, _, rfl,
              .inr (.inr ⟨u, t, k, hu, h, rfl, rfl⟩)⟩⟩⟩
          | @openDeclaration d pos n rest hn he ha =>
            obtain rfl : v = .question :: n := by simpa [hq] using hw
            exact ⟨x, _, .question, rfl, rfl, .inr ⟨by decide, .inr ⟨by decide,
              .inl ⟨rfl, _, n, rfl, hn, he, ha, by simp, rfl⟩⟩⟩⟩
          | @openTag d pos name rest hn he ha hc =>
            obtain rfl : v = name.text := by simpa using hw
            obtain ⟨b, r, hb, hl⟩ := letter_of_qname hn
            have hslash : b ≠ .slash := ne_of_letter hl rfl
            have hexclamation : b ≠ .exclamation := ne_of_letter hl rfl
            have hquestion : b ≠ .question := ne_of_letter hl rfl
            exact ⟨x, _, b, rfl, by simp [hb], .inr ⟨hslash, .inr ⟨hexclamation,
              .inr ⟨hquestion, .inl ⟨hl, name, rfl, hn, he, ha, hc, rfl⟩⟩⟩⟩⟩
          | @closeTag d pos name u rest stop hn hu hstop =>
            obtain rfl : v = .slash :: (name.text ++ u ++ [.closeAngle]) := by simpa [hs] using hw
            obtain rfl : stop =
                pos + 1 + (Byte.slash :: (name.text ++ u ++ [.closeAngle])).length := by
              simp at hstop ⊢; omega
            exact ⟨x, _, .slash, rfl, rfl, .inl ⟨rfl, d, name, u, _, rfl, rfl, hn, hu, rfl⟩⟩

/-! Text, what stands outside the root element, and a whole step. -/

theorem Spelt.head_ne {stop b : Byte} {pos : Nat} {w r rest : Bytes} {v : Span}
    (h : Spelt stop pos w v rest) (hs : stop ≠ .ampersand) (hw : w = b :: r) : b ≠ stop := by
  obtain ⟨-, bytes, h, -⟩ := h
  subst hw
  cases h with
  | plain hb => exact hb
  | reference => exact hs.symm

theorem reads_textStep (depth : Nat) : Reads (textStep depth) fun pos w p rest =>
    ∃ v, Spelt .openAngle pos w v rest ∧
      p = ⟨[⟨.characters v, pos + w.length⟩], some ⟨depth, .content⟩⟩ :=
  (reads_text.bind fun _ => .emit fun _ => reads_pure _).congr fun pos w p rest => by
    constructor
    · rintro ⟨u, v, _, rfl, h, rfl, rfl⟩
      rw [List.append_nil]
      exact ⟨v, h, rfl⟩
    · rintro ⟨v, h, rfl⟩
      exact ⟨w, v, [], by simp, h, rfl, rfl⟩

theorem reads_skipOutside : Reads skipOutside fun _ w p rest =>
    .openAngle ∉ w ∧ (rest = [] ∨ rest.head? = some .openAngle) ∧
      p = ⟨[], some ⟨0, .content⟩⟩ :=
  ((reads_upTo _).bind fun _ => reads_pure _).congr fun pos w p rest => by
    constructor
    · rintro ⟨u, _, _, rfl, ⟨hu, hr, rfl⟩, rfl, rfl⟩
      rw [List.append_nil]
      exact ⟨hu, hr, rfl⟩
    · rintro ⟨hw, hr, rfl⟩
      exact ⟨w, w, [], by simp, ⟨hw, hr, rfl⟩, rfl, rfl⟩

/-- In content the first byte tells the end, markup, and what stands between markup apart. -/
theorem content_cases {d pos : Nat} {w rest : Bytes} {p : Progress}
    (h : Construct ⟨d, .content⟩ pos w p rest) :
    (w = [] ∧ rest = [] ∧ d = 0 ∧ p = ⟨[], none⟩) ∨ (∃ v, w = .openAngle :: v) ∨
      ∃ b v, w = b :: v ∧ b ≠ .openAngle ∧
        ((d = 0 ∧ .openAngle ∉ w ∧ (rest = [] ∨ rest.head? = some .openAngle) ∧
          p = ⟨[], some ⟨0, .content⟩⟩) ∨
        d ≠ 0 ∧ ∃ t, Spelt .openAngle pos w t rest ∧
          p = ⟨[⟨.characters t, pos + w.length⟩], some ⟨d, .content⟩⟩) := by
  have hm {text v : Bytes} (ht : text.head? = some .openAngle) :
      ∃ u, text ++ v = .openAngle :: u := by
    obtain ⟨u, rfl⟩ := List.head?_eq_some_iff.1 ht
    exact ⟨u ++ v, rfl⟩
  cases h with
  | finish => exact .inl ⟨rfl, rfl, rfl, rfl⟩
  | @outside pos w rest hne hw hr =>
    obtain ⟨b, v, rfl⟩ := List.exists_cons_of_ne_nil hne
    exact .inr (.inr ⟨b, v, rfl, fun h => hw (h ▸ by simp), .inl ⟨rfl, hw, hr, rfl⟩⟩)
  | @text d pos w t rest hne ht =>
    obtain ⟨b, v, rfl⟩ := List.exists_cons_of_ne_nil hne
    exact .inr (.inr ⟨b, v, rfl, ht.head_ne (by decide) rfl, .inr ⟨by omega, t, ht, rfl⟩⟩)
  | openTag => exact .inr (.inl ⟨_, rfl⟩)
  | openDeclaration => exact .inr (.inl (hm (by decide)))
  | _ =>
    simp only [List.append_assoc]
    exact .inr (.inl (hm (by decide)))

theorem reads_content (depth : Nat) : Reads (content depth) (Construct ⟨depth, .content⟩) := by
  intro c p c'
  obtain ⟨pos, text⟩ := c
  unfold content
  cases text with
  | nil =>
    constructor
    · intro h
      simp only at h
      split at h <;> cases h
      subst depth
      exact ⟨[], [], rfl, rfl, .finish⟩
    · rintro ⟨w, rest, hw, rfl, h⟩
      obtain ⟨rfl, rfl⟩ : w = [] ∧ rest = [] := by simpa using hw.symm
      obtain ⟨-, -, rfl, rfl⟩ | ⟨v, hv⟩ | ⟨b, v, hv, -⟩ := content_cases h
      · rfl
      · cases hv
      · cases hv
  | cons b r =>
    by_cases hb : b = .openAngle
    · subst hb
      simp only [if_true]
      rw [reads_markup depth ⟨pos, _⟩]
      constructor
      · rintro ⟨_, rest, hw, rfl, x, v, rfl, h⟩
        obtain ⟨rfl, rfl⟩ : Byte.openAngle = x ∧ r = v ++ rest := by simpa using hw
        exact ⟨_, rest, rfl, rfl, h⟩
      · rintro ⟨w, rest, hw, rfl, h⟩
        obtain ⟨rfl, rfl, -⟩ | ⟨v, rfl⟩ | ⟨x, v, rfl, hx, -⟩ := content_cases h
        · cases hw
        · exact ⟨_, rest, hw, rfl, _, v, rfl, h⟩
        · exact (hx (by simpa using congrArg List.head? hw.symm)).elim
    · simp only [hb, if_false]
      by_cases hd : depth = 0
      · subst hd
        simp only [if_true]
        rw [reads_skipOutside ⟨pos, _⟩]
        constructor
        · rintro ⟨w, rest, hw, rfl, hn, hr, rfl⟩
          refine ⟨w, rest, hw, rfl, .outside ?_ hn hr⟩
          rintro rfl
          obtain rfl : b :: r = rest := hw
          simp [hb] at hr
        · rintro ⟨w, rest, hw, rfl, h⟩
          obtain ⟨rfl, rfl, -⟩ | ⟨v, rfl⟩ | ⟨x, v, rfl, -, ⟨-, h⟩ | ⟨h, -⟩⟩ := content_cases h
          · cases hw
          · exact (hb (by simpa using congrArg List.head? hw)).elim
          · exact ⟨_, rest, hw, rfl, h⟩
          · exact (h rfl).elim
      · simp only [hd, if_false]
        rw [reads_textStep depth ⟨pos, _⟩]
        constructor
        · rintro ⟨w, rest, hw, rfl, t, ht, rfl⟩
          obtain ⟨d, rfl⟩ := Nat.exists_eq_succ_of_ne_zero hd
          refine ⟨w, rest, hw, rfl, .text ?_ ht⟩
          rintro rfl
          obtain rfl : b :: r = rest := hw
          simpa [hb] using ht.1
        · rintro ⟨w, rest, hw, rfl, h⟩
          obtain ⟨-, -, rfl, -⟩ | ⟨v, rfl⟩ | ⟨x, v, rfl, -, ⟨rfl, -⟩ | ⟨-, h⟩⟩ := content_cases h
          · exact (hd rfl).elim
          · exact (hb (by simpa using congrArg List.head? hw)).elim
          · exact (hd rfl).elim
          · exact ⟨_, rest, hw, rfl, h⟩

theorem reads_step (place : Place) : Reads (step place) (Construct place) := by
  obtain ⟨depth, phase⟩ := place
  cases phase with
  | content => exact reads_content depth
  | tag start name => exact reads_tag depth start name
  | declaration name => exact reads_declaration depth name

end Read
end XmlStream
