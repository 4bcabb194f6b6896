import XmlStream.Proofs.Reading.Value
/-! Comments, character sections and document types: what is read of each. A search stops at the
first occurrence of its text and nowhere else. -/
namespace XmlStream

namespace Grammar

theorem upTo_cons {text body : Bytes} {b : Byte} :
    UpTo text (b :: body) ↔ ¬ text <+: b :: (body ++ text) ∧ UpTo text body := by
  constructor
  · intro h
    exact ⟨h 0 (by simp), fun n hn => h (n + 1) (by simpa using hn)⟩
  · rintro ⟨h₀, h⟩ (_ | n) hn
    · exact h₀
    · exact h n (by simpa using hn)

theorem prefix_append_iff {text u r : Bytes} (h : text.length ≤ u.length) :
    text <+: u ++ r ↔ text <+: u :=
  ⟨fun ht => List.prefix_of_prefix_length_le ht (List.prefix_append u r) h,
    fun ht => ht.trans (List.prefix_append u r)⟩

theorem occurrence?_eq_some_iff {text rest : Bytes} (ht : text ≠ []) {passed n : Nat} :
    Cursor.occurrence? text passed rest = some n ↔
      ∃ body r, rest = body ++ text ++ r ∧ n = passed + body.length ∧ UpTo text body := by
  induction rest generalizing passed with
  | nil => simp [Cursor.occurrence?, ht]
  | cons x rest ih =>
    rw [Cursor.occurrence?]
    split
    · rename_i hp
      rw [List.isPrefixOf_iff_prefix] at hp
      constructor
      · rintro ⟨⟩
        obtain ⟨r, hr⟩ := hp
        exact ⟨[], r, hr.symm, rfl, fun n hn => by simp at hn⟩
      · rintro ⟨_ | ⟨b, body⟩, r, hr, rfl, hu⟩
        · rfl
        · rw [hr, prefix_append_iff (by simp; omega)] at hp
          exact ((upTo_cons.1 hu).1 hp).elim
    · rename_i hp
      rw [List.isPrefixOf_iff_prefix] at hp
      rw [ih]
      constructor
      · rintro ⟨body, r, rfl, rfl, hu⟩
        refine ⟨x :: body, r, rfl, by simp; omega, upTo_cons.2 ⟨fun h => hp ?_, hu⟩⟩
        exact h.trans (List.prefix_append _ r)
      · rintro ⟨_ | ⟨b, body⟩, r, hr, rfl, hu⟩
        · exact (hp ⟨r, hr.symm⟩).elim
        · obtain ⟨rfl, rfl⟩ : x = b ∧ rest = body ++ text ++ r := by simpa using hr
          exact ⟨body, r, rfl, by simp; omega, (upTo_cons.1 hu).2⟩

end Grammar
namespace Read
open Grammar

theorem advance_append {pos n : Nat} {u rest : Bytes} (h : n = u.length) :
    Cursor.advance ⟨pos, u ++ rest⟩ n = ⟨pos + u.length, rest⟩ := by
  simp [Cursor.advance, h]

theorem reads_comment :
    Reads comment fun _ w _ _ => ∃ b, UpTo (utf8 "--") b ∧ w = b ++ utf8 "-->" := by
  intro c a c'
  obtain ⟨pos, text⟩ := c
  have hd : utf8 "-->" = utf8 "--" ++ [.closeAngle] := by decide
  unfold comment
  constructor
  · intro h
    simp only at h
    split at h
    · cases h
    · rename_i n hn
      obtain ⟨b, r, rfl, rfl, hu⟩ := (occurrence?_eq_some_iff (by decide)).1 hn
      rw [advance_append (by simp; rfl)] at h
      split at h <;> cases h
      rename_i hp
      obtain ⟨r, rfl⟩ := List.head?_eq_some_iff.1 hp
      refine ⟨b ++ utf8 "-->", r, by simp [hd], ?_, b, hu, rfl⟩
      simp [Cursor.advance, hd]; omega
  · rintro ⟨w, rest, hw, rfl, b, hu, rfl⟩
    obtain rfl : text = b ++ utf8 "--" ++ .closeAngle :: rest := by simpa [hd] using hw
    rw [(occurrence?_eq_some_iff (by decide)).2 ⟨b, _, rfl, rfl, hu⟩]
    simp only
    rw [advance_append (by simp; rfl)]
    simp [Cursor.peek?, Cursor.advance, hd]; omega

theorem reads_cdata :
    Reads cdata fun pos w s _ => UpTo (utf8 "]]>") s.bytes ∧ w = s.bytes ++ utf8 "]]>" ∧
      s.offset = pos := by
  intro c a c'
  obtain ⟨pos, text⟩ := c
  unfold cdata
  constructor
  · intro h
    simp only at h
    split at h <;> cases h
    rename_i n hn
    obtain ⟨b, r, rfl, rfl, hu⟩ := (occurrence?_eq_some_iff (by decide)).1 hn
    refine ⟨b ++ utf8 "]]>", r, rfl, advance_append (by simp; rfl), ?_⟩
    simpa using hu
  · rintro ⟨w, rest, hw, rfl, hu, rfl, rfl⟩
    obtain ⟨pos, b⟩ := a
    obtain rfl : text = b ++ utf8 "]]>" ++ rest := hw
    rw [(occurrence?_eq_some_iff (by decide)).2 ⟨b, _, rfl, rfl, hu⟩]
    simp only
    rw [advance_append (by simp; rfl)]
    simp

theorem startsWith_iff {pos : Nat} {text rest : Bytes} :
    Cursor.startsWith ⟨pos, rest⟩ text = true ↔ ∃ r, rest = text ++ r := by
  rw [Cursor.startsWith, List.isPrefixOf_iff_prefix]
  exact ⟨fun ⟨r, hr⟩ => ⟨r, hr.symm⟩, fun ⟨r, hr⟩ => ⟨r, hr.symm⟩⟩

theorem reads_expectNext (text : String) :
    Reads (expectNext text) fun _ w _ _ => ∃ x, w = x :: utf8 text := by
  intro c a c'
  obtain ⟨pos, t⟩ := c
  unfold expectNext
  constructor
  · intro h
    split at h
    · cases h
    · rename_i hn
      split at h <;> cases h
      rename_i hs
      cases t with
      | nil => simp [Cursor.has_iff] at hn
      | cons x t =>
        obtain ⟨r, rfl⟩ : ∃ r, t = utf8 text ++ r := by
          simpa [Cursor.advance, startsWith_iff] using hs
        exact ⟨x :: utf8 text, r, rfl, by simp [Cursor.advance], x, rfl⟩
  · rintro ⟨w, rest, hw, rfl, x, rfl⟩
    obtain rfl : t = x :: utf8 text ++ rest := hw
    have hn : Cursor.has ⟨pos, x :: (utf8 text ++ rest)⟩ ((utf8 text).length + 1) = true :=
      (Cursor.has_iff _ _).2 (by simp)
    have hs : Cursor.startsWith ⟨pos + 1, utf8 text ++ rest⟩ (utf8 text) = true :=
      startsWith_iff.2 ⟨rest, rfl⟩
    simp [hn, Cursor.advance, hs]

theorem reads_identifier : Reads identifier fun _ w k _ => w = keyword k := by
  intro c a c'
  obtain ⟨pos, text⟩ := c
  unfold identifier
  constructor
  · intro h
    split at h
    · cases h
    · split at h
      · cases h
        rename_i hs
        obtain ⟨r, rfl⟩ := startsWith_iff.1 hs
        exact ⟨_, r, rfl, advance_append (by rfl), rfl⟩
      · split at h <;> cases h
        rename_i hs
        obtain ⟨r, rfl⟩ := startsWith_iff.1 hs
        exact ⟨_, r, rfl, advance_append (by rfl), rfl⟩
  · rintro ⟨w, rest, hw, rfl, rfl⟩
    obtain rfl : text = keyword a ++ rest := hw
    have hn : Cursor.has ⟨pos, keyword a ++ rest⟩ 6 = true :=
      (Cursor.has_iff _ _).2 (by cases a <;> simp [keyword] <;> exact Nat.le_add_right 6 _)
    have hs : Cursor.startsWith ⟨pos, keyword a ++ rest⟩ (keyword a) = true :=
      startsWith_iff.2 ⟨rest, rfl⟩
    rw [if_neg (by simp [hn])]
    cases a with
    | publicId =>
      change Cursor.startsWith _ (utf8 "PUBLIC") = true at hs
      rw [if_pos hs, advance_append (by rfl)]
    | systemId =>
      change Cursor.startsWith _ (utf8 "SYSTEM") = true at hs
      have hp : ¬ Cursor.startsWith ⟨pos, keyword .systemId ++ rest⟩ (utf8 "PUBLIC") = true :=
        Bool.false_ne_true
      rw [if_neg hp, if_pos hs, advance_append (by rfl)]

theorem reads_gap : Reads gap fun _ w _ rest =>
    Blanks w ∧ rest ≠ [] ∧ ∀ b, rest.head? = some b → b.isBlank = false :=
  (Reads.require (reads_skipBlank.bind fun _ => reads_require _ _)).congr fun pos w a rest => by
    rw [← List.length_pos_iff]
    constructor
    · rintro ⟨-, u, _, _, rfl, ⟨hu, hb⟩, rfl, hr⟩
      rw [List.append_nil]
      exact ⟨hu, hr, hb⟩
    · rintro ⟨hw, hr, hb⟩
      refine ⟨by simp; omega, w, (), [], by simp, ⟨hw, hb⟩, rfl, hr⟩

theorem reads_doctypeUri : Reads doctypeUri fun _ w uri rest =>
    Second w uri ∧ rest.head? = some .closeAngle :=
  (Reads.peek fun _ => (reads_pure _).ite <| reads_literal.bind fun _ => reads_gap.bind fun _ =>
    .peek fun _ => (reads_pure _).ite (reads_throw _)).congr fun pos w uri rest => by
      constructor
      · rintro (⟨hr, rfl, rfl⟩ | ⟨-, h⟩)
        · exact ⟨.absent, hr⟩
        · obtain ⟨_, a, _, rfl, ⟨rfl, ha⟩, g, _, _, rfl, ⟨hg, -⟩, ⟨hr, rfl, rfl⟩ | ⟨-, h⟩⟩ := h
          · rw [List.append_nil]
            exact ⟨.present ha hg, hr⟩
          · exact h.elim
      · rintro ⟨_ | @⟨a, g, ha, hg⟩, hr⟩
        · exact .inl ⟨hr, rfl, rfl⟩
        · obtain ⟨r, rfl⟩ := List.head?_eq_some_iff.1 hr
          have hquote : ((quoted a ++ g) ++ Byte.closeAngle :: r).head? ≠ some .closeAngle := by
            simp [quoted]; decide
          refine .inr ⟨hquote, quoted a, a, g, rfl, ⟨rfl, ha⟩, ?_⟩
          exact ⟨g, (), [], by simp, ⟨hg, by simp, forall_head (by decide)⟩, .inl ⟨rfl, rfl, rfl⟩⟩

theorem apart_keyword_iff {w v rest : Bytes} {k : Identifier} :
    Apart (w ++ (keyword k ++ v) ++ rest) ↔ Apart (w ++ keyword k) := by
  cases w with
  | nil => cases k <;> rfl
  | cons => rfl

theorem not_blank_of_keyword (k : Identifier) (v rest : Bytes) :
    ∀ b, (keyword k ++ v ++ rest).head? = some b → b.isBlank = false := by
  cases k <;> exact forall_head (by decide)

theorem not_blank_of_second {t rest : Bytes} {uri : Option Bytes} (h : Second t uri) :
    ∀ b, (t ++ [Byte.closeAngle] ++ rest).head? = some b → b.isBlank = false := by
  cases h <;> exact forall_head (by decide)

theorem reads_doctype : Reads doctype fun _ w d _ => IsDoctype Apart w d :=
  (Reads.name fun _ => reads_skipBlank.bind fun _ => reads_identifier.bind fun _ =>
    reads_gap.bind fun _ => reads_literal.bind fun _ => reads_gap.bind fun _ =>
    reads_doctypeUri.bind fun _ => .pass (reads_pure _)).congr fun pos w d rest => by
      constructor
      · rintro ⟨root, _, rfl, hn, -, ha, w₁, _, _, rfl, ⟨h₁, -⟩, _, k, _, rfl, rfl, h⟩
        obtain ⟨w₂, _, _, rfl, ⟨h₂, -⟩, _, fpi, _, rfl, ⟨rfl, hf⟩, h⟩ := h
        obtain ⟨w₃, _, _, rfl, ⟨h₃, -⟩, t, uri, _, rfl, ⟨ht, hr⟩, x, _, rfl, rfl, rfl⟩ := h
        obtain rfl : x = .closeAngle := by simpa using hr
        exact .mk (d := ⟨k, root, fpi, uri⟩) hn h₁ (apart_keyword_iff.1 ha) h₂ hf h₃ ht
      · rintro @⟨d, w₁, w₂, w₃, t, hn, h₁, ha, h₂, hf, h₃, ht⟩
        refine ⟨d.root, _, rfl, hn, by simp, apart_keyword_iff.2 ha, w₁, (), _, rfl,
          ⟨h₁, not_blank_of_keyword d.keyword _ rest⟩, _, d.keyword, _, rfl, rfl, ?_⟩
        refine ⟨w₂, (), _, rfl, ⟨h₂, by simp [quoted], forall_head (by decide)⟩,
          _, d.fpi, _, rfl, ⟨rfl, hf⟩, ?_⟩
        exact ⟨w₃, (), _, rfl, ⟨h₃, by simp, not_blank_of_second ht⟩,
          t, d.uri, _, rfl, ⟨ht, rfl⟩, _, [], rfl, rfl, rfl⟩

/-! Whole tags. The first byte passed is the one that told which of them it is. -/

theorem reads_characterSection (depth : Nat) :
    Reads (do
      expectNext "CDATA["
      let body ← cdata
      if depth = 0 then goOn [] depth .content
      else
        let e ← emit (.characters (.stable body))
        goOn [e] depth .content) fun pos w p _ =>
    ∃ x b, w = x :: (utf8 "CDATA[" ++ b ++ utf8 "]]>") ∧ UpTo (utf8 "]]>") b ∧
      p = ⟨if depth = 0 then [] else
        [⟨.characters (.stable ⟨pos + 7, b⟩), pos + 7 + (b.length + 3)⟩],
          some ⟨depth, .content⟩⟩ :=
  ((reads_expectNext _).bind fun _ => reads_cdata.bind fun _ =>
    (reads_pure _).ite <| .emit fun _ => reads_pure _).congr fun pos w p rest => by
      have hc : (utf8 "CDATA[").length = 6 := rfl
      have he : (utf8 "]]>").length = 3 := rfl
      constructor
      · rintro ⟨_, _, _, rfl, ⟨x, rfl⟩, _, ⟨at', b⟩, t, rfl, ⟨hb, rfl, rfl⟩,
          ⟨h, rfl, rfl⟩ | ⟨h, rfl, rfl⟩⟩
        · exact ⟨x, b, by simp, hb, by rw [if_pos h]⟩
        · exact ⟨x, b, by simp, hb, by simp [h, hc, he, Nat.add_assoc]⟩
      · rintro ⟨x, b, rfl, hb, rfl⟩
        refine ⟨x :: utf8 "CDATA[", (), b ++ utf8 "]]>", by simp, ⟨x, rfl⟩, _, ⟨_, b⟩, [],
          by simp, ⟨hb, rfl, rfl⟩, ?_⟩
        by_cases h : depth = 0
        · exact .inl ⟨h, rfl, by rw [if_pos h]⟩
        · exact .inr ⟨h, rfl, by simp [h, hc, he, Nat.add_assoc]⟩

theorem reads_doctypeTag (depth : Nat) :
    Reads (do
      expectNext "OCTYPE"
      skipBlank
      let d ← doctype
      let e ← emit (.doctype d)
      goOn [e] depth .content) fun pos w p _ =>
    ∃ x u t d, w = x :: (utf8 "OCTYPE" ++ u ++ t) ∧ Blanks u ∧ IsDoctype Apart t d ∧
      p = ⟨[⟨.doctype d, pos + 7 + (u ++ t).length⟩], some ⟨depth, .content⟩⟩ :=
  ((reads_expectNext _).bind fun _ => reads_skipBlank.bind fun _ => reads_doctype.bind fun _ =>
    .emit fun _ => reads_pure _).congr fun pos w p rest => by
      have ho : (utf8 "OCTYPE").length = 6 := rfl
      constructor
      · rintro ⟨_, _, _, rfl, ⟨x, rfl⟩, u, _, _, rfl, ⟨hu, -⟩, t, d, _, rfl, ht, rfl, rfl⟩
        exact ⟨x, u, t, d, by simp, hu, ht, by simp [ho, Nat.add_assoc]⟩
      · rintro ⟨x, u, t, d, rfl, hu, ht, rfl⟩
        have hroot : ∀ b, (t ++ rest).head? = some b → b.isBlank = false := by
          obtain @⟨d, w₁, w₂, w₃, t, hn, -⟩ := ht
          rw [List.append_assoc]
          exact not_blank_of_name hn
        exact ⟨x :: utf8 "OCTYPE", (), _, by simp, ⟨x, rfl⟩, u, (), t, rfl, ⟨hu, hroot⟩,
          t, d, [], by simp, ht, rfl, by simp [ho, Nat.add_assoc]⟩

theorem reads_commentTag (depth : Nat) :
    Reads (do
      let b ← next
      if b = .dash then
        pass
        require 3 .commentTooShort
        comment
        goOn [] depth .content
      else throw .commentExpected) fun _ w p _ =>
    ∃ x b, w = x :: .dash :: (b ++ utf8 "-->") ∧ UpTo (utf8 "--") b ∧
      p = ⟨[], some ⟨depth, .content⟩⟩ :=
  (Reads.next fun _ => (Reads.pass <| Reads.require <| reads_comment.bind fun _ =>
    reads_pure _).ite (reads_throw _)).congr fun pos w p rest => by
      constructor
      · rintro ⟨x, v, y, rfl, hy, ⟨rfl, h⟩ | ⟨-, h⟩⟩
        · obtain ⟨x', v', rfl, -, _, _, _, rfl, ⟨b, hb, rfl⟩, rfl, rfl⟩ := h
          obtain rfl : x' = .dash := by simpa using hy
          exact ⟨x, b, by simp, hb, rfl⟩
        · exact h.elim
      · rintro ⟨x, b, rfl, hb, rfl⟩
        have he : (utf8 "-->").length = 3 := rfl
        have hl : 3 ≤ (b ++ utf8 "-->" ++ rest).length := by
          simp [he]; omega
        refine ⟨x, _, .dash, rfl, rfl, .inl ⟨rfl, .dash, _, rfl, hl, ?_⟩⟩
        exact ⟨b ++ utf8 "-->", (), [], by simp, ⟨b, hb, rfl⟩, rfl, rfl⟩

def Special (depth : Nat) : Shape Progress := fun pos w p _ =>
  (∃ b, UpTo (utf8 "--") b ∧ w = utf8 "--" ++ b ++ utf8 "-->" ∧
    p = ⟨[], some ⟨depth, .content⟩⟩) ∨
  (∃ b, UpTo (utf8 "]]>") b ∧ w = utf8 "[CDATA[" ++ b ++ utf8 "]]>" ∧
    p = ⟨if depth = 0 then [] else [⟨.characters (.stable ⟨pos + 7, b⟩), pos + 7 + (b.length + 3)⟩],
      some ⟨depth, .content⟩⟩) ∨
  ∃ u t d, Blanks u ∧ IsDoctype Apart t d ∧ w = utf8 "DOCTYPE" ++ u ++ t ∧
    p = ⟨[⟨.doctype d, pos + 7 + (u ++ t).length⟩], some ⟨depth, .content⟩⟩

theorem reads_special (depth : Nat) : Reads (special depth) fun pos w p rest =>
    ∃ x v, w = x :: v ∧ Special depth (pos + 1) v p rest :=
  (Reads.require <| Reads.next fun _ => (reads_commentTag depth).ite <|
    (reads_characterSection depth).ite <| (reads_doctypeTag depth).ite <|
      reads_throw _).congr fun pos w p rest => by
        have hd : utf8 "--" = [.dash, .dash] := by decide
        have hc : utf8 "[CDATA[" = .openBracket :: utf8 "CDATA[" := by decide
        have ht : utf8 "DOCTYPE" = .upperD :: utf8 "OCTYPE" := by decide
        constructor
        · rintro ⟨-, x, v, y, rfl, hy, ⟨rfl, h⟩ | ⟨-, ⟨rfl, h⟩ | ⟨-, ⟨rfl, h⟩ | ⟨-, h⟩⟩⟩⟩
          · obtain ⟨x', b, rfl, hb, rfl⟩ := h
            obtain rfl : x' = .dash := by simpa using hy
            exact ⟨x, _, rfl, .inl ⟨b, hb, by simp [hd], rfl⟩⟩
          · obtain ⟨x', b, rfl, hb, rfl⟩ := h
            obtain rfl : x' = .openBracket := by simpa using hy
            exact ⟨x, _, rfl, .inr (.inl ⟨b, hb, by simp [hc], rfl⟩)⟩
          · obtain ⟨x', u, t, d, rfl, hu, h, rfl⟩ := h
            obtain rfl : x' = .upperD := by simpa using hy
            exact ⟨x, _, rfl, .inr (.inr ⟨u, t, d, hu, h, by simp [ht], rfl⟩)⟩
          · exact h.elim
        · rintro ⟨x, _, rfl, ⟨b, hb, rfl, rfl⟩ | ⟨b, hb, rfl, rfl⟩ | ⟨u, t, d, hu, h, rfl, rfl⟩⟩
          · exact ⟨by simp [hd], x, _, .dash, rfl, rfl, .inl ⟨rfl, .dash, b, by simp [hd], hb, rfl⟩⟩
          · exact ⟨by simp [hc], x, _, .openBracket, rfl, rfl,
              .inr ⟨by decide, .inl ⟨rfl, .openBracket, b, by simp [hc], hb, rfl⟩⟩⟩
          · exact ⟨by simp [ht], x, _, .upperD, rfl, rfl, .inr ⟨by decide, .inr ⟨by decide,
              .inl ⟨rfl, .upperD, u, t, d, by simp [ht], hu, h, rfl⟩⟩⟩⟩

end Read
end XmlStream
