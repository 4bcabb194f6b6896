import XmlStream.Proofs.Construct
import XmlStream.Document.Trace
/-! Items. A reading that ends without an error has read constructs one after another, and these
make up the items of the grammar: a tag is one item however many steps its attributes take, and text
is one step however many items it has. -/
namespace XmlStream
open Grammar Document

/-- A place and the text from there on that is read without an error, whatever follows its end. -/
inductive Constructs : Place → Nat → Bytes → Prop
  | step {place pos w p rest} : Construct place pos w p rest →
      (∀ place', p.place = some place' → Constructs place' (pos + w.length) rest) →
      Constructs place pos (w ++ rest)

namespace Constructs

/-- A construct that leads to a place, and what is read from there on. -/
theorem cons {place next : Place} {pos : Nat} {w rest : Bytes} {es : List Emission}
    (hc : Construct place pos w ⟨es, some next⟩ rest)
    (hn : Constructs next (pos + w.length) rest) : Constructs place pos (w ++ rest) := by
  refine .step hc fun place' h => ?_
  cases h
  exact hn

theorem first {place : Place} {pos : Nat} {text : Bytes} (h : Constructs place pos text) :
    ∃ w p rest, text = w ++ rest ∧ Construct place pos w p rest ∧
      ∀ place', p.place = some place' → Constructs place' (pos + w.length) rest := by
  cases h with
  | step hc hn => exact ⟨_, _, _, rfl, hc, hn⟩

theorem iff_step (place : Place) (c : Cursor) : Constructs place c.pos c.rest ↔
    ∃ p c', Read.step place c = .ok p c' ∧
      ∀ place', p.place = some place' → Constructs place' c'.pos c'.rest := by
  constructor
  · intro h
    obtain ⟨w, p, rest, hr, hc, hn⟩ := h.first
    have hs := (Read.reads_step place c p _).2 ⟨w, rest, hr, rfl, hc⟩
    exact ⟨p, _, hs, hn⟩
  · rintro ⟨p, c', hs, hn⟩
    obtain ⟨w, rest, hr, rfl, hc⟩ := (Read.reads_step _ _ _ _).1 hs
    rw [hr]
    exact .step hc hn

/-- A reading ends without an error exactly when constructs lead to its end. -/
theorem iff_traceOn (p : Progress) (c : Cursor) : (traceOn p c).error = none ↔
    ∀ place, p.place = some place → Constructs place c.pos c.rest := by
  induction p, c using traceOn.induct with
  | case1 p c ih =>
    cases hp : p.place with
    | none => simp [traceOn_none hp, Trace.prepend]
    | some place =>
      simp only [Option.some.injEq, forall_eq']
      rw [iff_step]
      cases hs : Read.step place c with
      | error cause c' => simp [traceOn_error hp hs, Trace.prepend]
      | ok p' c' =>
        rw [traceOn_ok hp hs]
        refine (ih place hp p' c' hs).trans ⟨fun h => ⟨p', c', rfl, h⟩, ?_⟩
        rintro ⟨_, _, ⟨⟩, h⟩
        exact h

end Constructs

/-! Constructs are items. -/

def Continues (place : Place) (text : Bytes) : Prop :=
  match place.phase with
  | .content => Items Apart place.depth text
  | .tag _ _ => ∃ as bs rest, Attrs as ∧ Blanks bs ∧
      ((text = as ++ (bs ++ .closeAngle :: rest) ∧ Items Apart (place.depth + 1) rest) ∨
        (text = as ++ (bs ++ (utf8 "/>" ++ rest)) ∧
          ∀ d, after place.depth = some d → Items Apart d rest))
  | .declaration _ => ∃ as bs rest, Attrs as ∧ Blanks bs ∧
      text = as ++ (bs ++ (utf8 "?>" ++ rest)) ∧ Items Apart place.depth rest

theorem items_of_item {Ends : Bytes → Prop} {d : Nat} {w rest : Bytes} {o : Option Nat}
    (h : Item Ends d w o) (hr : ∀ d', o = some d' → Items Ends d' rest) :
    Items Ends d (w ++ rest) := by
  cases o with
  | none => exact .last h
  | some d' => exact .next h (hr d' rfl)

theorem items_of_run {w v rest : Bytes} {d : Nat} (h : Run .openAngle w v)
    (hr : Items Apart (d + 1) rest) : Items Apart (d + 1) (w ++ rest) := by
  induction h with
  | nil => exact hr
  | @plain b r v hs ha _ ih =>
    change Items Apart (d + 1) ([b] ++ (r ++ rest))
    exact .next (.byte hs ha) ih
  | @reference n r v hn hm _ ih => simpa using Items.next (.reference hn hm) ih

theorem items_of_outside {w rest : Bytes} (h : .openAngle ∉ w) (hr : Items Apart 0 rest) :
    Items Apart 0 (w ++ rest) := by
  induction w with
  | nil => exact hr
  | cons b w ih =>
    simp only [List.mem_cons, not_or] at h
    change Items Apart 0 ([b] ++ (w ++ rest))
    exact .next (.outside (Ne.symm h.1)) (ih h.2)

theorem attr_of_quoted {pos : Nat} {a : QName} {t : Bytes} {v : Span} (ha : IsQName a)
    (h : Read.Quoted pos t v) : Attr (a.text ++ .equals :: t) := by
  obtain ⟨raw, bytes, rfl, hr, -⟩ := h
  exact .mk ha hr

theorem inside_of_apart {as bs rest : Bytes} (has : Attrs as) (hbs : Blanks bs)
    (h : Apart ((as ++ bs) ++ rest)) : Inside Apart (as ++ bs) := by
  refine ⟨fun b hb => h b ?_, as, bs, has, hbs, rfl⟩
  rw [List.head?_append, hb]
  rfl

theorem continues_of_construct {place : Place} {pos : Nat} {w rest : Bytes} {p : Progress}
    (h : Construct place pos w p rest)
    (hn : ∀ place', p.place = some place' → Continues place' rest) :
    Continues place (w ++ rest) := by
  cases h with
  | finish => exact .none
  | outside _ hw => exact items_of_outside hw (hn _ rfl)
  | text _ h =>
    obtain ⟨-, bytes, h, -⟩ := h
    exact items_of_run h (hn _ rfl)
  | comment hb => exact .next (.comment hb) (hn _ rfl)
  | cdata hb => exact .next (.cdata hb) (hn _ rfl)
  | doctype hu ht => exact .next (.doctype hu ht) (hn _ rfl)
  | openDeclaration hd he ha =>
    obtain ⟨as, bs, rest, has, hbs, rfl, hr⟩ := hn _ rfl
    have hi := inside_of_apart has hbs (by simpa using ha)
    simpa [Continues] using Items.next (.declaration ⟨_, hd, hi, rfl⟩) hr
  | openTag hq he ha =>
    obtain ⟨as, bs, rest, has, hbs, ⟨rfl, hr⟩ | ⟨rfl, hr⟩⟩ := hn _ rfl
    · have hi := inside_of_apart has hbs (by simpa using ha)
      simpa [Continues] using Items.next (.openTag hq hi) hr
    · have hi := inside_of_apart has hbs (by simpa using ha)
      simpa [Continues] using items_of_item (.selfClosing hq hi) hr
  | closeTag hq hu =>
    refine items_of_item (.closeTag hq hu) fun d' hd => ?_
    exact hn ⟨d', .content⟩ (by simp [outOf, hd])
  | attr hu ha hv =>
    obtain ⟨as, bs, rest, has, hbs, h⟩ := hn _ rfl
    refine ⟨_, bs, rest, .cons hu (attr_of_quoted ha hv) has, hbs, ?_⟩
    simpa using h
  | tagEnd hu => exact ⟨[], _, _, .nil, hu, .inl ⟨by simp, hn _ rfl⟩⟩
  | @selfClose d _ _ _ w rest _ hu =>
    refine ⟨[], _, rest, .nil, hu, .inr ⟨by simp, fun d' hd => ?_⟩⟩
    exact hn ⟨d', .content⟩ (by simp [outOf, hd])
  | declarationAttr hu ha hv =>
    obtain ⟨as, bs, rest, has, hbs, rfl, hr⟩ := hn _ rfl
    exact ⟨_, bs, rest, .cons hu (attr_of_quoted ha hv) has, hbs, by simp, hr⟩
  | declarationEnd hu => exact ⟨[], _, _, .nil, hu, by simp, hn _ rfl⟩

theorem continues_of_constructs {place : Place} {pos : Nat} {text : Bytes}
    (h : Constructs place pos text) : Continues place text := by
  induction h with
  | step hc _ ih => exact continues_of_construct hc ih

/-! Items are constructs. -/

theorem construct_attr {place : Place} (hp : place.phase ≠ .content) {w : Bytes} {a : QName}
    {raw v : Bytes} (hw : Blanks w) (ha : IsQName a) (hr : Run .quote raw v) (pos : Nat)
    (rest : Bytes) : ∃ p : Progress, p.place = some place ∧
      Construct place pos (w ++ (a.text ++ .equals :: quoted raw)) p rest := by
  obtain ⟨d, phase⟩ := place
  cases phase with
  | content => exact (hp rfl).elim
  | tag start name => exact ⟨_, rfl, .attr hw ha ⟨raw, v, rfl, hr, rfl⟩ rfl⟩
  | declaration n => exact ⟨_, rfl, .declarationAttr hw ha ⟨raw, v, rfl, hr, rfl⟩ rfl⟩

theorem constructs_of_attrs {place : Place} (hp : place.phase ≠ .content) {as t : Bytes}
    (has : Attrs as) (ht : ∀ pos, Constructs place pos t) (pos : Nat) :
    Constructs place pos (as ++ t) := by
  induction has generalizing pos with
  | nil => exact ht pos
  | @cons w a r hw ha _ ih =>
    obtain ⟨hq, hr⟩ := ha
    obtain ⟨p, hp, hc⟩ := construct_attr hp hw hq hr pos (r ++ t)
    rw [List.append_assoc]
    refine .step hc fun place' h => ?_
    obtain rfl : place = place' := Option.some.inj (hp.symm.trans h)
    exact ih _

/-- Text goes on into the text after it. -/
theorem constructs_of_run {d : Nat} {w v rest : Bytes} (h : Run .openAngle w v) (hw : w ≠ [])
    (hr : ∀ pos, Constructs ⟨d + 1, .content⟩ pos rest) (pos : Nat) :
    Constructs ⟨d + 1, .content⟩ pos (w ++ rest) := by
  obtain ⟨u, p, r, rfl, hc, hn⟩ := (hr (pos + w.length)).first
  obtain ⟨-, -, h₀, -⟩ | ⟨t, rfl⟩ | ⟨b, t, rfl, -, ⟨h₀, -⟩ | ⟨-, k, ⟨he, y, hy, -⟩, rfl⟩⟩ :=
    Read.content_cases hc
  · cases h₀
  · exact .cons (.text hw ⟨.inr rfl, v, h, rfl⟩) (hr _)
  · cases h₀
  · have hne : w ++ b :: t ≠ [] := by simp
    rw [← List.append_assoc]
    refine .cons (.text hne ⟨he, _, h.append hy, rfl⟩) ?_
    rw [List.length_append, ← Nat.add_assoc]
    exact hn _ rfl

/-- So does what stands outside the root element, also into the end of the document. -/
theorem constructs_of_outside {b : Byte} {rest : Bytes} (hb : b ≠ .openAngle)
    (hr : ∀ pos, Constructs ⟨0, .content⟩ pos rest) (pos : Nat) :
    Constructs ⟨0, .content⟩ pos ([b] ++ rest) := by
  have h₁ : Byte.openAngle ∉ [b] := by simpa using Ne.symm hb
  have one (he : rest = [] ∨ rest.head? = some .openAngle) :
      Constructs ⟨0, .content⟩ pos ([b] ++ rest) :=
    .cons (.outside (by simp) h₁ he) (hr _)
  obtain ⟨u, p, r, rfl, hc, hn⟩ := (hr (pos + 1)).first
  obtain ⟨rfl, rfl, -⟩ | ⟨t, rfl⟩ | ⟨x, t, rfl, -, ⟨-, hu, he, rfl⟩ | ⟨h₀, -⟩⟩ :=
    Read.content_cases hc
  · exact one (.inl rfl)
  · exact one (.inr rfl)
  · have hne : [b] ++ x :: t ≠ [] := by simp
    have hm : Byte.openAngle ∉ [b] ++ x :: t := fun h => (List.mem_append.1 h).elim h₁ hu
    rw [← List.append_assoc]
    refine .cons (.outside hne hm he) ?_
    rw [List.length_append, ← Nat.add_assoc]
    exact hn _ rfl
  · exact (h₀ rfl).elim

theorem apart_append {w rest : Bytes} (hw : Apart w) (hr : Apart rest) : Apart (w ++ rest) := by
  cases w with
  | nil => exact hr
  | cons => exact hw

/-- A name without a qualifier is not taken for one: neither a blank nor an attribute begins with
a colon. -/
theorem not_colon_of_inside {as bs rest : Bytes} (has : Attrs as) (hbs : Blanks bs)
    (hr : rest.head? ≠ some .colon) : ((as ++ bs) ++ rest).head? ≠ some .colon := by
  cases has with
  | nil => exact Read.not_colon_of_blanks hbs hr
  | cons hw ha _ =>
    obtain ⟨hq, -⟩ := ha
    obtain ⟨b, r, hb, hl⟩ := Read.letter_of_qname hq
    simp only [List.append_assoc, hb]
    exact Read.not_colon_of_blanks hw fun h => Read.ne_of_letter hl rfl (Option.some.inj h)

/-- The step over the name of a start tag, those over its attributes, and the one at its end. -/
theorem constructs_of_tag {d : Nat} {name : QName} {w t : Bytes} {b : Byte} (hq : IsQName name)
    (hw : Inside Apart w) (hb : b.isNameByte = false) (hc : b ≠ .colon)
    (ht : ∀ start pos bs, Blanks bs → Constructs ⟨d, .tag start name⟩ pos (bs ++ b :: t))
    (pos : Nat) : Constructs ⟨d, .content⟩ pos (.openAngle :: name.text ++ (w ++ b :: t)) := by
  obtain ⟨ha, as, bs, has, hbs, rfl⟩ := hw
  have hapart : Apart ((as ++ bs) ++ b :: t) := apart_append ha (Read.forall_head hb)
  have hcolon : ((as ++ bs) ++ b :: t).head? ≠ some .colon :=
    not_colon_of_inside has hbs (by simpa using hc)
  refine .cons (.openTag hq (by simp) hapart fun _ => hcolon) ?_
  rw [List.append_assoc]
  exact constructs_of_attrs (by simp) has (fun _ => ht _ _ bs hbs) _

/-- What may follow the name of a declaration. -/
theorem constructs_of_inside {d : Nat} {n w rest : Bytes} (hw : Inside Apart w)
    (hr : ∀ pos, Constructs ⟨d, .content⟩ pos rest) :
    w ++ utf8 "?>" ++ rest ≠ [] ∧ Apart (w ++ utf8 "?>" ++ rest) ∧
      ∀ pos, Constructs ⟨d, .declaration n⟩ pos (w ++ utf8 "?>" ++ rest) := by
  have he : utf8 "?>" = [.question, .closeAngle] := by decide
  obtain ⟨ha, as, bs, has, hbs, rfl⟩ := hw
  refine ⟨by simp [he], ?_, fun pos => ?_⟩
  · rw [List.append_assoc]
    rw [he]
    exact apart_append ha (Read.forall_head (by decide))
  · simp only [List.append_assoc]
    refine constructs_of_attrs (by simp) has (fun pos => ?_) pos
    rw [← List.append_assoc]
    exact .cons (.declarationEnd hbs) (hr _)

theorem constructs_of_item {d : Nat} {w rest : Bytes} {o : Option Nat} (h : Item Apart d w o)
    (hr : ∀ d', o = some d' → ∀ pos, Constructs ⟨d', .content⟩ pos rest) (pos : Nat) :
    Constructs ⟨d, .content⟩ pos (w ++ rest) := by
  have hn pos place (hp : o.map (Place.mk · .content) = some place) :
      Constructs place pos rest := by
    obtain ⟨d', rfl, rfl⟩ := Option.map_eq_some_iff.1 hp
    exact hr d' rfl pos
  cases h with
  | @openTag _ name _ hq hw =>
    have hend start pos bs (hbs : Blanks bs) :
        Constructs ⟨d, .tag start name⟩ pos (bs ++ .closeAngle :: rest) := by
      simpa using Constructs.step (.tagEnd hbs rfl) (hn _)
    simpa using constructs_of_tag hq hw (by decide) (by decide) hend pos
  | @selfClosing _ name _ hq hw =>
    have he : utf8 "/>" = [.slash, .closeAngle] := by decide
    have hend start pos bs (hbs : Blanks bs) :
        Constructs ⟨d, .tag start name⟩ pos (bs ++ .slash :: .closeAngle :: rest) := by
      simpa [he] using Constructs.step (.selfClose hbs rfl) (hn _)
    simpa [he] using constructs_of_tag hq hw (by decide) (by decide) hend pos
  | closeTag hq hu => exact .step (.closeTag hq hu rfl) (hn _)
  | comment hb => exact .step (.comment hb) (hn _)
  | cdata hb => exact .step (.cdata hb) (hn _)
  | doctype hu ht => exact .step (.doctype hu ht) (hn _)
  | declaration hd =>
    obtain ⟨w, hname, hw, rfl⟩ := hd
    obtain ⟨he, ha, hc⟩ := constructs_of_inside hw (fun pos => hn pos _ rfl)
    rw [List.append_assoc, List.append_assoc, ← List.append_assoc w]
    exact .cons (.openDeclaration hname he ha) (hc _)
  | byte hs ha => exact constructs_of_run (.plain hs ha .nil) (by simp) (hr _ rfl) pos
  | reference hm hs =>
    exact constructs_of_run (.reference hm hs .nil) (by simp) (hr _ rfl) pos
  | outside hb => exact constructs_of_outside hb (hr _ rfl) pos

theorem constructs_of_items {d : Nat} {text : Bytes} (h : Items Apart d text) (pos : Nat) :
    Constructs ⟨d, .content⟩ pos text := by
  induction h generalizing pos with
  | none => exact .step .finish (by simp)
  | last h => exact constructs_of_item h (by simp) pos
  | next h _ ih =>
    refine constructs_of_item h (fun d' hd => ?_) pos
    cases hd
    exact ih

theorem constructs_iff_items (d pos : Nat) (text : Bytes) :
    Constructs ⟨d, .content⟩ pos text ↔ Items Apart d text :=
  ⟨fun h => continues_of_constructs h, fun h => constructs_of_items h pos⟩

/-! How short items are. -/

/-- Markup has three bytes, and four unless it opens an element. -/
theorem length_of_item {d : Nat} {w : Bytes} {o : Option Nat} (h : Item Apart d w o) :
    1 ≤ w.length ∧ (w.head? = some .openAngle →
      3 ≤ w.length ∧ (o ≠ some (d + 1) → 4 ≤ w.length)) := by
  have hq {q : QName} (h : IsQName q) : 1 ≤ q.text.length := by
    obtain ⟨b, r, hb, -⟩ := Read.letter_of_qname h
    simp [hb]
  have h₁ : (utf8 "</").length = 2 := rfl
  have h₂ : (utf8 "/>").length = 2 := rfl
  have h₃ : (utf8 "<!--").length = 4 := rfl
  have h₄ : (utf8 "<![CDATA[").length = 9 := rfl
  have h₅ : (utf8 "<!DOCTYPE").length = 9 := rfl
  have h₆ : (utf8 "<?").length = 2 := rfl
  have h₇ : (utf8 "?>").length = 2 := rfl
  cases h with
  | openTag h => have := hq h; simp; omega
  | selfClosing h => have := hq h; simp [h₂]; omega
  | closeTag h => have := hq h; simp [h₁]; omega
  | comment => simp [h₃]; omega
  | cdata => simp [h₄]; omega
  | doctype => simp [h₅]; omega
  | declaration hd =>
    obtain ⟨w, -, -, rfl⟩ := hd
    simp [h₆, h₇]; omega
  | byte hb => exact ⟨Nat.le_refl 1, fun h => (hb (by simpa using h)).elim⟩
  | reference => exact ⟨by simp, fun h => by cases h⟩
  | outside hb => exact ⟨Nat.le_refl 1, fun h => (hb (by simpa using h)).elim⟩

theorem length_of_items {d : Nat} {text : Bytes} (h : Items Apart (d + 1) text) :
    1 ≤ text.length := by
  cases h with
  | last h =>
    have := length_of_item h
    simp; omega
  | next h =>
    have := length_of_item h
    simp; omega

end XmlStream
