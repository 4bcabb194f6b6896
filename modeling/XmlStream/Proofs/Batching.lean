import XmlStream.Proofs.Namespace.Forwarding
import XmlStream.Vocabulary.Document
/-! Batching. A start tag with tokens brings along the attributes that came right before it, each
with the value it came with, though by then the copies of several share a buffer. -/
namespace XmlStream

theorem Vocabulary.map_entries (v : Vocabulary) : v.entries.map (·.2) = v.words.drop 1 := by
  simp [entries, Function.comp_def, List.zipIdx_map_fst]

namespace NsTokens

/-- Looking up the tokens of a vocabulary interns its words, from the second on and in order. -/
theorem registry_ofVocabulary (v : Vocabulary) (r : Registry) :
    (ofVocabulary v r).1 = (v.words.drop 1).foldl (fun r uri => (r.intern uri).1) r := by
  rw [← v.map_entries, List.foldl_map, ofVocabulary]
  exact (List.foldl_hom Prod.fst fun _ _ => rfl).symm

end NsTokens

structure NsAttr where
  ns : NsId
  name : QName
  value : Span

namespace NsAttr

def event (a : NsAttr) : NsEvent := .attr a.ns a.name a.value

def tokenized (l : Lexicon) (a : NsAttr) : TokenAttr := ⟨l.name a.ns a.name.localName, a.value⟩

end NsAttr

/-- Events and what they are batched to. Attributes wait for the start of an element right behind
them; what is left has waited in vain. -/
inductive Batched (l : Lexicon) : List NsEvent → List TokenEvent → List NsAttr → Prop
  | unstarted {attrs : List NsAttr} : Batched l (attrs.map NsAttr.event) [] attrs
  | startElement {attrs : List NsAttr} {ns n x es ts left} : Batched l es ts left →
      Batched l (attrs.map NsAttr.event ++ .startElement ns n x :: es)
        (.startElement (l.name ns n.localName) x (attrs.map (NsAttr.tokenized l)) :: ts) left
  | endElement {ns n x es ts left} : Batched l es ts left →
      Batched l (.endElement ns n x :: es) (.endElement (l.name ns n.localName) x :: ts) left
  | characters {t es ts left} : Batched l es ts left →
      Batched l (.characters t :: es) (.characters t :: ts) left
  | doctype {d es ts left} : Batched l es ts left → Batched l (.doctype d :: es) ts left
  | startDeclaration {n es ts left} : Batched l es ts left →
      Batched l (.startDeclaration n :: es) ts left
  | endDeclaration {n es ts left} : Batched l es ts left →
      Batched l (.endDeclaration n :: es) ts left
  | declarationAttr {n x es ts left} : Batched l es ts left →
      Batched l (.declarationAttr n x :: es) ts left

namespace Batch

variable {l : Lexicon} {b : Batch}

def InBounds (b : Batch) : Prop :=
  ∀ a ∈ b.attrs, ∀ start stop, a.value = .copy start stop → stop ≤ b.copies.size

theorem InBounds.empty : InBounds .empty := by
  intro a ha
  cases ha

theorem InBounds.hold (hb : b.InBounds) (name : TokenName) (value : Span) :
    (b.hold name value).InBounds := by
  intro a ha start stop hv
  cases value with
  | stable slice =>
    obtain ha | rfl := by simpa [Batch.hold] using ha
    · exact hb a ha start stop hv
    · cases hv
  | transient bytes =>
    have hsize : b.copies.size ≤ (b.copies.append bytes).size := by
      simp [Buffer.size_eq]
    obtain ha | rfl := by simpa [Batch.hold] using ha
    · exact Nat.le_trans (hb a ha start stop hv) hsize
    · cases hv
      exact Nat.le_refl _

/-- Copies that come later do not touch those that are there. -/
theorem slice_append {buffer : Buffer} {start stop : Nat} (h : stop ≤ buffer.size)
    (more : Bytes) : (buffer.append more).slice start stop = buffer.slice start stop := by
  rw [Buffer.size_eq] at h
  rw [Buffer.slice_eq, Buffer.slice_eq, Buffer.toList_append, List.take_append_of_le_length h]

theorem slice_new (buffer : Buffer) (bytes : Bytes) :
    (buffer.append bytes).slice buffer.size (buffer.append bytes).size = bytes := by
  rw [Buffer.slice_eq, Buffer.size_eq, Buffer.size_eq, List.take_length, Buffer.toList_append,
    List.drop_left]

theorem release_hold (hb : b.InBounds) (name : TokenName) (value : Span) :
    (b.hold name value).release = b.release ++ [⟨name, value⟩] := by
  cases value with
  | stable slice => simp [Batch.hold, release, Batch.value]
  | transient bytes =>
    have hold : ∀ a ∈ b.attrs, TokenAttr.mk a.name ((b.hold name (.transient bytes)).value a.value)
        = ⟨a.name, b.value a.value⟩ := by
      intro a ha
      cases hv : a.value with
      | slice s => rfl
      | copy start stop =>
        simp only [Batch.hold, Batch.value, slice_append (hb a ha start stop hv)]
    have hnew : (b.hold name (.transient bytes)).value
        (.copy b.copies.size (b.copies.append bytes).size) = .transient bytes := by
      simp only [Batch.hold, Batch.value, slice_new]
    simp only [release, Batch.hold, List.map_append, List.map_cons, List.map_nil] at hold hnew ⊢
    rw [List.map_congr_left hold, hnew]

def holdAll (l : Lexicon) (b : Batch) (attrs : List NsAttr) : Batch :=
  attrs.foldl (fun b a => b.hold (l.name a.ns a.name.localName) a.value) b

theorem release_holdAll (hb : b.InBounds) (attrs : List NsAttr) :
    (holdAll l b attrs).release = b.release ++ attrs.map (NsAttr.tokenized l) := by
  induction attrs generalizing b with
  | nil => exact (List.append_nil _).symm
  | cons a attrs ih =>
    have ih := ih (hb.hold (l.name a.ns a.name.localName) a.value)
    rw [release_hold hb, List.append_assoc] at ih
    exact ih

theorem relay_attrs (l : Lexicon) (b : Batch) (attrs : List NsAttr) (es : List NsEvent) :
    Stage.relay (step l) b (attrs.map NsAttr.event ++ es) =
      Stage.relay (step l) (holdAll l b attrs) es := by
  induction attrs generalizing b with
  | nil => rfl
  | cons a attrs ih => exact ih _

/-- Holding back in a buffer gives the batches that are there in the events. -/
theorem relay_of_batched {es : List NsEvent} {ts : List TokenEvent} {left : List NsAttr}
    (h : Batched l es ts left) :
    (Stage.relay (step l) .empty es).delivered = ts ∧
      (Stage.relay (step l) .empty es).error = none := by
  induction h with
  | @unstarted attrs =>
    have hrelay := relay_attrs l .empty attrs []
    rw [List.append_nil] at hrelay
    rw [hrelay]
    exact ⟨rfl, rfl⟩
  | @startElement attrs ns n x es ts left _ ih =>
    have hrelease : (holdAll l .empty attrs).release = attrs.map (NsAttr.tokenized l) :=
      release_holdAll .empty attrs
    rw [relay_attrs]
    simp only [Stage.relay, step, hrelease, ih, and_self]
  | endElement _ ih | characters _ ih => simp only [Stage.relay, step, ih, and_self]
  | doctype _ ih | startDeclaration _ ih | endDeclaration _ ih | declarationAttr _ ih => exact ih

theorem tireless_before {τ : Type} {k : Handler τ TokenEvent} (hk : k.Tireless) :
    (Stage.before (step l) k).Tireless := by
  rintro ⟨b, t⟩ e
  cases e with
  | startElement | endElement | characters => exact hk _ _
  | _ => rfl

end Batch

namespace Lexical

variable {r : Registry} {context : Scope}

/-- The attributes of a tag come right before its start, since nothing else comes inside it. -/
theorem exists_batched {v : Env} {es : List Event} {bs : List NsEvent} (l : Lexicon)
    (hf : Forwarded r context v es bs) (ho : v.Orderly context es) (held : List NsAttr)
    (hidle : v = v.idle ∨ v.inDeclaration = true → held = []) :
    ∃ ts left, Batched l (held.map NsAttr.event ++ bs) ts left ∧
      (v.run context es = {} → left = []) := by
  induction hf generalizing held with
  | @nil v =>
    refine ⟨[], held, by simpa using .unstarted, fun he => hidle (.inl ?_)⟩
    have he : v = {} := he
    rw [he]
    rfl
  | @bind v n value b es bs hd hb _ ih =>
    refine ih ho.2 held fun h => ?_
    have hstep : v.step context (.attr n value) = { v with own := b :: v.own } := by
      simp [Env.step, Env.attr, hd, hb]
    rw [hstep] at h
    obtain h | h := h
    · cases congrArg Env.own h
    · rw [hd] at h
      cases h
  | @forward v e b es bs h _ ih =>
    obtain ⟨ts, left, hbatched, hl⟩ := ih ho.2 [] fun _ => rfl
    cases h with
    | doctype =>
      obtain rfl := hidle (.inl ho.1)
      exact ⟨ts, left, .doctype hbatched, hl⟩
    | characters =>
      obtain rfl := hidle (.inl ho.1)
      exact ⟨_, left, .characters hbatched, hl⟩
    | startDeclaration =>
      obtain rfl := hidle (.inl ho.1)
      exact ⟨ts, left, .startDeclaration hbatched, hl⟩
    | endDeclaration =>
      obtain rfl := hidle (.inl ho.1)
      exact ⟨ts, left, .endDeclaration hbatched, hl⟩
    | declarationAttr hd =>
      obtain rfl := hidle (.inr hd)
      exact ⟨ts, left, .declarationAttr hbatched, hl⟩
    | endElement =>
      obtain rfl := hidle (.inl ho.1.1)
      exact ⟨_, left, .endElement hbatched, hl⟩
    | startElement => exact ⟨_, left, .startElement hbatched, hl⟩
    | @attr ns n value hd hb hm =>
      have hstep : v.step context (.attr n value) =
          { v with attrs := (v.meaning context n.qualifier, n.localName) :: v.attrs } := by
        simp [Env.step, Env.attr, hd, hb]
      -- the attribute joins those that wait, and its tag is being read now
      obtain ⟨ts, left, hbatched, hl⟩ := ih ho.2 (held ++ [⟨ns, n, value⟩]) fun h => by
        rw [hstep] at h
        obtain h | h := h
        · cases congrArg Env.attrs h
        · rw [hd] at h
          cases h
      refine ⟨ts, left, ?_, hl⟩
      rw [List.map_append, List.append_assoc] at hbatched
      exact hbatched

end Lexical
namespace Document
open Lexical

variable {σ : Type}

/-- What is forwarded comes in batches, and nothing is left of them when a reading ends well. -/
theorem exists_batched_forwarded (l : Lexicon) (config : Config) (doc : Bytes)
    (registry : Registry) (scope : Scope) (h : Handler σ NsEvent) (s : σ) :
    let reading := readResolved config doc registry scope (Handler.recording h) ([], s)
    ∃ ts left, Batched l reading.state.1 ts left ∧ (reading.error = none → left = []) := by
  intro reading
  obtain ⟨out, hr, herror, -⟩ := runs_recording config doc registry scope h s
  obtain ⟨n, hn, hall⟩ := hr.forwarded
  obtain ⟨ho, hend⟩ := orderly_trace scope config doc
  have ho : Env.Orderly scope {} ((trace config doc).events.take n) := by
    rw [← List.take_append_drop n (trace config doc).events, Env.orderly_append] at ho
    exact ho.1
  obtain ⟨ts, left, hb, hl⟩ := exists_batched l hn ho [] fun _ => rfl
  refine ⟨ts, left, hb, fun hnone => hl ?_⟩
  rw [show reading.error = _ from herror] at hnone
  obtain ⟨hout, hdoc⟩ := Option.or_eq_none_iff.1 hnone
  rw [List.take_of_length_le (hall hout)]
  exact hend hdoc

end Document
end XmlStream
