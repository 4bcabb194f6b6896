import Mathlib.Data.List.Flatten
import XmlStream.Proofs.Decoding
import XmlStream.Proofs.Labelling
import XmlStream.Proofs.Reader.Scanning
/-! Filling. Every reference that has a name stands for at least one byte, so no text or value that is
decoded is empty, and text is empty only as the body of an empty character section. What a reader has
to do where text has decoded to nothing is never done. -/
namespace XmlStream
open Grammar Document
open scoped List

/-- A reference with a name puts at least one byte behind what a buffer holds. -/
theorem Reference.expandInto_filled (buffer : Buffer) {name : Bytes} (h : name ≠ []) :
    ∃ b more, (expandInto buffer name).toList = buffer.toList ++ b :: more := by
  obtain ⟨b, more, hexpand⟩ := List.exists_cons_of_ne_nil (expand_ne_nil h)
  exact ⟨b, more, by rw [expandInto, Buffer.toList_append, hexpand]⟩

/-- No run decodes to nothing, so text is read as a run is. -/
theorem Read.text_eq_run : text = run .openAngle := by
  funext c
  rw [Reader.text_eq]
  cases hrun : run .openAngle c with
  | error => rfl
  | ok v c' =>
    obtain ⟨w, rest, -, -, hspelt⟩ := (reads_run (by decide) _ _ _).1 hrun
    simp only [if_neg hspelt.ne_empty]

/-! The loops of a reader. -/

namespace Reader

variable {σ α β : Type} {doc : Bytes} {x y : Reader × σ} {start offset : Nat}
  {stop b : Byte}

/-- What is done after some work matters only where that answers. -/
theorem run_bind_congr {m : Work σ α} {f g : α → Work σ β}
    (h : ∀ a y, m x = some (.ok a, y) → f a y = g a y) : (m >>= f) x = (m >>= g) x := by
  rcases hm : m x with _ | ⟨error | a, y⟩
  · change (m x).bind _ = (m x).bind _
    rw [hm]
    rfl
  · rw [run_bind_error hm, run_bind_error hm]
  · rw [run_bind_ok hm, run_bind_ok hm, h a y hm]

/-- Work that answers has answered in both its parts. -/
theorem bind_eq_ok {m : Work σ α} {f : α → Work σ β} {b : β}
    (h : (m >>= f) x = some (.ok b, y)) :
    ∃ a z, m x = some (.ok a, z) ∧ f a z = some (.ok b, y) := by
  rcases hm : m x with _ | ⟨error | a, z⟩
  · change (m x).bind _ = _ at h
    rw [hm] at h
    cases h
  · rw [run_bind_error hm] at h
    cases h
  · rw [run_bind_ok hm] at h
    exact ⟨a, z, rfl, h⟩

theorem slice_eq_ok {bytes : Bytes} (h : slice doc start offset x = some (.ok bytes, y)) :
    start ≤ offset ∧ offset ≤ doc.length ∧ bytes = (doc.take offset).drop start ∧ y = x := by
  simp only [slice] at h
  split at h
  · rename_i hbounds
    cases h
    exact ⟨hbounds.1, hbounds.2, rfl, rfl⟩
  · cases h

theorem look_eq_ok {f : Cursor → α} {a : α} (h : look doc f x = some (.ok a, y)) : y = x := by
  cases h
  rfl

theorem byteAt_eq_ok (h : byteAt doc offset x = some (.ok b, y)) : y = x := by
  simp only [byteAt, Option.map_eq_some_iff] at h
  obtain ⟨_, -, h⟩ := h
  cases h
  rfl

theorem moveTo_eq_ok (h : moveTo offset x = some (.ok (), y)) :
    y = ({ x.1 with position := offset }, x.2) := by
  simp only [moveTo] at h
  split at h
  · cases h
    rfl
  · cases h

def Filled (r : Reader) : Prop := r.scratch.toList ≠ []

/-- Decoding a reference leaves something, since it has a name. -/
theorem reference_filled (h : reference doc x = some (.ok (), y)) : y.1.Filled := by
  obtain ⟨_, _, -, h⟩ := bind_eq_ok h
  obtain ⟨start, _, -, h⟩ := bind_eq_ok h
  obtain ⟨found, z, -, h⟩ := bind_eq_ok h
  cases found with
  | none => cases h
  | some offset =>
    dsimp only at h
    split at h
    · cases h
    · rename_i hne
      obtain ⟨name, w, hslice, h⟩ := bind_eq_ok h
      obtain ⟨_, _, hupdate, h⟩ := bind_eq_ok h
      obtain ⟨hle, hwithin, hname, -⟩ := slice_eq_ok hslice
      have hname : name ≠ [] := by
        intro hnil
        have hlength := congrArg List.length (hname.symm.trans hnil)
        simp only [List.length_drop, List.length_take, List.length_nil] at hlength
        omega
      obtain ⟨b, more, hfilled⟩ := Reference.expandInto_filled w.1.scratch hname
      cases hupdate
      rw [moveTo_eq_ok h, Filled, hfilled]
      simp

/-- What comes after a reference is put behind what is there. -/
theorem gather_filled (h : gather doc start offset x = some (.ok (), y)) (hx : x.1.Filled) :
    y.1.Filled := by
  obtain ⟨plain, _, hslice, h⟩ := bind_eq_ok h
  obtain ⟨_, _, hcollect, h⟩ := bind_eq_ok h
  obtain ⟨-, -, -, rfl⟩ := slice_eq_ok hslice
  cases hcollect
  rw [moveTo_eq_ok h, Filled, Buffer.toList_append]
  exact List.append_ne_nil_of_left_ne_nil hx _

variable {missing : Nat → Work σ Unit}

/-- Each round of decoding leaves something, whatever was there before it, if what is done where the
stop byte is missing takes nothing away. -/
theorem decodeRound_filled {again : Bool}
    (hmissing : ∀ start x y, missing start x = some (.ok (), y) → x.1.Filled → y.1.Filled)
    (h : decodeRound doc stop missing x = some (.ok again, y)) : y.1.Filled := by
  obtain ⟨_, z, hreference, h⟩ := bind_eq_ok h
  obtain ⟨start, z', hhere, h⟩ := bind_eq_ok h
  obtain ⟨found, z'', hlook, h⟩ := bind_eq_ok h
  have hz := reference_filled hreference
  cases hhere
  obtain rfl := look_eq_ok hlook
  cases found with
  | none =>
    obtain ⟨_, w, hlast, h⟩ := bind_eq_ok h
    cases h
    exact hmissing _ _ _ hlast hz
  | some offset =>
    obtain ⟨_, w, hgather, h⟩ := bind_eq_ok h
    obtain ⟨_, _, hbyte, h⟩ := bind_eq_ok h
    cases h
    rw [byteAt_eq_ok hbyte]
    exact gather_filled hgather hz

/-- So there is something when decoding is over, after any number of references. -/
theorem decode_filled
    (hmissing : ∀ start x y, missing start x = some (.ok (), y) → x.1.Filled → y.1.Filled)
    (h : decode doc stop missing x = some (.ok (), y)) : y.1.Filled := by
  have key (n : Nat) (x : Reader × σ)
      (h : rounds (decodeRound doc stop missing) n x = some (.ok (), y)) : y.1.Filled := by
    -- work that has answered has had a last round, which has decoded a reference of its own
    induction n generalizing x with
    | zero => cases h
    | succ n ih =>
      obtain ⟨again, z, hround, h⟩ := bind_eq_ok h
      cases again with
      | true => exact ih z h
      | false =>
        cases h
        exact decodeRound_filled hmissing hround
  exact key _ x h

/-- Text, with something else to be done where it has decoded to nothing. -/
def textOr (doc : Bytes) (instead : Reader → Work σ Span) : Work σ Span := do
  let start ← here
  match ← look doc (·.find? (isBoundary .openAngle)) with
  | none =>
    moveTo doc.length
    let bytes ← slice doc start doc.length
    return .stable ⟨start, bytes⟩
  | some stop =>
    let b ← byteAt doc stop
    if b = .openAngle then
      moveTo stop
      let bytes ← slice doc start stop
      return .stable ⟨start, bytes⟩
    else
      reset
      gather doc start stop
      decode doc .openAngle fun start => gather doc start doc.length
      let r ← reader
      if r.scratch.toList = [] then instead r
      else return .transient r.scratch.toList

theorem text_eq_textOr : (text doc : Work σ Span) = textOr doc fun r => do
    let bytes ← slice doc r.position r.position
    return .stable ⟨r.position, bytes⟩ := rfl

/-- What is to be done in that case makes no difference, not even to go wrong there. -/
theorem textOr_congr (instead instead' : Reader → Work σ Span) :
    textOr doc instead = textOr doc instead' := by
  funext x
  refine run_bind_congr fun start y _ => run_bind_congr fun found y _ => ?_
  cases found with
  | none => rfl
  | some stop =>
    refine run_bind_congr fun b y _ => ?_
    split
    · rfl
    · refine run_bind_congr fun _ y _ => run_bind_congr fun _ y _ => run_bind_congr fun _ y hy => ?_
      -- here the two part, if at all
      have hfilled := decode_filled (fun _ _ _ => gather_filled) hy
      refine run_bind_congr fun r z hr => ?_
      cases hr
      rw [if_neg hfilled, if_neg hfilled]

end Reader

/-! What is told of a document. -/

def Event.texts : Event → List Span
  | characters v => [v]
  | _ => []

def Event.values : Event → List Span
  | attr _ v => [v]
  | _ => []

def TokenEvent.texts : TokenEvent → List Span
  | characters v => [v]
  | _ => []

def TokenEvent.values : TokenEvent → List Span
  | startElement _ _ attrs => attrs.map (·.value)
  | _ => []

theorem Event.mem_texts {es : List Event} {v : Span} :
    v ∈ es.flatMap texts ↔ .characters v ∈ es := by
  rw [List.mem_flatMap]
  constructor
  · rintro ⟨e, he, hv⟩
    cases e with
    | characters =>
      rw [List.mem_singleton.1 hv]
      exact he
    | _ => cases hv
  · exact fun h => ⟨_, h, List.mem_singleton_self v⟩

theorem Event.mem_values {es : List Event} {v : Span} :
    v ∈ es.flatMap values ↔ ∃ n, .attr n v ∈ es := by
  rw [List.mem_flatMap]
  constructor
  · rintro ⟨e, he, hv⟩
    cases e with
    | attr n =>
      rw [List.mem_singleton.1 hv]
      exact ⟨n, he⟩
    | _ => cases hv
  · exact fun ⟨n, h⟩ => ⟨_, h, List.mem_singleton_self v⟩

def EmptySection (config : Config) (doc : Bytes) (told : List Event) (v : Span) : Prop :=
  ∃ before after, doc = before ++ utf8 "<![CDATA[]]>" ++ after ∧
    Section config doc told v ⟨before.length + 9, []⟩

/-- Of some texts and values none is decoded and empty, and the texts that are empty come from empty
character sections. -/
structure NeverEmpty (config : Config) (doc : Bytes) (texts values : List Span) : Prop where
  decoded : ∀ bytes, .transient bytes ∈ texts ++ values → bytes ≠ []
  empty : ∀ v ∈ texts, v.bytes = [] → ∃ told, EmptySection config doc told v

variable {config : Config} {doc : Bytes} {u more : List Event} {v : Span} {source : Slice}

theorem NeverEmpty.mono {ts ts' vs vs' : List Span} (h : NeverEmpty config doc ts vs)
    (ht : ts' ⊆ ts) (hv : vs' ⊆ vs) : NeverEmpty config doc ts' vs' where
  decoded bytes hb := h.decoded bytes <| List.mem_append.2 <|
    (List.mem_append.1 hb).imp (fun hb => ht hb) fun hb => hv hb
  empty v hb := h.empty v (ht hb)

/-- A run of text is not empty, and neither is what it decodes to. -/
theorem TextRun.bytes_ne_nil (h : TextRun config doc u v source) : v.bytes ≠ [] := by
  obtain ⟨rest, -, -, bytes, hrun, rfl⟩ := h.spelt
  obtain ⟨-, hne, -, -, -⟩ := h
  split
  · rintro rfl
    exact hne hrun.eq_nil
  · exact hne

theorem Section.emptySection (h : Section config doc u v source) (hv : v.bytes = []) :
    EmptySection config doc u v := by
  have hbody : source.bytes = [] := by rwa [h.stable] at hv
  obtain @⟨_, _, _, body, rest, _, _, _, hstands, hb, hs, htold⟩ := h
  obtain rfl : body = [] := hbody
  obtain ⟨before, hdoc, rfl⟩ := hstands.passed
  have htext : utf8 "<![CDATA[]]>" = utf8 "<![CDATA[" ++ [] ++ utf8 "]]>" := by decide
  refine ⟨before, rest, ?_, .mk hstands hb hs htold⟩
  rw [htext]
  exact hdoc.trans (List.append_assoc ..).symm

/-- Characters are empty exactly where they are those of an empty section. -/
theorem characters_empty_iff (he : (trace config doc).events = u ++ .characters v :: more) :
    v.bytes = [] ↔ EmptySection config doc u v := by
  constructor
  · intro hv
    obtain ⟨source, htext | hsection⟩ := characters_source he
    · exact (htext.bytes_ne_nil hv).elim
    · exact hsection.emptySection hv
  · rintro ⟨before, after, -, hsection⟩
    rw [hsection.stable]
    rfl

theorem neverEmpty_trace (config : Config) (doc : Bytes) :
    NeverEmpty config doc ((trace config doc).events.flatMap Event.texts)
      ((trace config doc).events.flatMap Event.values) := by
  constructor
  · rintro bytes hb rfl
    obtain hb | hb := List.mem_append.1 hb
    · obtain ⟨u, more, he⟩ := List.append_of_mem (Event.mem_texts.1 hb)
      obtain ⟨before, after, -, hsection⟩ := (characters_empty_iff he).1 rfl
      cases hsection.stable
    · obtain ⟨n, hb⟩ := Event.mem_values.1 hb
      obtain ⟨u, more, he⟩ := List.append_of_mem hb
      obtain ⟨source, hvalue⟩ := attr_source he
      obtain ⟨rest, -, hspelt⟩ := hvalue.spelt
      exact hspelt.ne_empty rfl
  · intro v hv hempty
    obtain ⟨u, more, he⟩ := List.append_of_mem (Event.mem_texts.1 hv)
    exact ⟨u, (characters_empty_iff he).1 hempty⟩

/-- So it is for whatever is among the events of the document. -/
theorem neverEmpty_of_sublist {es : List Event} (h : es <+ (trace config doc).events) :
    NeverEmpty config doc (es.flatMap Event.texts) (es.flatMap Event.values) :=
  (neverEmpty_trace config doc).mono (h.flatMap _).subset (h.flatMap _).subset

/-! With namespaces, and with tokens. -/

theorem Event.withoutBindings_sublist (inDeclaration : Bool) (es : List Event) :
    withoutBindings inDeclaration es <+ es := by
  induction es generalizing inDeclaration with
  | nil => exact .slnil
  | cons e es ih =>
    rw [withoutBindings]
    split
    · exact (ih _).cons e
    · exact (ih _).cons_cons e

theorem Lexical.Forwarded.sublist {g : Registry} {context : Scope} {w : Lexical.Env}
    {es : List Event} {bs : List NsEvent} (h : Lexical.Forwarded g context w es bs) :
    bs.map NsEvent.toEvent <+ es := by
  rw [h.filtered]
  exact Event.withoutBindings_sublist _ es

theorem NsAttr.texts (attrs : List NsAttr) :
    ((attrs.map NsAttr.event).map NsEvent.toEvent).flatMap Event.texts = [] := by
  induction attrs with
  | nil => rfl
  | cons a attrs ih => exact ih

theorem NsAttr.values (attrs : List NsAttr) :
    ((attrs.map NsAttr.event).map NsEvent.toEvent).flatMap Event.values = attrs.map (·.value) := by
  induction attrs with
  | nil => rfl
  | cons a attrs ih => exact congrArg (a.value :: ·) ih

theorem Batched.texts {l : Lexicon} {bs : List NsEvent} {ts : List TokenEvent} {left : List NsAttr}
    (h : Batched l bs ts left) :
    ts.flatMap TokenEvent.texts = (bs.map NsEvent.toEvent).flatMap Event.texts := by
  induction h with
  | unstarted => exact (NsAttr.texts _).symm
  | startElement _ ih =>
    rw [List.map_append, List.flatMap_append, NsAttr.texts]
    exact ih
  | characters _ ih => exact congrArg (_ :: ·) ih
  | endElement _ ih | doctype _ ih | startDeclaration _ ih | endDeclaration _ ih
  | declarationAttr _ ih => exact ih

/-- Batching drops the values of declarations, and those that wait in vain. -/
theorem Batched.values {l : Lexicon} {bs : List NsEvent} {ts : List TokenEvent} {left : List NsAttr}
    (h : Batched l bs ts left) :
    ts.flatMap TokenEvent.values <+ (bs.map NsEvent.toEvent).flatMap Event.values := by
  induction h with
  | unstarted => exact List.nil_sublist _
  | @startElement attrs ns n x es ts left _ ih =>
    rw [List.map_append, List.flatMap_append, NsAttr.values, List.flatMap_cons, TokenEvent.values,
      List.map_map]
    exact (List.Sublist.refl _).append ih
  | endElement _ ih | characters _ ih | doctype _ ih | startDeclaration _ ih
  | endDeclaration _ ih => exact ih
  | declarationAttr _ ih => exact ih.cons _

/-- Decoding never comes to nothing. A reference with a name puts a byte behind what the buffer holds.
So whatever a handler does, of what it is told, be it with namespaces or with tokens, no text or value
is decoded and empty, and a text is empty where an empty character section stands in the document.
To read text is to read a run of it, without a case for a run that decodes to nothing; and a reader
does the same whatever it is to do in that case. -/
theorem decoded_never_empty (config : Config) (doc : Bytes) :
    (∀ (buffer : Buffer) (name : Bytes), name ≠ [] →
      ∃ b more, (Reference.expandInto buffer name).toList = buffer.toList ++ b :: more) ∧
    (∀ (σ : Type) (h : Handler σ Event) (s : σ),
      let seen := (read config doc h.recording ([], s)).state.1
      NeverEmpty config doc (seen.flatMap Event.texts) (seen.flatMap Event.values) ∧
        ∀ u v, u ++ [.characters v] <+: seen → (v.bytes = [] ↔ EmptySection config doc u v)) ∧
    (∀ (σ : Type) (registry : Registry) (scope : Scope) (h : Handler σ NsEvent) (s : σ),
      let seen := (readResolved config doc registry scope h.recording ([], s)).state.1
      NeverEmpty config doc ((seen.map NsEvent.toEvent).flatMap Event.texts)
        ((seen.map NsEvent.toEvent).flatMap Event.values)) ∧
    (∀ (σ : Type) (l : Lexicon) (registry : Registry) (scope : Scope) (h : Handler σ TokenEvent)
        (s : σ),
      let seen := (readTokens config doc l registry scope h.recording ([], s)).state.1
      NeverEmpty config doc (seen.flatMap TokenEvent.texts) (seen.flatMap TokenEvent.values)) ∧
    Read.text = Read.run .openAngle ∧
    ∀ (σ : Type) (instead : Reader → Reader.Work σ Span),
      Reader.textOr doc instead = Reader.text doc := by
  refine ⟨fun buffer name => Reference.expandInto_filled buffer, fun σ h s => ⟨?told, ?empty⟩,
    ?resolved, ?tokens, Read.text_eq_run, ?branch⟩
  case told =>
    obtain ⟨-, ⟨more, hmore⟩, -⟩ := read_recording config doc h s
    exact neverEmpty_of_sublist (hmore ▸ List.sublist_append_left _ _)
  case empty =>
    intro u v hu
    obtain ⟨more, he⟩ := events_of_seen hu
    exact characters_empty_iff he
  case resolved =>
    intro σ registry scope h s
    obtain ⟨out, hr, -, -⟩ := runs_recording config doc registry scope h s
    obtain ⟨n, hn, -⟩ := hr.forwarded
    exact neverEmpty_of_sublist (hn.sublist.trans (List.take_sublist _ _))
  case tokens =>
    intro σ l registry scope h s
    obtain ⟨n, bs, ts, left, hn, hb, hts, -⟩ := readTokens_handed config doc l registry scope h s
    have hnever := neverEmpty_of_sublist (hn.sublist.trans (List.take_sublist _ _))
    refine hnever.mono ?_ ?_
    · rw [← hb.texts]
      exact (hts.sublist.flatMap _).subset
    · exact ((hts.sublist.flatMap _).trans hb.values).subset
  case branch =>
    intro σ instead
    rw [Reader.text_eq_textOr]
    exact Reader.textOr_congr _ _

/-- A value that is the name of an unknown reference, text that is a zero byte, and the one kind of
text that is empty. -/
theorem decoded_never_empty_nul :
    let doc := utf8 "<a v=\"&u;\">&#0;<![CDATA[]]></a>"
    let seen := (read .lenient doc Handler.keeping.recording ([], [])).state.1
    let u : List Event := [.attr ⟨[], utf8 "v"⟩ (.transient (utf8 "u")),
      .startElement ⟨[], utf8 "a"⟩ ⟨0, 11⟩, .characters (.transient [0])]
    let v : Span := .stable ⟨24, []⟩
    u ++ [.characters v] <+: seen ∧ v.bytes = [] ∧ EmptySection .lenient doc u v ∧
      ∃ b more, (Reference.expandInto .empty (utf8 "#0")).toList = Buffer.empty.toList ++ b :: more := by
  intro doc seen u v
  have hseen : u ++ [.characters v] <+: seen := by decide +kernel
  obtain ⟨hreference, htold, -, -, -, -⟩ := decoded_never_empty .lenient doc
  exact ⟨hseen, rfl, ((htold _ Handler.keeping []).2 u v hseen).1 rfl,
    hreference .empty (utf8 "#0") (by decide)⟩

end XmlStream
