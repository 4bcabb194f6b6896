import XmlStream.Proofs.Language
import XmlStream.Proofs.Namespace.Forwarding
/-! Trailing bytes. A construct looks at most at the byte that follows it, and the tag that ends the
root element does not even look at that. So a reading that has ended there is the same whatever
follows. -/
namespace XmlStream
open Grammar Document

variable {σ τ : Type}

theorem eq_nil_of_head {rest rest' : Bytes} (hr : rest'.head? = rest.head?) :
    rest' = [] ↔ rest = [] := by
  rw [← List.head?_eq_none_iff, hr, List.head?_eq_none_iff]

theorem apart_of_head {rest rest' : Bytes} (hr : rest'.head? = rest.head?) (h : Apart rest) :
    Apart rest' := by
  unfold Apart
  rwa [hr]

/-- Where a construct does not end the document, all that counts of what follows it is its first
byte; where it does, nothing counts. -/
theorem Construct.of_head {place : Place} {pos : Nat} {w rest rest' : Bytes} {p : Progress}
    (h : Construct place pos w p rest) (hw : w ≠ [])
    (hr : p.place ≠ none → rest'.head? = rest.head?) : Construct place pos w p rest' := by
  have hend {stop : Byte} (hp : p.place ≠ none) (he : rest = [] ∨ rest.head? = some stop) :
      rest' = [] ∨ rest'.head? = some stop := by
    rwa [eq_nil_of_head (hr hp), hr hp]
  cases h with
  | finish => exact absurd rfl hw
  | outside hne hn he => exact .outside hne hn (hend nofun he)
  | text hne ht => exact .text hne ⟨hend nofun ht.1, ht.2⟩
  | comment hb => exact .comment hb
  | cdata hb => exact .cdata hb
  | doctype hu ht => exact .doctype hu ht
  | openDeclaration hn he ha =>
    have hr := hr nofun
    exact .openDeclaration hn (mt (eq_nil_of_head hr).1 he) (apart_of_head hr ha)
  | openTag hn he ha hc =>
    have hr := hr nofun
    exact .openTag hn (mt (eq_nil_of_head hr).1 he) (apart_of_head hr ha) fun hq => hr ▸ hc hq
  | closeTag hn hu hs => exact .closeTag hn hu hs
  | attr hu ha hv hs => exact .attr hu ha hv hs
  | tagEnd hu hs => exact .tagEnd hu hs
  | selfClose hu hs => exact .selfClose hu hs
  | declarationAttr hu ha hv hs => exact .declarationAttr hu ha hv hs
  | declarationEnd hu => exact .declarationEnd hu

/-- Nothing is passed only at the end of a document. -/
theorem Construct.finish_of_nil {place : Place} {pos : Nat} {rest : Bytes} {p : Progress}
    (h : Construct place pos [] p rest) : place = ⟨0, .content⟩ ∧ p = ⟨[], none⟩ := by
  have hs : Read.step place ⟨pos, rest⟩ = .ok p ⟨pos, rest⟩ :=
    (Read.reads_step place _ _ _).2 ⟨[], rest, rfl, rfl, h⟩
  obtain ⟨depth, phase⟩ := place
  cases phase with
  | content =>
    obtain ⟨-, -, rfl, rfl⟩ | ⟨v, hv⟩ | ⟨b, v, hv, -⟩ := Read.content_cases h
    · exact ⟨rfl, rfl⟩
    · cases hv
    · cases hv
  | tag start name => exact absurd ((Read.strict_tag _ _ _).2 _ _ _ hs) (Nat.lt_irrefl _)
  | declaration n => exact absurd ((Read.strict_declaration _ _).2 _ _ _ hs) (Nat.lt_irrefl _)

theorem Start.of_head {config : Config} {pos : Nat} {w rest rest' : Bytes} {p : Progress}
    (h : Start config pos w p rest) (hr : rest'.head? = rest.head?) :
    Start config pos w p rest' := by
  cases h with
  | lenient hs hb => exact .lenient hs (hr.trans hb)
  | strict hs he ha => exact .strict hs (mt (eq_nil_of_head hr).1 he) (apart_of_head hr ha)

/-- So it is with the beginning of a document that is not too short to be looked at for a mark of its
encoding. -/
theorem Read.header_of_head {config : Config} {pos : Nat} {w rest rest' : Bytes} {p : Progress}
    (h : header config ⟨pos, w ++ rest⟩ = .ok p ⟨pos + w.length, rest⟩)
    (hlength : 4 ≤ (w ++ rest).length) (hr : rest'.head? = rest.head?) :
    header config ⟨pos, w ++ rest'⟩ = .ok p ⟨pos + w.length, rest'⟩ := by
  obtain ⟨_, _, hd, he, u, v, t, rfl, hu, hv, hs⟩ := (reads_header _ _ _ _).1 h
  obtain ⟨-, rfl⟩ := Cursor.mk.inj he
  obtain rfl := List.append_cancel_right hd
  have hmarked : Marked u (v ++ t ++ rest') := by
    have hhead : (v ++ t ++ rest').head? = (v ++ t ++ rest).head? := by
      rw [List.head?_append, hr, ← List.head?_append]
    obtain ⟨rfl, hshort | hopen⟩ | ⟨rfl, hopen⟩ := hu
    · exact absurd hlength (Nat.not_le.2 hshort)
    · exact .inl ⟨rfl, .inr (hhead.trans hopen)⟩
    · exact .inr ⟨rfl, hhead.trans hopen⟩
  exact (reads_header _ _ _ _).2 ⟨_, _, rfl, rfl, u, v, t, rfl, hmarked, hv, hs.of_head hr⟩

/-- What is read from here on ends with bytes that are ahead, and whatever stands behind these. -/
def Settled (p : Progress) (c : Cursor) : Prop :=
  ∃ u rest, c.rest = u ++ rest ∧ (traceOn p c).position = c.pos + u.length ∧
    (p.place ≠ none → u ≠ []) ∧ ∀ tail, traceOn p ⟨c.pos, u ++ tail⟩ = traceOn p c

theorem Settled.cons {p p' : Progress} {place : Place} {pos : Nat} {w rest : Bytes}
    (hp : p.place = some place) (hc : Construct place pos w p' rest) (hw : w ≠ [])
    (h : Settled p' ⟨pos + w.length, rest⟩) : Settled p ⟨pos, w ++ rest⟩ := by
  obtain ⟨u, rest', hrest, hpos, hu, htail⟩ := h
  obtain rfl : rest = u ++ rest' := hrest
  have hhead (tail : Bytes) (hplace : p'.place ≠ none) :
      (u ++ tail).head? = (u ++ rest').head? := by
    rw [List.head?_append_of_ne_nil _ (hu hplace), List.head?_append_of_ne_nil _ (hu hplace)]
  have hstep (tail : Bytes) : traceOn p ⟨pos, w ++ (u ++ tail)⟩ =
      .prepend p.emissions (traceOn p' ⟨pos + w.length, u ++ tail⟩) :=
    traceOn_ok hp ((Read.reads_step place _ _ _).2
      ⟨w, u ++ tail, rfl, rfl, hc.of_head hw (hhead tail)⟩)
  refine ⟨w ++ u, rest', (List.append_assoc ..).symm, ?_, ?_, fun tail => ?_⟩
  · rw [hstep, List.length_append, ← Nat.add_assoc]
    exact hpos
  · exact fun _ h => hw (List.append_eq_nil_iff.1 h).1
  · simp only [List.append_assoc, hstep, htail]

inductive Outside : Place → Prop
  | content : Outside ⟨0, .content⟩
  | declaration {n} : Outside ⟨0, .declaration n⟩

theorem not_outside_outOf {d : Nat} {place : Place} (hp : outOf d = some place) :
    ¬ Outside place := by
  intro ho
  rw [outOf_eq] at hp
  split at hp
  · cases hp
  · cases hp
    cases ho
    contradiction

/-- What leads outside has been read there, and no element has ended in it. -/
theorem Construct.begins_outside {place place' : Place} {pos : Nat} {w rest : Bytes} {p : Progress}
    (h : Construct place pos w p rest) (hp : p.place = some place') (ho : Outside place') :
    Outside place ∧ ∀ n x, .endElement n x ∉ p.emissions.map (·.event) := by
  cases h with
  | closeTag | selfClose => exact (not_outside_outOf hp ho).elim
  | cdata =>
    cases hp
    cases ho
    exact ⟨.content, by simp⟩
  | _ =>
    cases hp <;> cases ho
    all_goals first | exact ⟨.content, by simp⟩ | exact ⟨.declaration, by simp⟩

/-- A reading without an error has come to the end of the root element, unless it is outside of
every element and no element ends in it. -/
theorem settled_or_outside {p : Progress} {c : Cursor} (he : (traceOn p c).error = none) :
    Settled p c ∨ (∃ place, p.place = some place ∧ Outside place) ∧
      ∀ n x, .endElement n x ∈ (traceOn p c).events →
        .endElement n x ∈ p.emissions.map (·.event) := by
  induction p, c using traceOn.induct with
  | case1 p c ih =>
    cases hp : p.place with
    | none =>
      refine .inl ⟨[], c.rest, rfl, ?_, fun h => absurd hp h, fun tail => ?_⟩
      · rw [traceOn_none hp]
        rfl
      · rw [traceOn_none hp, traceOn_none hp]
    | some place =>
      cases hs : Read.step place c with
      | error cause c' =>
        rw [traceOn_error hp hs] at he
        cases he
      | ok p' c' =>
        obtain ⟨pos, text⟩ := c
        obtain ⟨w, rest, hr, rfl, hc⟩ := (Read.reads_step _ _ _ _).1 hs
        obtain rfl : text = w ++ rest := hr
        have hevents : (traceOn p ⟨pos, w ++ rest⟩).events =
            p.emissions.map (·.event) ++ (traceOn p' ⟨pos + w.length, rest⟩).events := by
          rw [traceOn_ok hp hs, Lexical.events_prepend]
        rw [traceOn_ok hp hs] at he
        rw [hevents]
        by_cases hw : w = []
        · -- the document has ended with no element begun
          subst hw
          obtain ⟨rfl, rfl⟩ := hc.finish_of_nil
          refine .inr ⟨⟨_, rfl, .content⟩, fun n x hmem => ?_⟩
          rw [traceOn_none rfl] at hmem
          simpa [Trace.events, Trace.prepend] using hmem
        · obtain hsettled | ⟨⟨place', hp', ho⟩, hrest⟩ := ih place hp p' _ hs he
          · exact .inl (hsettled.cons hp hc hw)
          · obtain ⟨ho, hnone⟩ := hc.begins_outside hp' ho
            refine .inr ⟨⟨place, rfl, ho⟩, fun n x hmem => ?_⟩
            obtain hmem | hmem := List.mem_append.1 hmem
            · exact hmem
            · exact (hnone n x (hrest n x hmem)).elim

/-- Bytes after the root element are not looked at. -/
theorem trace_tail {config : Config} {doc : Bytes} (he : (trace config doc).error = none)
    {n : QName} {x : Extent} (hroot : .endElement n x ∈ (trace config doc).events) (tail : Bytes) :
    trace config (doc.take (trace config doc).position ++ tail) = trace config doc := by
  -- a document with an element in it is long enough to be looked at for a mark
  have hlength : 4 ≤ doc.length := by
    obtain ⟨body, rfl | rfl, hb⟩ := (trace_error_iff config doc).1 he
    · exact length_of_isBody hb
    · have := length_of_isBody hb
      rw [List.length_append]
      omega
  cases hh : Read.header config (.atStart doc) with
  | error cause c =>
    rw [trace, hh] at he
    cases he
  | ok p c =>
    rw [trace_of_header hh] at he hroot ⊢
    obtain ⟨w, rest, rfl, rfl, _, _, t, -, -, -, hs⟩ := (Read.reads_header _ _ _ _).1 hh
    have hstart : p.place ≠ none ∧ ∀ n x, .endElement n x ∉ p.emissions.map (·.event) := by
      cases hs <;> exact ⟨Option.some_ne_none _, by simp⟩
    obtain hsettled | ⟨-, hnone⟩ := settled_or_outside he
    · obtain ⟨u, rest', hrest, hpos, hne, htail⟩ := hsettled
      obtain rfl : rest = u ++ rest' := hrest
      have hne := hne hstart.1
      have hhead : (u ++ tail).head? = (u ++ rest').head? := by
        rw [List.head?_append_of_ne_nil _ hne, List.head?_append_of_ne_nil _ hne]
      have hcut : (w ++ (u ++ rest')).take (0 + w.length + u.length) ++ tail = w ++ (u ++ tail) := by
        rw [Nat.zero_add, ← List.append_assoc, ← List.length_append, List.take_left,
          List.append_assoc]
      rw [hpos]
      calc
        trace config ((w ++ (u ++ rest')).take (0 + w.length + u.length) ++ tail)
            = trace config (w ++ (u ++ tail)) := by rw [hcut]
        _ = traceOn p ⟨0 + w.length, u ++ tail⟩ :=
            trace_of_header (Read.header_of_head hh hlength hhead)
        _ = traceOn p ⟨0 + w.length, u ++ rest'⟩ := htail tail
    · exact (hstart.2 n x (hnone n x hroot)).elim

/-- What stands behind the end tag of the root element makes no difference. Where a document is read
without an error and an element ends in it, any other bytes in place of those behind the offset that
is reached leave the reading what it is, whatever its handler does, and so they do when it is read
with namespaces. -/
theorem readings_tail (config : Config) (doc tail : Bytes) {g : Handler τ Event} (hg : g.Tireless)
    (t : τ) :
    let whole := read config doc g.recording ([], t)
    let other := doc.take whole.position ++ tail
    whole.error = none → (∃ n x, .endElement n x ∈ whole.state.1) →
      (∀ (h : Handler σ Event) (s : σ), read config other h s = read config doc h s) ∧
      ∀ (registry : Registry) (scope : Scope) (h : Handler σ NsEvent) (s : σ),
        readResolved config other registry scope h s =
          readResolved config doc registry scope h s := by
  intro whole other he hroot
  obtain ⟨n, x, hroot⟩ := hroot
  obtain ⟨herror, -, hfull⟩ := read_recording config doc g t
  obtain ⟨hseen, hposition⟩ := hfull (hg.feed t _)
  have htrace : trace config other = trace config doc := by
    have hother : other = doc.take (trace config doc).position ++ tail := by rw [← hposition]
    rw [hother]
    refine trace_tail (n := n) (x := x) ?_ ?_ tail
    · exact (Option.or_eq_none_iff.1 (herror.symm.trans he)).2
    · rw [← hseen]
      exact hroot
  refine ⟨fun h s => ?_, fun registry scope h s => ?_⟩
  · rw [read_eq, htrace, ← read_eq]
  · rw [readResolved_eq, htrace, ← readResolved_eq]

/-- A tag that does not end, with a value and a reference that do not end either, in place of text. -/
theorem readings_tail_unended :
    let doc := utf8 "<a b=\"&lt;\"/>text"
    let other := utf8 "<a b=\"&lt;\"/><c d=\"&"
    let whole := read .lenient doc Handler.keeping.recording ([], [])
    whole.error = none ∧ (∃ n x, .endElement n x ∈ whole.state.1) ∧ whole.position = 13 ∧
      read .lenient other Handler.keeping [] = read .lenient doc Handler.keeping [] ∧
      readResolved .lenient other {} .empty Handler.keeping [] =
        readResolved .lenient doc {} .empty Handler.keeping [] := by
  intro doc other whole
  have he : whole.error = none := by decide +kernel
  have hroot : .endElement ⟨[], utf8 "a"⟩ ⟨0, 13⟩ ∈ whole.state.1 := by decide +kernel
  have hposition : whole.position = 13 := by decide +kernel
  obtain ⟨hread, -⟩ := readings_tail .lenient doc (utf8 "<c d=\"&")
    (g := Handler.keeping) (σ := List Event) (fun _ _ => rfl) [] he ⟨_, _, hroot⟩
  obtain ⟨-, hresolved⟩ := readings_tail .lenient doc (utf8 "<c d=\"&")
    (g := Handler.keeping) (σ := List NsEvent) (fun _ _ => rfl) [] he ⟨_, _, hroot⟩
  change whole.position = 13 at hposition
  rw [hposition] at hread hresolved
  exact ⟨he, ⟨_, _, hroot⟩, hposition, hread _ [], hresolved {} .empty _ []⟩

end XmlStream
