import XmlStream.Proofs.Protocol
/-! Where a reading stands: what it has told after some steps, the place it has come to and what is
ahead. Every event of a document is told by its header or by one step from where the reading stood,
so the source of an event is what that step passes. -/
namespace XmlStream
open Grammar Document

variable {σ : Type} {config : Config} {doc : Bytes}

/-- A document that begins with `<` is read from there, unless it is read strictly. -/
theorem Read.header_of_angle (hhead : doc.head? = some .openAngle) :
    Read.header .lenient (.atStart doc) = .ok ⟨[], some ⟨0, .content⟩⟩ ⟨0, doc⟩ :=
  (Read.reads_header .lenient _ _ _).2 ⟨[], doc, rfl, rfl, [], [], [], rfl,
    .inl ⟨rfl, .inr hhead⟩, nofun, .lenient rfl hhead⟩

/-- What a document has told, the place and the cursor after its header and some steps. -/
inductive Stands (config : Config) (doc : Bytes) : List Emission → Option Place → Cursor → Prop
  | header {p c} : Read.header config (.atStart doc) = .ok p c →
      Stands config doc p.emissions p.place c
  | step {es place c p c'} : Stands config doc es (some place) c →
      Read.step place c = .ok p c' → Stands config doc (es ++ p.emissions) p.place c'

namespace Stands

variable {es : List Emission} {place : Option Place} {c : Cursor}

theorem start (hhead : doc.head? = some .openAngle) :
    Stands .lenient doc [] (some ⟨0, .content⟩) ⟨0, doc⟩ :=
  .header (Read.header_of_angle hhead)

theorem passed (h : Stands config doc es place c) :
    ∃ passed, doc = passed ++ c.rest ∧ c.pos = passed.length := by
  induction h with
  | header hh =>
    obtain ⟨w, rest, hw, rfl, -⟩ := (Read.reads_header _ _ _ _).1 hh
    exact ⟨w, hw, Nat.zero_add _⟩
  | step _ hs ih =>
    obtain ⟨passed, rfl, hpos⟩ := ih
    obtain ⟨w, rest, hw, rfl, -⟩ := (Read.reads_step _ _ _ _).1 hs
    exact ⟨passed ++ w, by rw [hw, List.append_assoc], by rw [hpos, List.length_append]⟩

theorem drop_pos (h : Stands config doc es place c) : doc.drop c.pos = c.rest := by
  obtain ⟨passed, rfl, hpos⟩ := h.passed
  rw [hpos, List.drop_left]

theorem trace_eq (h : Stands config doc es place c) :
    trace config doc = .prepend es (traceOn ⟨[], place⟩ c) := by
  induction h with
  | header hh => rw [trace_of_header hh, traceOn_emissions]
  | step _ hs ih =>
    rw [ih, traceOn_step hs]
    simp only [Trace.prepend, List.append_assoc]

/-- A reading that stands somewhere goes on to where all has been told. -/
theorem last (p : Progress) (hp : p.place = place) (h : Stands config doc es place c) :
    ∃ place' c', Stands config doc (trace config doc).emissions place' c' ∧
      c'.pos ≤ (trace config doc).position := by
  -- the induction is on the steps to come; what the last one has told is in `es` already
  induction p, c using traceOn.induct generalizing es place with
  | case1 p c ih =>
    have htrace := h.trace_eq
    cases place with
    | none =>
      rw [traceOn_over] at htrace
      have htold : (trace config doc).emissions = es := by rw [htrace]; exact List.append_nil es
      refine ⟨none, c, ?_, ?_⟩
      · rw [htold]
        exact h
      · rw [htrace]
        exact Nat.le_refl _
    | some place =>
      cases hs : Read.step place c with
      | error cause c' =>
        rw [traceOn_error rfl hs] at htrace
        have htold : (trace config doc).emissions = es := by rw [htrace]; exact List.append_nil es
        have hforward := Read.forward_step place c
        rw [hs] at hforward
        obtain ⟨w, -, hpos⟩ := hforward
        refine ⟨some place, c, ?_, ?_⟩
        · rw [htold]
          exact h
        · rw [htrace]
          exact Nat.le.intro hpos.symm
      | ok p' c' => exact ih place hp p' c' hs rfl (h.step hs)

/-- An event that has been told was told by the header, which tells nothing but a declaration, or by
a step from where the reading stood. -/
theorem origin (h : Stands config doc es place c) {u v : List Emission} {e : Emission}
    (he : es = u ++ e :: v) : (∃ n, e.event = .startDeclaration n) ∨
      ∃ es' place' c' p c'' x y, Stands config doc es' (some place') c' ∧
        Read.step place' c' = .ok p c'' ∧ p.emissions = x ++ e :: y ∧ u = es' ++ x := by
  induction h generalizing v with
  | header hh =>
    have hmem : e ∈ u ++ e :: v := by simp
    rw [← he] at hmem
    obtain ⟨_, _, -, -, _, _, _, -, -, -, hs⟩ := (Read.reads_header _ _ _ _).1 hh
    cases hs with
    | lenient => cases hmem
    | strict =>
      obtain rfl := List.mem_singleton.1 hmem
      exact .inl ⟨_, rfl⟩
  | @step es place c p c' hstands hs ih =>
    obtain ⟨x, hu, hp⟩ | ⟨y, hes, hp⟩ := List.append_eq_append_iff.1 he
    · exact .inr ⟨es, place, c, p, c', x, v, hstands, hs, hp, hu⟩
    · cases y with
      | nil =>
        refine .inr ⟨es, place, c, p, c', [], v, hstands, hs, hp.symm, ?_⟩
        rw [hes, List.append_nil, List.append_nil]
      | cons e' y =>
        obtain ⟨rfl, -⟩ := List.cons.inj hp
        exact ih hes

end Stands

/-- All that is told of a document has been told where its reading ends, unless its header fails. -/
theorem exists_stands (config : Config) (doc : Bytes) : (trace config doc).emissions = [] ∨
    ∃ place c, Stands config doc (trace config doc).emissions place c ∧
      c.pos ≤ (trace config doc).position := by
  cases hh : Read.header config (.atStart doc) with
  | error cause c =>
    rw [trace_of_header_error hh]
    exact .inl rfl
  | ok p c => exact .inr ((Stands.header hh).last p rfl)

/-- A construct tells one event, but for the two of a tag that closes itself. -/
theorem Construct.lone {place : Place} {pos : Nat} {w rest : Bytes} {p : Progress} {e : Emission}
    (h : Construct place pos w p rest) (he : e ∈ p.emissions) (hstart : e.event.isStart = false)
    (hend : e.event.isEnd = false) : p.emissions = [e] := by
  cases h with
  | finish | outside | comment | openTag => cases he
  | cdata =>
    split at he
    · cases he
    · rename_i hd
      rw [List.mem_singleton.1 he]
      exact if_neg hd
  | selfClose =>
    obtain rfl | he := List.mem_cons.1 he
    · cases hstart
    · rw [List.mem_singleton.1 he] at hend
      cases hend
  | _ => rw [List.mem_singleton.1 he]

/-- The step that tells an event, unless it is a declaration that the header tells or an element's
start or end. -/
theorem exists_step {u v : List Event} {e : Event} (he : (trace config doc).events = u ++ e :: v)
    (hstart : e.isStart = false) (hend : e.isEnd = false) : (∃ n, e = .startDeclaration n) ∨
      ∃ es place c p c' pos, Stands config doc es (some place) c ∧
        Read.step place c = .ok p c' ∧ p.emissions = [⟨e, pos⟩] ∧ u = told es := by
  obtain ⟨eu, ev, hemissions, rfl, hv⟩ := List.map_eq_append_iff.1 he
  obtain ⟨⟨_, pos⟩, ev, rfl, rfl, -⟩ := List.map_eq_cons_iff.1 hv
  obtain hnone | ⟨place, c, hstands, -⟩ := exists_stands config doc
  · rw [hemissions] at hnone
    simp at hnone
  · rw [hemissions] at hstands
    obtain h | ⟨es, place, c, p, c', x, y, hbefore, hs, hp, hu⟩ := hstands.origin rfl
    · exact .inl h
    · obtain ⟨w, rest, -, -, hc⟩ := (Read.reads_step _ _ _ _).1 hs
      have hlone := hc.lone (by rw [hp]; simp) hstart hend
      rw [hlone, List.singleton_eq_append_iff] at hp
      obtain ⟨rfl, -⟩ | ⟨-, hp⟩ := hp
      · exact .inr ⟨es, place, c, p, c', pos, hbefore, hs, hlone, by rw [hu, List.append_nil]⟩
      · cases hp

/-- What a handler has seen up to an event is how the events of the document begin. -/
theorem events_of_seen {h : Handler σ Event} {s : σ} {u : List Event} {e : Event}
    (hu : u ++ [e] <+: (read config doc h.recording ([], s)).state.1) :
    ∃ more, (trace config doc).events = u ++ e :: more := by
  obtain ⟨-, ⟨v, hv⟩, -⟩ := read_recording config doc h s
  obtain ⟨more, hmore⟩ := hu.trans ⟨v, hv.symm⟩
  exact ⟨more, by rw [← hmore, List.append_assoc, List.singleton_append]⟩

theorem handOver_recording (h : Handler σ Event) (seen : List Event) (s : σ)
    (es : List Emission) : ∃ u v, es = u ++ v ∧
      (handOver h.recording (seen, s) es).1.1 = seen ++ told u ∧
      (((handOver h.recording (seen, s) es).2 = none ∧ v = []) ∨
        ∃ error u' e, (handOver h.recording (seen, s) es).2 = some (error, e.position) ∧
          u = u' ++ [e]) := by
  induction es generalizing seen s with
  | nil => exact ⟨[], [], rfl, (List.append_nil _).symm, .inl ⟨rfl, rfl⟩⟩
  | cons e es ih =>
    rcases hs : h s e.event with ⟨s', _ | error⟩
    · obtain ⟨u, v, rfl, hseen, hstop⟩ := ih (seen ++ [e.event]) s'
      simp only [handOver, Handler.recording_eq hs]
      refine ⟨e :: u, v, rfl, by rw [hseen, List.append_assoc]; rfl, ?_⟩
      obtain h | ⟨error, u', e', hstop, rfl⟩ := hstop
      · exact .inl h
      · exact .inr ⟨error, e :: u', e', hstop, rfl⟩
    · simp only [handOver, Handler.recording_eq hs]
      exact ⟨[e], es, rfl, rfl, .inr ⟨error, [], e, rfl, rfl⟩⟩

/-- A reading has come to where the document ends, or to where the last event was told that its
handler has seen. -/
theorem read_handed (config : Config) (doc : Bytes) (h : Handler σ Event) (s : σ) :
    let reading := read config doc h.recording ([], s)
    ∃ es, es <+: (trace config doc).emissions ∧ reading.state.1 = told es ∧
      ((es = (trace config doc).emissions ∧ reading.position = (trace config doc).position) ∨
        ∃ u e, es = u ++ [e] ∧ reading.position = e.position) := by
  intro reading
  obtain ⟨u, v, huv, hseen, hstop⟩ :=
    handOver_recording h [] s (trace config doc).emissions
  have hreading : reading = (trace config doc).handOver h.recording ([], s) := read_eq ..
  refine ⟨u, ⟨v, huv.symm⟩, ?_⟩
  rw [hreading, Trace.handOver]
  generalize handOver h.recording ([], s) (trace config doc).emissions = out at hseen hstop
  obtain ⟨s', stopped⟩ := out
  obtain ⟨rfl, rfl⟩ | ⟨error, u', e, rfl, rfl⟩ := hstop
  · exact ⟨hseen, .inl ⟨by rw [huv, List.append_nil], rfl⟩⟩
  · exact ⟨hseen, .inr ⟨u', e, rfl, rfl⟩⟩

/-! Sources. -/

/-- After some events a run of text is told next, from a slice of the document. -/
inductive TextRun (config : Config) (doc : Bytes) : List Event → Span → Slice → Prop
  | mk {es d pos raw rest p v} :
      Stands config doc es (some ⟨d + 1, .content⟩) ⟨pos, raw ++ rest⟩ →
      raw ≠ [] → raw.head? ≠ some .openAngle →
      Read.step ⟨d + 1, .content⟩ ⟨pos, raw ++ rest⟩ = .ok p ⟨pos + raw.length, rest⟩ →
      told p.emissions = [.characters v] → TextRun config doc (told es) v ⟨pos, raw⟩

inductive Section (config : Config) (doc : Bytes) : List Event → Span → Slice → Prop
  | mk {es d pos body rest p c v} :
      Stands config doc es (some ⟨d + 1, .content⟩)
        ⟨pos, utf8 "<![CDATA[" ++ body ++ utf8 "]]>" ++ rest⟩ → UpTo (utf8 "]]>") body →
      Read.step ⟨d + 1, .content⟩ ⟨pos, utf8 "<![CDATA[" ++ body ++ utf8 "]]>" ++ rest⟩ =
        .ok p c → told p.emissions = [.characters v] →
      Section config doc (told es) v ⟨pos + 9, body⟩

inductive Value (config : Config) (doc : Bytes) : List Event → QName → Span → Slice → Prop
  | mk {es place pos w n raw rest p v} :
      Stands config doc es (some place) ⟨pos, w ++ (n.text ++ .equals :: quoted raw) ++ rest⟩ →
      place.phase ≠ .content → Blanks w → IsQName n →
      Read.step place ⟨pos, w ++ (n.text ++ .equals :: quoted raw) ++ rest⟩ =
        .ok p ⟨pos + (w ++ (n.text ++ .equals :: quoted raw)).length, rest⟩ →
      told p.emissions = [.attr n v] →
      Value config doc (told es) n v ⟨pos + w.length + n.text.length + 2, raw⟩

variable {u more : List Event} {n : QName} {v : Span} {source : Slice}

theorem characters_source (he : (trace config doc).events = u ++ .characters v :: more) :
    ∃ source, TextRun config doc u v source ∨ Section config doc u v source := by
  obtain ⟨_, ⟨⟩⟩ | ⟨es, place, ⟨here, text⟩, p, c', pos, hstands, hs, hp, rfl⟩ :=
    exists_step he rfl rfl
  obtain ⟨w, rest, hw, rfl, hc⟩ := (Read.reads_step _ _ _ _).1 hs
  obtain rfl : text = w ++ rest := hw
  have htold : told p.emissions = [.characters v] := congrArg told hp
  cases hc with
  | text hne ht =>
    have hhead : w.head? ≠ some .openAngle := by
      obtain ⟨b, r, rfl⟩ := List.exists_cons_of_ne_nil hne
      exact fun h => ht.head_ne (by decide) rfl (Option.some.inj h)
    exact ⟨_, .inl (.mk hstands hne hhead hs htold)⟩
  | @cdata d _ b _ hb =>
    split at hp
    · cases hp
    · rename_i hd
      obtain ⟨d, rfl⟩ := Nat.exists_eq_succ_of_ne_zero hd
      exact ⟨_, .inr (.mk hstands hb hs htold)⟩
  | _ => cases hp

theorem attr_source (he : (trace config doc).events = u ++ .attr n v :: more) :
    ∃ source, Value config doc u n v source := by
  obtain ⟨_, ⟨⟩⟩ | ⟨es, place, ⟨here, text⟩, p, c', pos, hstands, hs, hp, rfl⟩ :=
    exists_step he rfl rfl
  obtain ⟨w, rest, hw, rfl, hc⟩ := (Read.reads_step _ _ _ _).1 hs
  obtain rfl : text = w ++ rest := hw
  have htold : told p.emissions = [.attr n v] := congrArg told hp
  cases hc with
  | cdata => split at hp <;> cases hp
  | attr hu ha hv | declarationAttr hu ha hv =>
    cases hp
    obtain ⟨raw, -, rfl, -⟩ := hv
    exact ⟨_, .mk hstands nofun hu ha hs htold⟩
  | _ => cases hp

theorem TextRun.spelt (h : TextRun config doc u v source) : ∃ rest,
    doc.drop source.offset = source.bytes ++ rest ∧
      Read.Spelt .openAngle source.offset source.bytes v rest := by
  obtain @⟨es, d, pos, raw, rest, p, _, hstands, hne, hhead, hs, htold⟩ := h
  obtain ⟨w, rest', hw, hc, h⟩ := (Read.reads_step _ _ _ _).1 hs
  obtain ⟨-, rfl⟩ := Cursor.mk.inj hc
  obtain rfl := List.append_cancel_right hw
  refine ⟨rest, hstands.drop_pos, ?_⟩
  obtain ⟨rfl, -⟩ | ⟨r, rfl⟩ | ⟨b, r, rfl, -, ⟨hd, -⟩ | ⟨-, t, ht, rfl⟩⟩ := Read.content_cases h
  · exact (hne rfl).elim
  · exact (hhead rfl).elim
  · cases hd
  · cases htold
    exact ht

theorem Section.stable (h : Section config doc u v source) : v = .stable source := by
  obtain @⟨es, d, pos, body, rest, p, c, _, hstands, hb, hs, htold⟩ := h
  have hread := (Read.reads_step ⟨d + 1, .content⟩ ⟨pos, _⟩ _ _).2
    ⟨_, rest, rfl, rfl, .cdata hb⟩
  cases hs.symm.trans hread
  cases htold
  rfl

/-- Blanks before a name end where it begins. -/
theorem blanks_unique {w w' t t' : Bytes} {n : QName} (hn : IsQName n) (hw : Blanks w)
    (hw' : Blanks w') (h : w ++ (n.text ++ t) = w' ++ (n.text ++ t')) : w = w' ∧ t = t' := by
  have hspan {w t : Bytes} (hw : Blanks w) :
      (w ++ (n.text ++ t)).takeWhile Byte.isBlank = w := by
    have hhead := Read.not_blank_of_qname hn t []
    rw [List.append_nil] at hhead
    exact (Read.span_iff.2 ⟨rfl, hw, hhead⟩).1
  obtain rfl : w = w' := by rw [← hspan hw (t := t), h, hspan hw']
  exact ⟨rfl, List.append_cancel_left (List.append_cancel_left h)⟩

theorem spelt_of_quoted {pos : Nat} {raw : Bytes} {v : Span} (h : Read.Quoted pos (quoted raw) v)
    (rest : Bytes) : Read.Spelt .quote (pos + 1) raw v (.quote :: rest) := by
  obtain ⟨raw', bytes, hraw, hrun, rfl⟩ := h
  obtain rfl : raw = raw' := by simpa [quoted] using hraw
  exact ⟨.inr rfl, bytes, hrun, rfl⟩

/-- What a value is told as; the quote behind it is the one that ends it. -/
theorem Value.spelt (h : Value config doc u n v source) : ∃ rest,
    doc.drop source.offset = source.bytes ++ .quote :: rest ∧
      Read.Spelt .quote source.offset source.bytes v (.quote :: rest) := by
  obtain @⟨es, place, pos, w, _, raw, rest, p, _, hstands, hphase, hw, hn, hs, htold⟩ := h
  obtain ⟨w', rest', hw', hc, h⟩ := (Read.reads_step _ _ _ _).1 hs
  obtain ⟨-, rfl⟩ := Cursor.mk.inj hc
  obtain rfl := List.append_cancel_right hw'
  refine ⟨rest, ?_, ?_⟩
  · have hlength : pos + w.length + n.text.length + 2 =
        pos + (w ++ (n.text ++ [Byte.equals, .quote])).length := by simp; omega
    have hahead : w ++ (n.text ++ .equals :: quoted raw) ++ rest =
        w ++ (n.text ++ [.equals, .quote]) ++ (raw ++ .quote :: rest) := by simp [quoted]
    rw [hlength, ← List.drop_drop, hstands.drop_pos, hahead, List.drop_left]
  · generalize hword : w ++ (n.text ++ .equals :: quoted raw) = word at h
    cases h with
    | attr hu ha hv | declarationAttr hu ha hv =>
      cases htold
      obtain ⟨rfl, ht⟩ := blanks_unique hn hw hu hword
      cases ht
      exact spelt_of_quoted hv rest
    | tagEnd | selfClose | declarationEnd => cases htold
    | _ => exact (hphase rfl).elim

end XmlStream
