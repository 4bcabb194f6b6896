import XmlStream.Proofs.Decoding
/-! References that reach over markup. A reference goes on to the next `;` of the document, so text
may have `<` and a value may have `"` in it, but nowhere else than inside of a reference. A reference
that never ends is refused. -/
namespace XmlStream
open Grammar Document

variable {σ : Type}

/-- Each occurrence of a byte stands inside of a reference: between an `&` that opens one and the
first `;` after that. -/
def WithinReferences (stop : Byte) (raw : Bytes) : Prop :=
  ∀ a b, raw = a ++ stop :: b → ∃ x v n m y, Run stop x v ∧ a = x ++ .ampersand :: n ∧
    b = m ++ .semicolon :: y ∧ .semicolon ∉ n ++ m

structure Enclosed (stop : Byte) (raw : Bytes) : Prop where
  within : WithinReferences stop raw
  ended : ∀ a b, raw = a ++ .ampersand :: b → .semicolon ∈ b

namespace Grammar

variable {stop : Byte} {w v : Bytes}

theorem Run.within (h : Run stop w v) (hs : stop ≠ .ampersand) (hsemi : stop ≠ .semicolon) :
    WithinReferences stop w := by
  intro a b hw
  induction h generalizing a with
  | nil => simp at hw
  | @plain c w v hc ha _ ih =>
    cases a with
    | nil => exact (hc (List.cons.inj hw).1).elim
    | cons c' a =>
      rw [List.cons_append, List.cons.injEq] at hw
      obtain ⟨rfl, hw⟩ := hw
      obtain ⟨x, v', n, m, y, hx, rfl, hb, hn⟩ := ih a hw
      exact ⟨c :: x, _, n, m, y, .plain hc ha hx, rfl, hb, hn⟩
  | @reference n w v hne hn _ ih =>
    cases a with
    | nil => exact (hs (List.cons.inj hw).1.symm).elim
    | cons c a =>
      rw [List.cons_append, List.cons.injEq] at hw
      obtain ⟨rfl, hw⟩ := hw
      obtain ⟨t, rfl, ht⟩ | ⟨t, rfl, ht⟩ := List.append_eq_append_iff.1 hw
      · -- the byte comes after the reference
        cases t with
        | nil => exact (hsemi (List.cons.inj ht).1.symm).elim
        | cons c t =>
          rw [List.cons_append, List.cons.injEq] at ht
          obtain ⟨rfl, ht⟩ := ht
          obtain ⟨x, v', n', m, y, hx, rfl, hb, hn'⟩ := ih t ht
          exact ⟨.ampersand :: (n ++ .semicolon :: x), _, n', m, y, .reference hne hn hx, by simp,
            hb, hn'⟩
      · -- the byte stands in its name
        cases t with
        | nil => exact (hsemi (List.cons.inj ht).1).elim
        | cons c t =>
          rw [List.cons_append, List.cons.injEq] at ht
          obtain ⟨rfl, rfl⟩ := ht
          refine ⟨[], _, a, t, w, .nil, rfl, rfl, fun h => hn ?_⟩
          simp only [List.mem_append, List.mem_cons] at h ⊢
          exact h.imp id .inr

/-- Every `&` of a run has a `;` after it. -/
theorem Run.semicolon_mem (h : Run stop w v) {a b : Bytes} (hw : w = a ++ .ampersand :: b) :
    .semicolon ∈ b := by
  induction h generalizing a with
  | nil => simp at hw
  | plain _ ha _ ih =>
    cases a with
    | nil => exact (ha (List.cons.inj hw).1).elim
    | cons c a => exact ih (List.cons.inj hw).2
  | @reference n w v _ _ _ ih =>
    cases a with
    | nil =>
      obtain rfl : n ++ .semicolon :: w = b := (List.cons.inj hw).2
      simp
    | cons c a =>
      have hw : n ++ .semicolon :: w = a ++ .ampersand :: b := (List.cons.inj hw).2
      obtain ⟨t, -, ht⟩ | ⟨t, -, ht⟩ := List.append_eq_append_iff.1 hw
      · cases t with
        | nil => cases ht
        | cons c t => exact ih (List.cons.inj ht).2
      · cases t with
        | nil => cases ht
        | cons c t =>
          obtain rfl : b = t ++ .semicolon :: w := (List.cons.inj ht).2
          simp

end Grammar

namespace Read

variable {stop : Byte} {x v tail : Bytes}

theorem reference_unended (ht : .semicolon ∉ tail) (pos : Nat) :
    reference ⟨pos, tail⟩ = .error .referenceUnclosed ⟨pos, tail⟩ := by
  have hdrop : tail.dropWhile (· != .semicolon) = [] :=
    (span_iff.2 ⟨(List.append_nil _).symm, all_ne_iff.2 ht, nofun⟩).2
  simp only [reference, hdrop]

theorem decoded_unended (h : Run stop x v) (ht : .semicolon ∉ tail) (buffer : Buffer) (pos : Nat) :
    decoded stop buffer ⟨pos, x ++ .ampersand :: tail⟩ =
      .error .referenceUnclosed ⟨pos + x.length + 1, tail⟩ := by
  induction h generalizing buffer pos with
  | nil =>
    rw [List.nil_append, decoded_ampersand, reference_unended ht]
    rfl
  | @plain b x v hb ha _ ih =>
    rw [List.cons_append, decoded_plain (by simp [isPlain, hb, ha]), ih, List.length_cons,
      Nat.add_assoc pos, Nat.add_comm 1]
  | @reference n x v hn hm _ ih =>
    have he : reference ⟨pos + 1, n ++ .semicolon :: x ++ .ampersand :: tail⟩
        = .ok n ⟨pos + 1 + (n ++ [Byte.semicolon]).length, x ++ .ampersand :: tail⟩ :=
      (reads_reference _ _ _).2 ⟨_, _, by simp, rfl, rfl, hn, hm⟩
    rw [List.cons_append, decoded_ampersand, he]
    simp only
    rw [ih]
    simp [Nat.add_comm, Nat.add_left_comm]

/-- A reference that never ends is refused right after its `&`. -/
theorem run_unended (h : Run stop x v) (ht : .semicolon ∉ tail)
    (pos : Nat) : run stop ⟨pos, x ++ .ampersand :: tail⟩ =
      .error .referenceUnclosed ⟨pos + x.length + 1, tail⟩ := by
  have hahead : ((x ++ .ampersand :: tail).dropWhile (isPlain stop)).head? = some .ampersand := by
    obtain ⟨u, hu, ⟨rfl, -⟩ | ⟨n, r, v', rfl, -⟩⟩ := h.split
    · rw [List.dropWhile_append_of_pos hu]
      simp [isPlain]
    · rw [List.append_assoc, List.dropWhile_append_of_pos hu]
      simp [isPlain]
  simp only [run, Cursor.skipWhile, Cursor.peek?, hahead, if_true, decoded_unended h ht]

end Read

variable {config : Config} {doc : Bytes} {h : Handler σ Event} {s : σ}

/-- A reading ends where a step fails that it stands before, unless its handler stops it. -/
theorem error_of_step {es : List Emission} {place : Place} {c c' : Cursor} {cause : Cause}
    (hstands : Stands config doc es (some place) c) (hs : Read.step place c = .error cause c')
    (hfed : (h.feed s (told es)).2 = none) :
    (read config doc h.recording ([], s)).error = some (.malformed cause (some c'.pos)) := by
  have htrace := hstands.trace_eq
  rw [traceOn_error rfl hs] at htrace
  have hevents : (trace config doc).events = told es := by
    rw [htrace]
    simp [Trace.prepend, Trace.events, told]
  rw [read_error, hevents, (h.feed_recording_eq [] s (told es)).2, hfed, Option.none_or, htrace]
  rfl

/-! Markup in the name of a reference. -/

theorem run_over_markup : Run .openAngle (utf8 "&<b/>;") (utf8 "<b/>") :=
  .reference (n := utf8 "<b/>") (by decide) (by decide) .nil

theorem run_over_tags : Run .quote (utf8 "&\"/><b w=\";") (utf8 "\"/><b w=\"") :=
  .reference (n := utf8 "\"/><b w=\"") (by decide) (by decide) .nil

theorem textRun_over_markup : TextRun .lenient (utf8 "<a>&<b/>;</a>")
    [.startElement ⟨[], utf8 "a"⟩ ⟨0, 3⟩] (.transient (utf8 "<b/>")) ⟨3, utf8 "&<b/>;"⟩ := by
  have hopen : Read.step ⟨0, .content⟩ ⟨0, utf8 "<a>&<b/>;</a>"⟩ =
      .ok ⟨[], some ⟨0, .tag 0 ⟨[], utf8 "a"⟩⟩⟩ ⟨2, utf8 ">&<b/>;</a>"⟩ := rfl
  have hend : Read.step ⟨0, .tag 0 ⟨[], utf8 "a"⟩⟩ ⟨2, utf8 ">&<b/>;</a>"⟩ =
      .ok ⟨[⟨.startElement ⟨[], utf8 "a"⟩ ⟨0, 3⟩, 3⟩], some ⟨1, .content⟩⟩
        ⟨3, utf8 "&<b/>;" ++ utf8 "</a>"⟩ := rfl
  have htext := (Read.reads_step ⟨1, .content⟩ ⟨3, utf8 "&<b/>;" ++ utf8 "</a>"⟩ _ _).2
    ⟨_, _, rfl, rfl, .text (by decide) ⟨.inr rfl, _, run_over_markup, rfl⟩⟩
  have hstands := ((Stands.start rfl).step hopen).step hend
  exact .mk hstands (by decide) (by decide) htext rfl

theorem value_over_markup : Value .lenient (utf8 "<a v=\"&\"/><b w=\";\"/>") [] ⟨[], utf8 "v"⟩
    (.transient (utf8 "\"/><b w=\"")) ⟨6, utf8 "&\"/><b w=\";"⟩ := by
  have hopen : Read.step ⟨0, .content⟩ ⟨0, utf8 "<a v=\"&\"/><b w=\";\"/>"⟩ =
      .ok ⟨[], some ⟨0, .tag 0 ⟨[], utf8 "a"⟩⟩⟩ ⟨2, [32] ++ (utf8 "v" ++ .equals ::
        quoted (utf8 "&\"/><b w=\";")) ++ utf8 "/>"⟩ := rfl
  have hname : IsQName ⟨[], utf8 "v"⟩ := isQName_of_letter rfl
  have hattr := (Read.reads_step ⟨0, .tag 0 ⟨[], utf8 "a"⟩⟩ ⟨2, _⟩ _ _).2
    ⟨_, utf8 "/>", rfl, rfl, .attr blanks_space hname ⟨_, _, rfl, run_over_tags, rfl⟩ rfl⟩
  have hphase : (⟨0, .tag 0 ⟨[], utf8 "a"⟩⟩ : Place).phase ≠ .content := fun h => by cases h
  exact .mk ((Stands.start rfl).step hopen) hphase blanks_space hname hattr rfl

/-- References in text and values. Characters that are told are a run of text or a section, and each
attribute has a value. In a run of text each `<` stands inside of a reference and in a value each
quote does, and each `&` has a `;` after it. An `&` with no `;` anywhere behind it, outside of the
references before it in its text or value, makes the reading fail right after that `&`. -/
theorem references_within (config : Config) (doc : Bytes) (h : Handler σ Event) (s : σ) :
    let reading := read config doc h.recording ([], s)
    let seen := reading.state.1
    (∀ u v, u ++ [.characters v] <+: seen →
      ∃ source, TextRun config doc u v source ∨ Section config doc u v source) ∧
    (∀ u v source, TextRun config doc u v source → Enclosed .openAngle source.bytes) ∧
    (∀ u n v, u ++ [.attr n v] <+: seen → ∃ source, Value config doc u n v source) ∧
    (∀ u n v source, Value config doc u n v source → Enclosed .quote source.bytes) ∧
    (∀ es d pos x v tail,
      Stands config doc es (some ⟨d + 1, .content⟩) ⟨pos, x ++ .ampersand :: tail⟩ →
      Run .openAngle x v → .semicolon ∉ tail → (h.feed s (told es)).2 = none →
      reading.error = some (.malformed .referenceUnclosed (some (pos + x.length + 1)))) ∧
    (∀ es place pos w n x v tail,
      Stands config doc es (some place)
        ⟨pos, w ++ (n.text ++ .equals :: .quote :: (x ++ .ampersand :: tail))⟩ →
      place.phase ≠ .content → Blanks w → IsQName n →
      Run .quote x v → .semicolon ∉ tail → (h.feed s (told es)).2 = none →
      reading.error = some (.malformed .referenceUnclosed
        (some (pos + w.length + n.text.length + 2 + x.length + 1)))) := by
  intro reading seen
  refine ⟨fun u v hu => ?_, fun u v source htext => ?_, fun u n v hu => ?_,
    fun u n v source hvalue => ?_, fun es d pos x v tail hstands hx ht hfed => ?_,
    fun es place pos w n x v tail hstands hp hw hn hx ht hfed => ?_⟩
  · obtain ⟨more, hevents⟩ := events_of_seen hu
    exact characters_source hevents
  · obtain ⟨rest, -, -, bytes, hrun, -⟩ := htext.spelt
    exact ⟨hrun.within (by decide) (by decide), fun a b => hrun.semicolon_mem⟩
  · obtain ⟨more, hevents⟩ := events_of_seen hu
    exact attr_source hevents
  · obtain ⟨rest, -, -, bytes, hrun, -⟩ := hvalue.spelt
    exact ⟨hrun.within (by decide) (by decide), fun a b => hrun.semicolon_mem⟩
  · have hhead : (x ++ .ampersand :: tail).head? ≠ some .openAngle := by
      cases hx with
      | nil => simp; decide
      | plain hb => simpa using hb
      | reference => simp; decide
    exact error_of_step hstands (Read.step_text_of_error hhead (Read.run_unended hx ht pos)) hfed
  · exact error_of_step hstands (Read.step_value_of_error hp hw hn (Read.run_unended hx ht _)) hfed

/-- References that have markup in their names, and two that do not end. -/
theorem references_within_markup :
    let text := read .lenient (utf8 "<a>x&y") Handler.keeping.recording ([], [])
    let value := read .lenient (utf8 "<a v=\"x&y") Handler.keeping.recording ([], [])
    (∃ source, TextRun .lenient (utf8 "<a>&<b/>;</a>") [.startElement ⟨[], utf8 "a"⟩ ⟨0, 3⟩]
        (.transient (utf8 "<b/>")) source ∨
      Section .lenient (utf8 "<a>&<b/>;</a>") [.startElement ⟨[], utf8 "a"⟩ ⟨0, 3⟩]
        (.transient (utf8 "<b/>")) source) ∧
      Enclosed .openAngle (utf8 "&<b/>;") ∧
      (∃ source, Value .lenient (utf8 "<a v=\"&\"/><b w=\";\"/>") [] ⟨[], utf8 "v"⟩
        (.transient (utf8 "\"/><b w=\"")) source) ∧
      Enclosed .quote (utf8 "&\"/><b w=\";") ∧
      text.error = some (.malformed .referenceUnclosed (some 5)) ∧
      value.error = some (.malformed .referenceUnclosed (some 8)) := by
  intro text value
  have hrun (stop : Byte) (hs : (120 : Byte) ≠ stop) : Run stop (utf8 "x") (utf8 "x") :=
    .plain hs (by decide) .nil
  have hname : IsQName ⟨[], utf8 "v"⟩ := isQName_of_letter rfl
  obtain ⟨hcharacters, htext, -, -, -, -⟩ :=
    references_within .lenient (utf8 "<a>&<b/>;</a>") Handler.keeping []
  obtain ⟨-, -, hattr, hvalue, -, -⟩ :=
    references_within .lenient (utf8 "<a v=\"&\"/><b w=\";\"/>") Handler.keeping []
  obtain ⟨-, -, -, -, htextFails, -⟩ :=
    references_within .lenient (utf8 "<a>x&y") Handler.keeping []
  obtain ⟨-, -, -, -, -, hvalueFails⟩ :=
    references_within .lenient (utf8 "<a v=\"x&y") Handler.keeping []
  have hopen : Read.step ⟨0, .content⟩ ⟨0, utf8 "<a>x&y"⟩ =
      .ok ⟨[], some ⟨0, .tag 0 ⟨[], utf8 "a"⟩⟩⟩ ⟨2, utf8 ">x&y"⟩ := rfl
  have hend : Read.step ⟨0, .tag 0 ⟨[], utf8 "a"⟩⟩ ⟨2, utf8 ">x&y"⟩ =
      .ok ⟨[⟨.startElement ⟨[], utf8 "a"⟩ ⟨0, 3⟩, 3⟩], some ⟨1, .content⟩⟩
        ⟨3, utf8 "x" ++ .ampersand :: utf8 "y"⟩ := rfl
  have hinText := ((Stands.start rfl).step hopen).step hend
  have hopen : Read.step ⟨0, .content⟩ ⟨0, utf8 "<a v=\"x&y"⟩ =
      .ok ⟨[], some ⟨0, .tag 0 ⟨[], utf8 "a"⟩⟩⟩ ⟨2, [32] ++ (utf8 "v" ++ .equals :: .quote ::
        (utf8 "x" ++ .ampersand :: utf8 "y"))⟩ := rfl
  have hinTag := (Stands.start rfl).step hopen
  exact ⟨hcharacters _ _ (by decide +kernel), htext _ _ _ textRun_over_markup,
    hattr _ _ _ (by decide +kernel), hvalue _ _ _ _ value_over_markup,
    htextFails _ _ _ _ _ _ hinText (hrun _ (by decide)) (by decide) rfl,
    hvalueFails _ _ _ _ _ _ _ _ hinTag (fun h => by cases h) blanks_space hname
      (hrun _ (by decide)) (by decide) rfl⟩

/-- A tag and an attribute that are read as names of references: both documents are read without an
error, and neither the tag nor the attribute is told. -/
theorem markup_in_references :
    let text := utf8 "<a>&<b/>;</a>"
    let value := utf8 "<a v=\"&\"/><b w=\";\"/>"
    let a : QName := ⟨[], utf8 "a"⟩
    let v : QName := ⟨[], utf8 "v"⟩
    ((read .lenient text Handler.keeping []).error = none ∧
      (read .lenient text Handler.keeping []).state = [.startElement a ⟨0, 3⟩,
        .characters (.transient (utf8 "<b/>")), .endElement a ⟨9, 13⟩] ∧
      ∃ source, TextRun .lenient text [.startElement a ⟨0, 3⟩] (.transient (utf8 "<b/>")) source ∧
        .openAngle ∈ source.bytes) ∧
    (read .lenient value Handler.keeping []).error = none ∧
      (read .lenient value Handler.keeping []).state =
        [.attr v (.transient (utf8 "\"/><b w=\"")), .startElement a ⟨0, 20⟩,
          .endElement a ⟨0, 20⟩] ∧
      ∃ source, Value .lenient value [] v (.transient (utf8 "\"/><b w=\"")) source ∧
        .quote ∈ source.bytes := by
  refine ⟨⟨by decide +kernel, by decide +kernel, _, textRun_over_markup, by decide⟩,
    by decide +kernel, by decide +kernel, _, value_over_markup, by decide⟩

end XmlStream
