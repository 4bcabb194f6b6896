import XmlStream.Proofs.Stopping
/-! Shifting. No read depends on the offset it begins at, be it that it answers or that it fails: the
same bytes further on in a document are read in the same way, and every offset that is told is
further on by as much. Main statement: a byte order mark moves what is read after it and makes no
other difference. -/
namespace XmlStream

namespace Cursor

def shift (n : Nat) (c : Cursor) : Cursor := ⟨c.pos + n, c.rest⟩

variable (n : Nat) (c : Cursor)

@[simp] theorem pos_shift : (c.shift n).pos = c.pos + n := rfl
@[simp] theorem rest_shift : (c.shift n).rest = c.rest := rfl
@[simp] theorem peek?_shift : (c.shift n).peek? = c.peek? := rfl
@[simp] theorem has_shift (m : Nat) : (c.shift n).has m = c.has m := rfl
@[simp] theorem startsWith_shift (text : Bytes) : (c.shift n).startsWith text = c.startsWith text := rfl

@[simp] theorem advance_shift (m : Nat) : (c.shift n).advance m = (c.advance m).shift n := by
  simp [advance, shift, Nat.add_right_comm]

@[simp] theorem skipWhile_shift (p : Byte → Bool) :
    (c.shift n).skipWhile p = (c.skipWhile p).shift n := by
  simp [skipWhile, shift, Nat.add_right_comm]

end Cursor

/-! What stands at an offset, further on. -/

def Span.shift (n : Nat) : Span → Span
  | .stable s => .stable ⟨s.offset + n, s.bytes⟩
  | .transient bytes => .transient bytes

def Extent.shift (n : Nat) (x : Extent) : Extent := ⟨x.start + n, x.stop + n⟩

def Event.shift (n : Nat) : Event → Event
  | .attr name value => .attr name (value.shift n)
  | .startElement name extent => .startElement name (extent.shift n)
  | .endElement name extent => .endElement name (extent.shift n)
  | .characters text => .characters (text.shift n)
  | e => e

def Emission.shift (n : Nat) (e : Emission) : Emission := ⟨e.event.shift n, e.position + n⟩

@[simp] theorem Emission.event_shift (n : Nat) (e : Emission) :
    (e.shift n).event = e.event.shift n := rfl

def Phase.shift (n : Nat) : Phase → Phase
  | .tag start name => .tag (start + n) name
  | phase => phase

def Place.shift (n : Nat) (place : Place) : Place := ⟨place.depth, place.phase.shift n⟩

def Progress.shift (n : Nat) (p : Progress) : Progress :=
  ⟨p.emissions.map (·.shift n), p.place.map (·.shift n)⟩

def Error.shift (n : Nat) : Error → Error
  | .malformed cause offset => .malformed cause (offset.map (· + n))
  | .handler reason => .handler reason

theorem Error.shift_of_offset {n : Nat} {e : Error} (h : e.offset? = none) : e.shift n = e := by
  cases e with
  | malformed cause offset =>
    obtain rfl : offset = none := h
    rfl
  | handler reason => rfl

def Trace.shift (n : Nat) (t : Trace) : Trace :=
  ⟨t.emissions.map (·.shift n), t.error.map (·.shift n), t.position + n⟩

namespace Read

variable {α β γ δ : Type} {n : Nat}

def shiftResult (n : Nat) (f : α → β) :
    EStateM.Result Cause Cursor α → EStateM.Result Cause Cursor β
  | .ok a c => .ok (f a) (c.shift n)
  | .error cause c => .error cause (c.shift n)

variable {f : α → β}

@[simp] theorem shiftResult_ok (a : α) (c : Cursor) :
    shiftResult n f (.ok a c) = .ok (f a) (c.shift n) := rfl

@[simp] theorem shiftResult_error (cause : Cause) (c : Cursor) :
    shiftResult n f (.error cause c) = .error cause (c.shift n) := rfl

@[simp] theorem shiftResult_ite {p : Prop} [Decidable p] (x y : EStateM.Result Cause Cursor α) :
    shiftResult n f (if p then x else y) = if p then shiftResult n f x else shiftResult n f y :=
  apply_ite _ p x y

/-- Further on in a document, the one read does what the other does, and answers what is to be said
there for its answer. -/
def Shifts (n : Nat) (f : α → β) (r : Read α) (r' : Read β) : Prop :=
  ∀ c, r' (c.shift n) = shiftResult n f (r c)

abbrev Steady (n : Nat) (r : Read α) : Prop := Shifts n id r r

theorem Shifts.pure (f : α → β) (a : α) : Shifts n f (pure a : Read α) (pure (f a)) := fun _ => rfl

theorem Shifts.throw (f : α → β) (cause : Cause) :
    Shifts n f (throw cause : Read α) (throw cause) := fun _ => rfl

theorem Shifts.bind {g : γ → δ} {r : Read α} {r' : Read β} {k : α → Read γ}
    {k' : β → Read δ} (hr : Shifts n f r r') (hk : ∀ a, Shifts n g (k a) (k' (f a))) :
    Shifts n g (r >>= k) (r' >>= k') := by
  intro c
  simp only [Bind.bind, EStateM.bind, hr c]
  cases r c with
  | ok a c' => exact hk a c'
  | error cause c' => rfl

theorem Shifts.ite {p : Prop} [Decidable p] {r s : Read α} {r' s' : Read β}
    (hr : Shifts n f r r') (hs : Shifts n f s s') :
    Shifts n f (if p then r else s) (if p then r' else s') := by
  split <;> assumption

theorem shifts_position : Shifts n (· + n) position position := fun _ => rfl

theorem steady_peek? : Steady n peek? := fun _ => rfl

theorem steady_current : Steady n current := by
  intro c
  simp only [current, Cursor.rest_shift]
  split <;> rfl

theorem steady_pass : Steady n pass := by
  intro c
  simp only [pass, Cursor.rest_shift, Cursor.pos_shift, Nat.add_right_comm _ n]
  split <;> rfl

theorem steady_next : Steady n next := .bind steady_pass fun _ => steady_current

theorem steady_skipBlank : Steady n skipBlank := fun c => by
  simp [skipBlank, Cursor.skipBlank]

theorem steady_upTo (stop : Byte) : Steady n (upTo stop) := fun c => by
  simp [upTo]

theorem steady_require (m : Nat) (cause : Cause) : Steady n (require m cause) := fun c => by
  by_cases h : c.has m <;> simp [require, h]

theorem steady_expectNext (text : String) : Steady n (expectNext text) := fun c => by
  simp [expectNext]

theorem steady_name : Steady n name := by
  intro c
  simp only [name, Cursor.rest_shift, Cursor.skipWhile_shift]
  split <;> simp

theorem steady_qname : Steady n qname :=
  .bind steady_name fun _ => .bind steady_peek? fun _ =>
    .ite (.bind steady_next fun _ => .bind steady_name fun _ => .pure _ _) (.pure _ _)

theorem steady_leave (depth : Nat) : Steady n (leave depth) := by
  cases depth <;> exact fun _ => rfl

theorem steady_reference : Steady n reference := by
  intro c
  simp only [reference, Cursor.rest_shift]
  split
  · rfl
  · simp [Cursor.shift, Nat.add_right_comm _ n]

theorem steady_decoded (stop : Byte) (buffer : Buffer) : Steady n (decoded stop buffer) := by
  have key (c : Cursor) (rest : Bytes) : reference ⟨(c.shift n).pos + 1, rest⟩ =
      shiftResult n id (reference ⟨c.pos + 1, rest⟩) := by
    rw [Cursor.pos_shift, Nat.add_right_comm]
    exact steady_reference ⟨c.pos + 1, rest⟩
  intro c
  fun_induction decoded stop buffer c with
  | case1 buffer c plain here hr =>
    change (c.skipWhile (isPlain stop)).rest = [] at hr
    rw [decoded_eq, Cursor.skipWhile_shift, Cursor.rest_shift, hr]
    rfl
  | case2 buffer c here rest cause m he hr =>
    change (c.skipWhile (isPlain stop)).rest = .ampersand :: rest at hr
    rw [decoded_eq, Cursor.skipWhile_shift, Cursor.rest_shift, hr]
    simp only [if_true, key]
    rw [he]
    rfl
  | case3 buffer c plain here rest name m he hr ih =>
    change (c.skipWhile (isPlain stop)).rest = .ampersand :: rest at hr
    rw [decoded_eq, Cursor.skipWhile_shift, Cursor.rest_shift, hr]
    simp only [if_true, key]
    rw [he]
    exact ih
  | case4 buffer c plain here b rest hr hb =>
    change (c.skipWhile (isPlain stop)).rest = b :: rest at hr
    rw [decoded_eq, Cursor.skipWhile_shift, Cursor.rest_shift, hr]
    simp only [hb, if_false]
    rfl

theorem shifts_run (stop : Byte) : Shifts n (Span.shift n) (run stop) (run stop) := by
  intro c
  simp only [run, Cursor.skipWhile_shift, Cursor.peek?_shift, steady_decoded stop .empty c]
  split
  · cases decoded stop .empty c <;> rfl
  · rfl

theorem shifts_text : Shifts n (Span.shift n) text text := by
  refine .bind (shifts_run _) fun v => .bind shifts_position fun pos => ?_
  have hempty : v.shift n = .transient [] ↔ v = .transient [] := by
    cases v <;> simp [Span.shift]
  simp only [hempty]
  split
  · exact .pure _ _
  · exact .pure _ v

theorem steady_openQuote : Steady n openQuote :=
  .bind steady_peek? fun _ => .ite (.bind steady_next fun _ => .pure _ _) (.throw _ _)

theorem steady_closeQuote : Steady n closeQuote := by
  intro c
  simp only [closeQuote, Cursor.rest_shift, Cursor.pos_shift, Nat.add_right_comm _ n]
  split <;> rfl

theorem shifts_value : Shifts n (Span.shift n) value value :=
  .bind steady_openQuote fun _ => .bind (shifts_run _) fun v => .bind steady_closeQuote fun _ =>
    .pure _ v

theorem steady_literal : Steady n literal :=
  .bind steady_openQuote fun _ => .bind (steady_upTo _) fun _ => .bind steady_closeQuote fun _ =>
    .pure _ _

theorem shifts_attr : Shifts n (fun a : QName × Span => (a.1, a.2.shift n)) attr attr :=
  .bind steady_qname fun name => .bind steady_peek? fun _ =>
    .ite (.bind steady_next fun _ => .bind shifts_value fun v => .pure _ (name, v)) (.throw _ _)

theorem steady_comment : Steady n comment := by
  intro c
  simp only [comment, Cursor.rest_shift, Cursor.advance_shift, Cursor.peek?_shift]
  split
  · rfl
  · simp

theorem shifts_cdata : Shifts n (fun s => ⟨s.offset + n, s.bytes⟩) cdata cdata := by
  intro c
  simp only [cdata, Cursor.rest_shift, Cursor.advance_shift, Cursor.pos_shift]
  split <;> rfl

theorem steady_identifier : Steady n identifier := fun c => by
  simp [identifier]

theorem steady_gap : Steady n gap :=
  .bind (steady_require _ _) fun _ => .bind steady_skipBlank fun _ => steady_require _ _

theorem steady_doctypeUri : Steady n doctypeUri :=
  .bind steady_peek? fun _ => .ite (.pure _ _) <| .bind steady_literal fun _ =>
    .bind steady_gap fun _ => .bind steady_peek? fun _ => .ite (.pure _ _) (.throw _ _)

theorem steady_doctype : Steady n doctype :=
  .bind steady_name fun _ => .bind steady_skipBlank fun _ => .bind steady_identifier fun _ =>
    .bind steady_gap fun _ => .bind steady_literal fun _ => .bind steady_gap fun _ =>
      .bind steady_doctypeUri fun _ => .bind steady_pass fun _ => .pure _ _

/-! Steps. -/

theorem shifts_emit (event : Event) :
    Shifts n (Emission.shift n) (emit event) (emit (event.shift n)) := fun _ => rfl

theorem shifts_goOn (es : List Emission) (depth : Nat) (phase : Phase) :
    Shifts n (Progress.shift n) (goOn es depth phase)
      (goOn (es.map (·.shift n)) depth (phase.shift n)) := fun _ => rfl

theorem shifts_special (depth : Nat) :
    Shifts n (Progress.shift n) (special depth) (special depth) := by
  refine .bind (steady_require _ _) fun _ => .bind steady_next fun _ =>
    .ite ?_ (.ite ?_ (.ite ?_ (.throw _ _)))
  · exact .bind steady_next fun _ => .ite (.bind steady_pass fun _ =>
      .bind (steady_require _ _) fun _ => .bind steady_comment fun _ => shifts_goOn _ _ _)
      (.throw _ _)
  · exact .bind (steady_expectNext _) fun _ => .bind shifts_cdata fun s => .ite (shifts_goOn _ _ _)
      (.bind (shifts_emit (.characters (.stable s))) fun e => shifts_goOn [e] _ _)
  · exact .bind (steady_expectNext _) fun _ => .bind steady_skipBlank fun _ =>
      .bind steady_doctype fun d => .bind (shifts_emit (.doctype d)) fun e => shifts_goOn [e] _ _

theorem steady_expectName (expected : Option Bytes) (found : Bytes) :
    Steady n (expectName expected found) := by
  cases expected with
  | none => exact .pure _ _
  | some wanted => exact .ite (.pure _ _) (.throw _ _)

theorem shifts_openDeclaration (depth : Nat) (expected : Option Bytes) :
    Shifts n (Progress.shift n) (openDeclaration depth expected)
      (openDeclaration depth expected) :=
  .bind steady_next fun _ => .bind steady_name fun found => .bind (steady_expectName _ _) fun _ =>
    .bind (shifts_emit (.startDeclaration found)) fun e => shifts_goOn [e] _ (.declaration found)

theorem shifts_openTag (depth start : Nat) :
    Shifts n (Progress.shift n) (openTag depth start) (openTag depth (start + n)) :=
  .bind steady_qname fun name => shifts_goOn [] _ (.tag start name)

theorem shifts_ended (es : List Emission) (depth : Nat) : Shifts n (Progress.shift n)
    (pure ⟨es, if depth = 0 then none else some ⟨depth, .content⟩⟩ : Read Progress)
    (pure ⟨es.map (·.shift n), if depth = 0 then none else some ⟨depth, .content⟩⟩) := by
  by_cases h : depth = 0 <;> simp only [h] <;> exact .pure (Progress.shift n) _

theorem shifts_closeTag (depth start : Nat) :
    Shifts n (Progress.shift n) (closeTag depth start) (closeTag depth (start + n)) :=
  .bind (steady_leave _) fun depth => .bind steady_next fun _ => .bind steady_qname fun name =>
    .bind steady_skipBlank fun _ => .bind steady_current fun _ =>
      .ite (.bind steady_pass fun _ => .bind shifts_position fun stop =>
        .bind (shifts_emit (.endElement name ⟨start, stop⟩)) fun e => shifts_ended [e] depth)
        (.throw _ _)

theorem shifts_markup (depth : Nat) :
    Shifts n (Progress.shift n) (markup depth) (markup depth) :=
  .bind shifts_position fun start => .bind steady_next fun _ =>
    .ite (shifts_closeTag depth start) <| .ite (shifts_special depth) <|
      .ite (shifts_openDeclaration depth none) <| .ite (shifts_openTag depth start) (.throw _ _)

theorem shifts_textStep (depth : Nat) :
    Shifts n (Progress.shift n) (textStep depth) (textStep depth) :=
  .bind shifts_text fun t => .bind (shifts_emit (.characters t)) fun e => shifts_goOn [e] _ .content

theorem shifts_skipOutside : Shifts n (Progress.shift n) skipOutside skipOutside :=
  .bind (steady_upTo _) fun _ => shifts_goOn [] 0 .content

theorem shifts_content (depth : Nat) :
    Shifts n (Progress.shift n) (content depth) (content depth) := by
  intro c
  simp only [content, Cursor.rest_shift]
  split
  · by_cases h : depth = 0 <;> simp [h, Progress.shift]
  · split
    · exact shifts_markup depth c
    · split
      · exact shifts_skipOutside c
      · exact shifts_textStep depth c

theorem shifts_tag (depth start : Nat) (name : QName) :
    Shifts n (Progress.shift n) (tag depth start name) (tag depth (start + n) name) := by
  refine .bind steady_skipBlank fun _ => .bind steady_current fun _ => .ite ?_ (.ite ?_ ?_)
  · exact .bind steady_next fun _ => .ite (.bind steady_pass fun _ =>
      .bind shifts_position fun stop => .bind (shifts_emit (.startElement name ⟨start, stop⟩)) fun e =>
        .bind (shifts_emit (.endElement name ⟨start, stop⟩)) fun e' => shifts_ended [e, e'] depth)
      (.throw _ _)
  · exact .bind steady_pass fun _ => .bind shifts_position fun stop =>
      .bind (shifts_emit (.startElement name ⟨start, stop⟩)) fun e => shifts_goOn [e] _ .content
  · exact .bind shifts_attr fun a => .bind (shifts_emit (.attr a.1 a.2)) fun e =>
      shifts_goOn [e] depth (.tag start name)

theorem shifts_declaration (depth : Nat) (name : Bytes) :
    Shifts n (Progress.shift n) (declaration depth name) (declaration depth name) := by
  refine .bind steady_skipBlank fun _ => .bind steady_current fun _ => .ite ?_ ?_
  · exact .bind steady_next fun _ => .ite (.bind (shifts_emit (.endDeclaration name)) fun e =>
      .bind steady_pass fun _ => shifts_goOn [e] depth .content) (.throw _ _)
  · exact .bind shifts_attr fun a => .bind (shifts_emit (.attr a.1 a.2)) fun e =>
      shifts_goOn [e] depth (.declaration name)

theorem shifts_step (place : Place) :
    Shifts n (Progress.shift n) (step place) (step (place.shift n)) := by
  obtain ⟨depth, phase⟩ := place
  cases phase with
  | content => exact shifts_content depth
  | tag start name => exact shifts_tag depth start name
  | declaration name => exact shifts_declaration depth name

end Read

namespace Document

theorem prepend_shift (n : Nat) (es : List Emission) (t : Trace) :
    (t.prepend es).shift n = (t.shift n).prepend (es.map (·.shift n)) := by
  simp [Trace.shift, Trace.prepend]

theorem traceOn_shift (n : Nat) (p : Progress) (c : Cursor) :
    traceOn (p.shift n) (c.shift n) = (traceOn p c).shift n := by
  induction p, c using traceOn.induct with
  | case1 p c ih =>
    cases hp : p.place with
    | none =>
      have hp' : (p.shift n).place = none := by rw [Progress.shift, hp]; rfl
      rw [traceOn_none hp, traceOn_none hp', prepend_shift]
      rfl
    | some place =>
      have hp' : (p.shift n).place = some (place.shift n) := by rw [Progress.shift, hp]; rfl
      have hshift := Read.shifts_step (n := n) place c
      cases hs : Read.step place c with
      | error cause c' =>
        rw [hs] at hshift
        rw [traceOn_error hp hs, traceOn_error hp' hshift, prepend_shift]
        rfl
      | ok p' c' =>
        rw [hs] at hshift
        rw [traceOn_ok hp hs, traceOn_ok hp' hshift, prepend_shift, ih place hp p' c' hs]
        rfl

end Document

namespace Handler

variable {σ α : Type} {h : Handler σ α} {s s' : σ} {a : α} {stops : Nat → Option Error}

/-- Whether the handler stops at an event, and with which error, is told by how many it has taken. -/
def ByNumber (h : Handler σ α) (s : σ) (stops : Nat → Option Error) : Prop :=
  ∀ as a, (h.feed s as).2 = none → (h (h.feed s as).1 a).2 = stops as.length

theorem Tireless.byNumber (hh : h.Tireless) (s : σ) : h.ByNumber s fun _ => none :=
  fun _ _ _ => hh _ _

theorem ByNumber.first (hs : h.ByNumber s stops) (a : α) : (h s a).2 = stops 0 := hs [] a rfl

theorem ByNumber.next (hs : h.ByNumber s stops) (ha : h s a = (s', none)) :
    h.ByNumber s' fun taken => stops (taken + 1) := by
  intro as b hfed
  have hb := hs (a :: as) b
  rw [feed_of_none ha] at hb
  exact hb hfed

theorem byNumber_stopping (n : Nat) (e : Error) (taken : Nat) :
    (stopping n e : Handler Nat α).ByNumber taken fun more =>
      if taken + more = n then some e else none := by
  intro as a hfed
  induction as generalizing taken with
  | nil => rfl
  | cons b as ih =>
    by_cases hn : taken = n
    · have hb : stopping n e taken b = (taken + 1, some e) := by simp [stopping, hn]
      rw [feed_of_some hb] at hfed
      cases hfed
    · have hb : stopping n e taken b = (taken + 1, none) := by simp [stopping, hn]
      rw [feed_of_none hb] at hfed ⊢
      rw [ih (taken + 1) hfed]
      simp only [List.length_cons, Nat.add_assoc, Nat.add_comm 1]

end Handler

namespace Document

variable {σ : Type} {h : Handler σ Event} {s t : σ} {stops : Nat → Option Error}

/-- Such a handler is handed the same events further on, and stops at the same one. -/
theorem handOver_shift (n : Nat) (hs : h.ByNumber s stops) (ht : h.ByNumber t stops)
    (seen : List Event) (es : List Emission) :
    let one := handOver h.recording (seen, s) es
    let other := handOver h.recording (seen.map (·.shift n), t) (es.map (·.shift n))
    other.1.1 = one.1.1.map (·.shift n) ∧ other.2 = one.2.map fun x => (x.1, x.2 + n) := by
  induction es generalizing seen s t stops with
  | nil => exact ⟨rfl, rfl⟩
  | cons e es ih =>
    -- both have taken as many events, so both stop at this one or neither does
    have hfirst := (hs.first e.event).trans (ht.first (e.event.shift n)).symm
    rcases hse : h s e.event with ⟨s', stopped⟩
    rcases hte : h t (e.event.shift n) with ⟨t', stopped'⟩
    rw [hse, hte] at hfirst
    obtain rfl : stopped = stopped' := hfirst
    simp only [List.map_cons, handOver, Handler.recording, Emission.event_shift, hse, hte]
    cases stopped with
    | some error => simp [Emission.shift]
    | none => simpa using ih (hs.next hse) (ht.next hte) (seen ++ [e.event])

theorem handOver_recorded (h : Handler σ Event) (s : σ) (es : List Emission) :
    let out := handOver h.recording ([], s) es
    (h.feed s out.1.1).2 = out.2.map (·.1) := by
  intro out
  obtain ⟨hstate, hstopped⟩ := handOver_eq_feed h.recording ([], s) es
  obtain ⟨u, v, -, hfed, -⟩ := h.feed_recording [] s (es.map (·.event))
  rw [hfed] at hstate hstopped
  rw [hstopped, hstate]
  rfl

theorem handOver_trace_shift (n : Nat) (hs : h.ByNumber s stops) (t : Trace) :
    let one := t.handOver h.recording ([], s)
    let other := (t.shift n).handOver h.recording ([], s)
    other.state.1 = one.state.1.map (·.shift n) ∧ other.position = one.position + n ∧
      other.error = (h.feed s one.state.1).2.or (one.error.map (·.shift n)) := by
  obtain ⟨hseen, hstop⟩ := handOver_shift n hs hs [] t.emissions
  have hstopped := handOver_recorded h s t.emissions
  simp only [Trace.handOver, Trace.shift, List.map_nil] at hseen hstop hstopped ⊢
  generalize Document.handOver h.recording ([], s) t.emissions = out,
    Document.handOver h.recording ([], s) (t.emissions.map _) = out' at hseen hstop hstopped
  obtain ⟨⟨seen, s'⟩, out⟩ := out
  obtain ⟨⟨seen', s''⟩, out'⟩ := out'
  obtain rfl := hseen
  obtain rfl := hstop
  cases out with
  | none => exact ⟨rfl, rfl, by rw [hstopped]; rfl⟩
  | some stop => exact ⟨rfl, rfl, by rw [hstopped]; rfl⟩

/-- A mark in front of a document moves its beginning. -/
theorem header_marked (config : Config) {doc : Bytes} (hd : doc.head? = some .openAngle) :
    Read.header config (.atStart (Read.byteOrderMark ++ doc)) =
      Read.shiftResult 3 (Progress.shift 3) (Read.header config (.atStart doc)) := by
  obtain ⟨rest, rfl⟩ := List.head?_eq_some_iff.1 hd
  have hplain : Read.encoding (.atStart (.openAngle :: rest)) =
      .ok () (.atStart (.openAngle :: rest)) := by
    simp [Read.encoding, Cursor.atStart, Cursor.peek?]
  have hmarked : Read.encoding (.atStart (Read.byteOrderMark ++ .openAngle :: rest)) =
      .ok () ⟨3, .openAngle :: rest⟩ := rfl
  -- behind the mark both go through the same reads
  rw [Read.header, Read.bind_ok hplain, Read.bind_ok hmarked]
  refine (show Read.Shifts 3 (Progress.shift 3) _ _ from ?_) (.atStart (.openAngle :: rest))
  exact .bind Read.steady_skipBlank fun _ => .bind Read.steady_peek? fun _ =>
    .ite (.ite (.bind Read.steady_next fun _ => .ite (Read.shifts_openDeclaration _ _) (.throw _ _))
      (Read.shifts_goOn [] 0 .content)) (.throw _ _)

theorem trace_marked (config : Config) {doc : Bytes} (hd : doc.head? = some .openAngle) :
    trace config (Read.byteOrderMark ++ doc) = (trace config doc).shift 3 := by
  unfold trace
  rw [header_marked config hd]
  cases Read.header config (.atStart doc) with
  | error cause c => rfl
  | ok p c => exact traceOn_shift 3 p c

/-- A byte order mark moves a document that begins with `<`, and does nothing else. A handler that
stops at no event, or at one it counts to, is handed the same events with every offset three more,
and the reading ends at an offset three more and in the same way. An error of the document's own is
the same at an offset three more, and one of the handler's is what the handler makes it. -/
theorem read_marked (config : Config) {doc : Bytes} (hd : doc.head? = some .openAngle)
    {h : Handler σ Event} {s : σ} {stops : Nat → Option Error} (hs : h.ByNumber s stops) :
    let one := read config doc h.recording ([], s)
    let other := read config (Read.byteOrderMark ++ doc) h.recording ([], s)
    let stopped := (h.feed s one.state.1).2
    other.state.1 = one.state.1.map (·.shift 3) ∧ other.position = one.position + 3 ∧
      other.error = stopped.or (one.error.map (·.shift 3)) ∧
      ((∀ e, stopped = some e → e.offset? = none) → other.error = one.error.map (·.shift 3)) := by
  intro one other stopped
  have hone : one = (trace config doc).handOver h.recording ([], s) := read_eq ..
  have hother : other = ((trace config doc).shift 3).handOver h.recording ([], s) :=
    (read_eq ..).trans (by rw [trace_marked config hd])
  obtain ⟨hseen, hposition, herror⟩ := handOver_trace_shift 3 hs (trace config doc)
  rw [← hone, ← hother] at hseen hposition herror
  refine ⟨hseen, hposition, herror, fun hoffset => ?_⟩
  have hstop : one.error = stopped.or (trace config doc).error := (read_recording ..).1
  cases hstopped : stopped with
  | none =>
    rw [herror, show (h.feed s one.state.1).2 = none from hstopped, Option.none_or]
  | some e =>
    rw [herror, hstop, show (h.feed s one.state.1).2 = some e from hstopped, hstopped,
      Option.some_or, Option.some_or, Option.map_some, Error.shift_of_offset (hoffset e hstopped)]

/-- A start tag that does not end, with a handler that would stop at the event after its attribute,
and a document that is too short to be looked at for a mark, with one that never stops. -/
theorem read_marked_unended :
    let doc := utf8 "<a b=\"c\""
    let h : Handler Nat Event := Handler.stopping 1 (.handler "stop")
    let one := read .lenient doc h.recording ([], 0)
    let other := read .lenient (Read.byteOrderMark ++ doc) h.recording ([], 0)
    let bare := read .lenient (Read.byteOrderMark ++ [.openAngle]) Handler.keeping.recording ([], [])
    doc.head? = some .openAngle ∧
      one.state.1 = [.attr ⟨[], utf8 "b"⟩ (.stable ⟨6, utf8 "c"⟩)] ∧
      one.error = some (.malformed .prematureEnd (some 8)) ∧
      other.state.1 = [.attr ⟨[], utf8 "b"⟩ (.stable ⟨9, utf8 "c"⟩)] ∧
      other.error = some (.malformed .prematureEnd (some 11)) ∧
      other.position = one.position + 3 ∧
      bare.error = some (.malformed .prematureEnd (some 4)) := by
  intro doc h one other bare
  have hd : doc.head? = some .openAngle := rfl
  have hseen : one.state.1 = [.attr ⟨[], utf8 "b"⟩ (.stable ⟨6, utf8 "c"⟩)] := by decide +kernel
  have herror : one.error = some (.malformed .prematureEnd (some 8)) := by decide +kernel
  obtain ⟨hseen', hposition, herror', -⟩ := read_marked .lenient hd
    (Handler.byNumber_stopping 1 (.handler "stop") 0)
  change other.state.1 = one.state.1.map _ at hseen'
  change other.error = (h.feed 0 one.state.1).2.or (one.error.map _) at herror'
  rw [hseen] at hseen' herror'
  rw [herror] at herror'
  have hkeeping : (Handler.keeping (α := Event)).Tireless := fun _ _ => rfl
  have hbare : (read .lenient [.openAngle] Handler.keeping.recording ([], [])).error =
      some (.malformed .prematureEnd (some 1)) := by
    decide +kernel
  have hopen : [Byte.openAngle].head? = some .openAngle := rfl
  obtain ⟨-, -, -, hbare'⟩ := read_marked .lenient hopen (hkeeping.byNumber [])
  have hfed := hkeeping.feed []
  exact ⟨hd, hseen, herror, hseen', herror', hposition,
    (hbare' fun e he => by rw [hfed] at he; cases he).trans (by rw [hbare]; rfl)⟩

end Document
end XmlStream
