import XmlStream.Document.Trace
/-! Handing events over. Only a handler's own state and the events matter for what it does, so a
reading is told by the events of the trace alone, without where each was handed over. -/
namespace XmlStream

variable {σ α : Type}

namespace Handler

def feed (h : Handler σ α) : σ → List α → σ × Option Error
  | s, [] => (s, none)
  | s, a :: more =>
    match h s a with
    | (s, none) => feed h s more
    | (s, some e) => (s, some e)

def Tireless (h : Handler σ α) : Prop := ∀ s a, (h s a).2 = none

theorem feed_of_none {h : Handler σ α} {s s' : σ} {a : α} (hs : h s a = (s', none))
    (more : List α) : h.feed s (a :: more) = h.feed s' more := by
  simp [feed, hs]

theorem feed_of_some {h : Handler σ α} {s s' : σ} {a : α} {e : Error} (hs : h s a = (s', some e))
    (more : List α) : h.feed s (a :: more) = (s', some e) := by
  simp [feed, hs]

theorem Tireless.feed {h : Handler σ α} (hh : h.Tireless) (s : σ) (as : List α) :
    (h.feed s as).2 = none := by
  induction as generalizing s with
  | nil => rfl
  | cons a as ih =>
    have hs : h s a = ((h s a).1, none) := by rw [← hh s a]
    rw [feed_of_none hs]
    exact ih _

def keeping : Handler (List α) α := fun kept a => (kept ++ [a], none)

theorem feed_keeping (kept as : List α) : keeping.feed kept as = (kept ++ as, none) := by
  induction as generalizing kept with
  | nil =>
    rw [List.append_nil]
    rfl
  | cons a as ih =>
    have ih := ih (kept ++ [a])
    rw [List.append_assoc] at ih
    exact ih

def recording (h : Handler σ α) : Handler (List α × σ) α := fun (seen, s) a =>
  let (s, e) := h s a
  ((seen ++ [a], s), e)

theorem recording_eq {h : Handler σ α} {s s' : σ} {a : α} {e : Option Error} (hs : h s a = (s', e))
    (seen : List α) : h.recording (seen, s) a = ((seen ++ [a], s'), e) := by
  simp only [recording, hs]

theorem Tireless.recording {h : Handler σ α} (hh : h.Tireless) : (recording h).Tireless :=
  fun s a => hh s.2 a

theorem Tireless.recorded {h : Handler σ α} (hh : h.Tireless) (seen : List α) (s : σ)
    (as : List α) : (h.recording.feed (seen, s) as).1.1 = seen ++ as := by
  induction as generalizing seen s with
  | nil => exact (List.append_nil seen).symm
  | cons a as ih =>
    have hs : h s a = ((h s a).1, none) := by rw [← hh s a]
    rw [feed_of_none (recording_eq hs seen), ih, List.append_assoc, List.singleton_append]

/-- What is recorded is the beginning of the events that the handler itself would take, up to the
one that it stops at. -/
theorem feed_recording (h : Handler σ α) (seen : List α) (s : σ) (as : List α) :
    ∃ u v, as = u ++ v ∧
      h.recording.feed (seen, s) as = ((seen ++ u, (h.feed s u).1), (h.feed s u).2) ∧
      ((h.feed s u).2 = none → v = []) := by
  induction as generalizing seen s with
  | nil => exact ⟨[], [], rfl, by rw [List.append_nil]; rfl, fun _ => rfl⟩
  | cons a as ih =>
    rcases ha : h s a with ⟨s', _ | e⟩
    · obtain ⟨u, v, rfl, hfed, hv⟩ := ih (seen ++ [a]) s'
      refine ⟨a :: u, v, rfl, ?_, ?_⟩
      · rw [feed_of_none (recording_eq ha seen), hfed, feed_of_none ha, List.append_assoc, List.singleton_append]
      · rwa [feed_of_none ha]
    · have hstop : h.feed s [a] = (s', some e) := feed_of_some ha []
      refine ⟨[a], as, rfl, ?_, ?_⟩
      · rw [feed_of_some (recording_eq ha seen), hstop]
      · rw [hstop]
        exact nofun

/-- To record what comes makes no difference to the handler. -/
theorem feed_recording_eq (h : Handler σ α) (seen : List α) (s : σ) (as : List α) :
    (h.recording.feed (seen, s) as).1.2 = (h.feed s as).1 ∧
      (h.recording.feed (seen, s) as).2 = (h.feed s as).2 := by
  induction as generalizing seen s with
  | nil => exact ⟨rfl, rfl⟩
  | cons a as ih =>
    rcases ha : h s a with ⟨s', _ | e⟩
    · rw [feed_of_none (recording_eq ha seen), feed_of_none ha]
      exact ih _ s'
    · rw [feed_of_some (recording_eq ha seen), feed_of_some ha]
      exact ⟨rfl, rfl⟩

end Handler

namespace Document

theorem handOver_eq_feed (h : Handler σ Event) (s : σ) (es : List Emission) :
    (handOver h s es).1 = (h.feed s (es.map (·.event))).1 ∧
      (handOver h s es).2.map (·.1) = (h.feed s (es.map (·.event))).2 := by
  induction es generalizing s with
  | nil => exact ⟨rfl, rfl⟩
  | cons e es ih =>
    simp only [handOver, List.map_cons, Handler.feed]
    rcases h s e.event with ⟨s', _ | error⟩
    · exact ih s'
    · exact ⟨rfl, rfl⟩

theorem read_state (config : Config) (doc : Bytes) (h : Handler σ Event) (s : σ) :
    (read config doc h s).state = (h.feed s (trace config doc).events).1 := by
  rw [read_eq, Trace.handOver, Trace.events, ← (handOver_eq_feed h s _).1]
  rcases handOver h s (trace config doc).emissions with ⟨s', _ | _⟩ <;> rfl

/-- The handler's error comes before the document's own. -/
theorem read_error (config : Config) (doc : Bytes) (h : Handler σ Event) (s : σ) :
    (read config doc h s).error =
      (h.feed s (trace config doc).events).2.or (trace config doc).error := by
  rw [read_eq, Trace.handOver, Trace.events, ← (handOver_eq_feed h s _).2]
  rcases handOver h s (trace config doc).emissions with ⟨s', _ | _⟩ <;> rfl

/-- A handler that does not stop a reading lets it come to its own end. -/
theorem read_position {config : Config} {doc : Bytes} {h : Handler σ Event} {s : σ}
    (hs : (h.feed s (trace config doc).events).2 = none) :
    (read config doc h s).position = (trace config doc).position := by
  rw [Trace.events, ← (handOver_eq_feed h s _).2, Option.map_eq_none_iff] at hs
  rw [read_eq, Trace.handOver]
  split
  · rename_i hstop
    rw [hstop] at hs
    cases hs
  · rfl

theorem traceOn_error_position {p : Progress} {c : Cursor} {error : Error}
    (h : (traceOn p c).error = some error) :
    ∃ cause, error = .malformed cause (some (traceOn p c).position) := by
  induction p, c using traceOn.induct with
  | case1 p c ih =>
    cases hp : p.place with
    | none =>
      rw [traceOn_none hp] at h
      cases h
    | some place =>
      cases hs : Read.step place c with
      | error cause c' =>
        rw [traceOn_error hp hs] at h ⊢
        cases h
        exact ⟨cause, rfl⟩
      | ok p' c' =>
        rw [traceOn_ok hp hs] at h ⊢
        exact ih place hp p' c' hs h

/-- A fault of the document is at the offset where its reading ends. -/
theorem trace_error_position {config : Config} {doc : Bytes} {error : Error}
    (h : (trace config doc).error = some error) :
    ∃ cause, error = .malformed cause (some (trace config doc).position) := by
  unfold trace at h ⊢
  split at h
  · cases h
    exact ⟨_, rfl⟩
  · exact traceOn_error_position h

theorem read_keeping (config : Config) (doc : Bytes) :
    read config doc Handler.keeping [] =
      ⟨(trace config doc).events, (trace config doc).error, (trace config doc).position⟩ := by
  obtain ⟨hstate, herror⟩ := handOver_eq_feed Handler.keeping [] (trace config doc).emissions
  rw [Handler.feed_keeping] at hstate herror
  rw [Option.map_eq_none_iff] at herror
  rw [read_eq, Trace.handOver]
  generalize handOver Handler.keeping [] (trace config doc).emissions = out at hstate herror
  obtain ⟨kept, stopped⟩ := out
  cases hstate
  cases herror
  rfl

/-- What a reading has handed over, and what there is to say of it when its handler does not stop
it. -/
theorem read_recording (config : Config) (doc : Bytes) (h : Handler σ Event) (s : σ) :
    let reading := read config doc h.recording ([], s)
    let seen := reading.state.1
    reading.error = (h.feed s seen).2.or (trace config doc).error ∧
      (∃ v, (trace config doc).events = seen ++ v) ∧
      ((h.feed s seen).2 = none →
        seen = (trace config doc).events ∧ reading.position = (trace config doc).position) := by
  intro reading seen
  obtain ⟨u, v, huv, hfed, hv⟩ := h.feed_recording [] s (trace config doc).events
  have hseen : seen = u := congrArg Prod.fst ((read_state ..).trans (congrArg Prod.fst hfed))
  have herror : reading.error = (h.feed s u).2.or (trace config doc).error :=
    (read_error ..).trans (by rw [hfed])
  rw [hseen]
  refine ⟨herror, ⟨v, huv⟩, fun hnone => ⟨?_, ?_⟩⟩
  · rw [huv, hv hnone, List.append_nil]
  · exact read_position (by rw [hfed, hnone])

end Document
end XmlStream
