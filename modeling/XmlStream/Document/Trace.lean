import XmlStream.Document
/-! The trace of a document: all its events with their offsets, and how its reading ends when no
handler stops it. Main statement: reading with a handler is handing the trace over to it, so a
handler that stops has seen the beginning of what one that never stops would see. -/
namespace XmlStream

variable {σ : Type}

structure Trace where
  emissions : List Emission
  error : Option Error
  position : Nat
deriving DecidableEq, Repr

namespace Trace

def prepend (emissions : List Emission) (t : Trace) : Trace :=
  { t with emissions := emissions ++ t.emissions }

def events (t : Trace) : List Event := t.emissions.map (·.event)

def handOver (t : Trace) (h : Handler σ Event) (s : σ) : Ending σ :=
  match Document.handOver h s t.emissions with
  | (s, some (error, position)) => ⟨s, some error, position⟩
  | (s, none) => ⟨s, t.error, t.position⟩

end Trace

namespace Document

def traceOn (p : Progress) (c : Cursor) : Trace :=
  .prepend p.emissions <|
    match _hp : p.place with
    | none => ⟨[], none, c.pos⟩
    | some place =>
      match _h : Read.step place c with
      | .error cause c' => ⟨[], some (.malformed cause (some c'.pos)), c'.pos⟩
      | .ok p' c' => traceOn p' c'
termination_by 2 * c.rest.length + if p.place.isSome then 1 else 0
decreasing_by
  have := (Read.forward_step place).length_le _h
  obtain hp | hl := Read.step_shrinks _h
  · simp [hp, _hp]; omega
  · split <;> split <;> omega

def trace (config : Config) (doc : Bytes) : Trace :=
  match Read.header config (.atStart doc) with
  | .error cause c => ⟨[], some (.malformed cause (some c.pos)), c.pos⟩
  | .ok p c => traceOn p c

theorem handOver_append (h : Handler σ Event) (s : σ) (u v : List Emission) :
    handOver h s (u ++ v) =
      match handOver h s u with
      | (s, none) => handOver h s v
      | (s, some stopped) => (s, some stopped) := by
  induction u generalizing s with
  | nil => rfl
  | cons e u ih =>
    simp only [List.cons_append, handOver]
    split
    · exact ih _
    · rfl

theorem handOver_prepend (h : Handler σ Event) (s : σ) (u : List Emission) (t : Trace) :
    (t.prepend u).handOver h s =
      match handOver h s u with
      | (s, none) => t.handOver h s
      | (s, some (error, position)) => ⟨s, some error, position⟩ := by
  simp only [Trace.handOver, Trace.prepend, handOver_append]
  rcases handOver h s u with ⟨s', _ | _⟩ <;> rfl

theorem traceOn_none {p : Progress} {c : Cursor} (hp : p.place = none) :
    traceOn p c = .prepend p.emissions ⟨[], none, c.pos⟩ := by
  rw [traceOn]
  split <;> simp_all

theorem traceOn_error {p : Progress} {c c' : Cursor} {place : Place} {cause : Cause}
    (hp : p.place = some place) (hs : Read.step place c = .error cause c') :
    traceOn p c = .prepend p.emissions ⟨[], some (.malformed cause (some c'.pos)), c'.pos⟩ := by
  rw [traceOn]
  split
  · simp_all
  · split <;> simp_all

theorem traceOn_ok {p p' : Progress} {c c' : Cursor} {place : Place}
    (hp : p.place = some place) (hs : Read.step place c = .ok p' c') :
    traceOn p c = .prepend p.emissions (traceOn p' c') := by
  rw [traceOn]
  split
  · simp_all
  · split <;> simp_all

theorem trace_of_header {config : Config} {doc : Bytes} {p : Progress} {c : Cursor}
    (h : Read.header config (.atStart doc) = .ok p c) : trace config doc = traceOn p c := by
  rw [trace, h]

theorem trace_of_header_error {config : Config} {doc : Bytes} {cause : Cause} {c : Cursor}
    (h : Read.header config (.atStart doc) = .error cause c) :
    trace config doc = ⟨[], some (.malformed cause (some c.pos)), c.pos⟩ := by
  rw [trace, h]

/-- What a step has told comes before all that is read on. -/
theorem traceOn_emissions (p : Progress) (c : Cursor) :
    traceOn p c = .prepend p.emissions (traceOn ⟨[], p.place⟩ c) := by
  cases hp : p.place with
  | none =>
    rw [traceOn_none hp, traceOn_none rfl]
    rfl
  | some place =>
    cases hs : Read.step place c with
    | error cause c' =>
      rw [traceOn_error hp hs, traceOn_error rfl hs]
      rfl
    | ok p' c' =>
      rw [traceOn_ok hp hs, traceOn_ok rfl hs]
      rfl

theorem readOn_eq (h : Handler σ Event) (s : σ) (p : Progress) (c : Cursor) :
    readOn h s p c = (traceOn p c).handOver h s := by
  fun_induction readOn h s p c with
  | case1 s p c s' error position ho => rw [traceOn, handOver_prepend, ho]
  | case2 s p c s' ho hp =>
    rw [traceOn_none hp, handOver_prepend, ho]
    rfl
  | case3 s p c s' ho place hp cause c' hs =>
    rw [traceOn_error hp hs, handOver_prepend, ho]
    rfl
  | case4 s p c s' ho place hp p' c' hs ih =>
    rw [traceOn_ok hp hs, handOver_prepend, ho]
    exact ih

theorem read_eq (config : Config) (doc : Bytes) (h : Handler σ Event) (s : σ) :
    read config doc h s = (trace config doc).handOver h s := by
  unfold read trace
  cases Read.header config (.atStart doc) with
  | error => rfl
  | ok p c => exact readOn_eq h s p c

end Document
end XmlStream
