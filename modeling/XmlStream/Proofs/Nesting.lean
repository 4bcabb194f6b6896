import XmlStream.Proofs.Header
import XmlStream.Proofs.Namespace.Lexical
import XmlStream.Document.Trace
/-! Nesting. The events of a document come where they may, whatever becomes of its reading: an end
tag finds an element to close, and a start tag is not left but by its start. A reading that ends
without an error leaves nothing open. -/
namespace XmlStream.Lexical
open Document

variable {context : Scope}

/-- What an environment has where a step begins; nothing at the end of a document. -/
inductive At : Option Place → Env → Prop
  | done : At none {}
  | content {d outer} : outer.length = d → At (some ⟨d, .content⟩) { outer }
  | tag {d outer own attrs start name} : outer.length = d →
      At (some ⟨d, .tag start name⟩) { outer, own, attrs }
  | declaration {d outer n} : outer.length = d →
      At (some ⟨d, .declaration n⟩) { outer, inDeclaration := true }

theorem At.outOf {d : Nat} {outer : List Element} (h : outer.length = d) :
    At (outOf d) { outer } := by
  subst h
  cases outer with
  | nil => exact .done
  | cons e es => exact .content rfl

namespace Env

theorem run_append (v : Env) (es es' : List Event) :
    v.run context (es ++ es') = (v.run context es).run context es' :=
  List.foldl_append

theorem orderly_append {v : Env} {es es' : List Event} : v.Orderly context (es ++ es') ↔
    v.Orderly context es ∧ (v.run context es).Orderly context es' := by
  induction es generalizing v with
  | nil => simp [Orderly, run]
  | cons e es ih => simp [Orderly, ih, run, and_assoc]

end Env

/-- The events of a construct come where they may, and lead to what its place has. -/
theorem orderly_of_construct {place : Place} {pos : Nat} {w rest : Bytes} {p : Progress}
    {v : Env} (h : Construct place pos w p rest) (hv : At (some place) v) :
    v.Orderly context (p.emissions.map (·.event)) ∧
      At p.place (v.run context (p.emissions.map (·.event))) := by
  cases h with
  | finish =>
    obtain _ | ⟨hd⟩ := hv
    obtain rfl := List.eq_nil_of_length_eq_zero hd
    exact ⟨trivial, .done⟩
  | outside => exact ⟨trivial, hv⟩
  | comment => exact ⟨trivial, hv⟩
  | openTag =>
    obtain _ | ⟨hd⟩ := hv
    exact ⟨trivial, .tag hd⟩
  | text =>
    obtain _ | ⟨hd⟩ := hv
    exact ⟨⟨rfl, trivial⟩, .content hd⟩
  | @cdata d =>
    obtain _ | ⟨hd⟩ := hv
    by_cases h : d = 0
    · simp only [h, if_true]
      exact ⟨trivial, .content (hd.trans h)⟩
    · simp only [h, if_false]
      exact ⟨⟨rfl, trivial⟩, .content hd⟩
  | doctype =>
    obtain _ | ⟨hd⟩ := hv
    exact ⟨⟨rfl, trivial⟩, .content hd⟩
  | openDeclaration =>
    obtain _ | ⟨hd⟩ := hv
    exact ⟨⟨rfl, trivial⟩, .declaration hd⟩
  | closeTag =>
    obtain _ | @⟨_, outer, hd⟩ := hv
    cases outer with
    | nil => cases hd
    | cons e es => exact ⟨⟨⟨rfl, by simp⟩, trivial⟩, .outOf (by simpa using hd)⟩
  | @attr d start name pos w a t value =>
    obtain _ | _ | ⟨hd⟩ := hv
    refine ⟨⟨trivial, trivial⟩, ?_⟩
    simp only [List.map_cons, List.map_nil, Env.run, List.foldl_cons, List.foldl_nil, Env.step,
      Env.attr, Bool.false_eq_true, if_false]
    cases binding? a value <;> exact .tag hd
  | tagEnd =>
    obtain _ | _ | ⟨hd⟩ := hv
    exact ⟨⟨trivial, trivial⟩, .content (by simpa using hd)⟩
  | selfClose =>
    obtain _ | _ | ⟨hd⟩ := hv
    exact ⟨⟨trivial, ⟨rfl, by simp [Env.step]⟩, trivial⟩, .outOf hd⟩
  | declarationAttr =>
    obtain _ | _ | _ | ⟨hd⟩ := hv
    exact ⟨⟨trivial, trivial⟩, .declaration hd⟩
  | declarationEnd =>
    obtain _ | _ | _ | ⟨hd⟩ := hv
    exact ⟨⟨rfl, trivial⟩, .content hd⟩

theorem events_prepend (u : List Emission) (t : Trace) :
    (t.prepend u).events = u.map (·.event) ++ t.events :=
  List.map_append

theorem orderly_of_traceOn {p : Progress} {c : Cursor} {v : Env}
    (ho : v.Orderly context (p.emissions.map (·.event)))
    (ha : At p.place (v.run context (p.emissions.map (·.event)))) :
    v.Orderly context (traceOn p c).events ∧
      ((traceOn p c).error = none → v.run context (traceOn p c).events = {}) := by
  induction p, c using traceOn.induct generalizing v with
  | case1 p c ih =>
    cases hp : p.place with
    | none =>
      rw [hp] at ha
      generalize hr : v.run context (p.emissions.map (·.event)) = v' at ha
      cases ha
      rw [traceOn_none hp, events_prepend]
      simpa [Trace.events] using ⟨ho, fun _ => hr⟩
    | some place =>
      cases hs : Read.step place c with
      | error cause c' =>
        rw [traceOn_error hp hs, events_prepend]
        exact ⟨by simpa [Trace.events] using ho, fun h => by cases h⟩
      | ok p' c' =>
        obtain ⟨w, rest, -, -, hc⟩ := (Read.reads_step _ _ _ _).1 hs
        rw [hp] at ha
        obtain ⟨ho', ha'⟩ := orderly_of_construct hc ha
        obtain ⟨h, hend⟩ := ih place hp p' c' hs ho' ha'
        rw [traceOn_ok hp hs, events_prepend, Env.orderly_append, Env.run_append]
        exact ⟨⟨ho, h⟩, hend⟩

/-- The events of every document are in order, and those of one that is read without an error leave
nothing open. -/
theorem orderly_trace (context : Scope) (config : Config) (doc : Bytes) :
    Env.Orderly context {} (trace config doc).events ∧
      ((trace config doc).error = none → Env.run context {} (trace config doc).events = {}) := by
  unfold trace
  cases hh : Read.header config (.atStart doc) with
  | error cause c => exact ⟨trivial, fun h => by cases h⟩
  | ok p c =>
    obtain ⟨_, rest, -, -, u, v, t, -, -, -, hs⟩ := (Read.reads_header _ _ _ _).1 hh
    cases hs with
    | lenient => exact orderly_of_traceOn trivial (.content rfl)
    | strict => exact orderly_of_traceOn ⟨rfl, trivial⟩ (.declaration rfl)

end XmlStream.Lexical
