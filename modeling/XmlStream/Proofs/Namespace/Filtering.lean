import XmlStream.Proofs.Namespace.Forwarding
/-! Filtering. A reading with namespaces forwards the events of the document in order and as they
are, but for the attributes that bind a qualifier; a fault cuts them off right before its event. -/
namespace XmlStream

namespace NsEvent

def toEvent : NsEvent → Event
  | doctype d => .doctype d
  | startDeclaration name => .startDeclaration name
  | endDeclaration name => .endDeclaration name
  | declarationAttr name value => .attr name value
  | attr _ name value => .attr name value
  | startElement _ name extent => .startElement name extent
  | endElement _ name extent => .endElement name extent
  | characters text => .characters text

end NsEvent

namespace Event

def binds : Event → Bool
  | attr name _ =>
    name.qualifier = [] ∧ name.localName = Resolver.xmlns ∨ name.qualifier = Resolver.xmlns
  | _ => false

def declares (before : Bool) : Event → Bool
  | startDeclaration _ => true
  | endDeclaration _ => false
  | _ => before

/-- Leaves out what binds a qualifier, which no attribute of a declaration does. -/
def withoutBindings (inDeclaration : Bool) : List Event → List Event
  | [] => []
  | e :: es =>
    if e.binds && !inDeclaration then withoutBindings (e.declares inDeclaration) es
    else e :: withoutBindings (e.declares inDeclaration) es

end Event

namespace Lexical

variable {σ : Type} {context : Scope} {g : Registry} {h : Handler σ NsEvent}

theorem binds_eq (name : QName) (value : Span) :
    (Event.attr name value).binds = (binding? name value).isSome := by
  by_cases h : name.qualifier = [] ∧ name.localName = Resolver.xmlns
  · simp [binding?, Event.binds, h]
  · by_cases hq : name.qualifier = Resolver.xmlns
    · simp only [Event.binds, binding?, hq, if_true]
      split <;> simp
    · simp only [Event.binds, binding?, h, hq, if_false]
      rfl

theorem declares_eq (context : Scope) (v : Env) (e : Event) :
    e.declares v.inDeclaration = (v.step context e).inDeclaration := by
  cases e with
  | attr name value =>
    change v.inDeclaration = (v.attr context name value).inDeclaration
    unfold Env.attr
    split
    · rfl
    · split <;> rfl
  | _ => rfl

theorem Forwards.toEvent_eq {v : Env} {e : Event} {b : NsEvent} (h : Forwards g context v e b) :
    b.toEvent = e := by
  cases h <;> rfl

theorem Forwards.not_binds {v : Env} {e : Event} {b : NsEvent} (h : Forwards g context v e b) :
    (e.binds && !v.inDeclaration) = false := by
  cases h with
  | declarationAttr hd => simp [hd]
  | attr _ hb => simp [binds_eq, hb]
  | _ => rfl

theorem Forwarded.filtered {v : Env} {es : List Event} {bs : List NsEvent}
    (h : Forwarded g context v es bs) :
    bs.map NsEvent.toEvent = Event.withoutBindings v.inDeclaration es := by
  induction h with
  | nil => rfl
  | forward hb _ ih =>
    rw [List.map_cons, hb.toEvent_eq, ih, Event.withoutBindings, hb.not_binds, declares_eq context]
    rfl
  | @bind v n value b es bs hd hb _ ih =>
    have hbinds : ((Event.attr n value).binds && !v.inDeclaration) = true := by
      simp [binds_eq, hb, hd]
    rw [ih, Event.withoutBindings, if_pos hbinds, declares_eq context]

/-- Unless the handler stops the run, either all events go through, or those before the first fault
do. -/
theorem Runs.cut {r : Resolver} {v : Env} {s : σ} {es : List Event} {bs : List NsEvent}
    {out : (Resolver × σ) × Option Error} (hr : Runs context h r v s es bs out)
    (hh : h.Tireless) :
    (out.2 = none ∧ Forwarded out.1.1.registry context v es bs) ∨
      ∃ u e w error, out.2 = some error ∧ es = u ++ e :: w ∧
        Forwarded out.1.1.registry context v u bs ∧
        verdict? out.1.1.registry context v u = none ∧
        (v.run context u).fault? out.1.1.registry context e = some error := by
  induction hr with
  | done => exact .inl ⟨rfl, .nil⟩
  | deliver hx hb _ hrun ih =>
    obtain ⟨hf, hn⟩ := hb _ hrun.extends
    obtain ⟨ho, hall⟩ | ⟨u, e, w, error, ho, rfl, hu, hv, he⟩ := ih
    · exact .inl ⟨ho, .forward hf hall⟩
    · refine .inr ⟨_ :: u, e, w, error, ho, rfl, .forward hf hu, ?_, he⟩
      rw [verdict?, hn, Option.none_or, hv]
  | @stop _ _ _ s s' _ _ b error _ _ hs =>
    have := hh s b
    rw [hs] at this
    cases this
  | @absorb _ _ v _ n value b _ _ _ _ hd hb _ ih =>
    obtain ⟨ho, hall⟩ | ⟨u, e, w, error, ho, rfl, hu, hv, he⟩ := ih
    · exact .inl ⟨ho, .bind hd hb hall⟩
    · refine .inr ⟨_ :: u, e, w, error, ho, rfl, .bind hd hb hu, ?_, he⟩
      have hn (g : Registry) : v.fault? g context (.attr n value) = none := by
        simp [Env.fault?, hb]
      rw [verdict?, hn, Option.none_or, hv]
  | reject _ hfault => exact .inr ⟨[], _, _, _, rfl, rfl, .nil, rfl, hfault⟩

end Lexical
namespace Document
open Lexical

variable {σ : Type}

/-- What a reading with namespaces forwards is what one without them tells, less the attributes
that bind a qualifier: all of it where lexical scope finds no fault, and what comes before the first
event at fault where it finds one. -/
theorem readResolved_filter {h : Handler σ NsEvent} (hh : h.Tireless) (config : Config)
    (doc : Bytes) (registry : Registry) (context : Scope) (s : σ) :
    let document := read config doc Handler.keeping []
    let reading := readResolved config doc registry context (Handler.recording h) ([], s)
    let forwarded := reading.state.1.map NsEvent.toEvent
    (verdict? reading.registry context {} document.state = none →
      reading.error = document.error ∧
        forwarded = Event.withoutBindings false document.state) ∧
    (∀ error, verdict? reading.registry context {} document.state = some error →
      reading.error = some error ∧ ∃ before e after, document.state = before ++ e :: after ∧
        verdict? reading.registry context {} before = none ∧
        (Env.run context {} before).fault? reading.registry context e = some error ∧
        forwarded = Event.withoutBindings false before) := by
  intro document reading forwarded
  rw [show document = _ from read_keeping config doc]
  obtain ⟨out, hr, herror, hregistry⟩ := runs_recording config doc registry context h s
  have hv := hr.verdict hh.recording
  rw [show reading.registry = _ from hregistry, show reading.error = _ from herror]
  obtain ⟨ho, hall⟩ | ⟨u, e, w, error, ho, hes, hu, hn, hfault⟩ := hr.cut hh.recording
  · rw [ho] at hv
    refine ⟨fun _ => ⟨by rw [ho, Option.none_or], hall.filtered⟩, fun error hsome => ?_⟩
    rw [← hv] at hsome
    cases hsome
  · rw [ho] at hv
    constructor
    · intro hnone
      rw [← hv] at hnone
      cases hnone
    · intro error' hsome
      obtain rfl : error = error' := Option.some.inj (hv.trans hsome)
      exact ⟨by rw [ho, Option.some_or], u, e, w, hes, hn, hfault, hu.filtered⟩

/-- The same attribute is forwarded from a declaration and left out of a start tag. -/
theorem readResolved_filter_xmlns :
    let doc := utf8 "<?d xmlns=\"u\"?><a xmlns=\"u\"/>"
    (readResolved .lenient doc {} {} (Handler.recording fun (n : Nat) _ => (n + 1, none))
        ([], 0)).state.1.map NsEvent.toEvent =
      [.startDeclaration (utf8 "d"), .attr ⟨[], Resolver.xmlns⟩ (.stable ⟨11, utf8 "u"⟩),
        .endDeclaration (utf8 "d"), .startElement ⟨[], utf8 "a"⟩ ⟨15, 29⟩,
        .endElement ⟨[], utf8 "a"⟩ ⟨15, 29⟩] := by
  intro doc
  have hfilter := readResolved_filter (h := fun (n : Nat) _ => (n + 1, none)) (fun _ _ => rfl)
    .lenient doc {} {} 0
  rw [(hfilter.1 (by decide +kernel)).2]
  decide +kernel

end Document
end XmlStream
