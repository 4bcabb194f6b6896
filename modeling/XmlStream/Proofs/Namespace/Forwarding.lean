import XmlStream.Proofs.Staging
import XmlStream.Proofs.Nesting
import XmlStream.Proofs.Namespace.Following
import XmlStream.Namespace.Document
/-! Forwarding: a whole reading with namespaces. Step by step the resolver follows lexical scope, so
the events it forwards are those that lexical scope tells, up to where the reading stops. -/
namespace XmlStream

variable {σ : Type}

namespace Lexical

variable {context : Scope} {h : Handler σ NsEvent}

/-- Events on their way through a resolver to a handler, with those that are forwarded. -/
inductive Runs (context : Scope) (h : Handler σ NsEvent) :
    Resolver → Env → σ → List Event → List NsEvent → (Resolver × σ) × Option Error → Prop
  | done {r v s} : Follows context r v → Runs context h r v s [] [] ((r, s), none)
  | deliver {r r' v s s' e es b bs out} : r.registry.Extends r'.registry →
      (∀ g, r'.registry.Extends g → Forwards g context v e b ∧ v.fault? g context e = none) →
      h s b = (s', none) → Runs context h r' (v.step context e) s' es bs out →
      Runs context h r v s (e :: es) (b :: bs) out
  | stop {r r' v s s' e es b error} : r.registry.Extends r'.registry →
      Forwards r'.registry context v e b → h s b = (s', some error) →
      Runs context h r v s (e :: es) [b] ((r', s'), some error)
  | absorb {r r' v s n value b es bs out} : r.registry.Extends r'.registry →
      v.inDeclaration = false → binding? n value = some b →
      Runs context h r' (v.step context (.attr n value)) s es bs out →
      Runs context h r v s (.attr n value :: es) bs out
  | reject {r r' v s e es error} : r.registry.Extends r'.registry →
      v.fault? r'.registry context e = some error →
      Runs context h r v s (e :: es) [] ((r', s), some error)

theorem Follows.runs {r : Resolver} {v : Env} {es : List Event} (hf : Follows context r v)
    (ho : v.Orderly context es) (h : Handler σ NsEvent) (s : σ) :
    ∃ bs, Runs context h r v s es bs (Handler.feed (Stage.before Resolver.step h) (r, s) es) := by
  induction es generalizing r v s with
  | nil => exact ⟨[], .done hf⟩
  | cons e es ih =>
    obtain ⟨hr, out⟩ := hf.step ho.1
    generalize hstep : r.step e = passed at hr out
    cases out with
    | @deliver r' b hf' hb =>
      have hh := Stage.before_deliver (h := h) (s := s) hstep
      rcases hs : h s b with ⟨s', _ | error⟩ <;> rw [hs] at hh
      · obtain ⟨bs, hrun⟩ := ih hf' ho.2 s'
        rw [Handler.feed_of_none hh]
        exact ⟨_, .deliver hr hb hs hrun⟩
      · rw [Handler.feed_of_some hh]
        exact ⟨_, .stop hr (hb _ (.refl _)).1 hs⟩
    | absorb hf' he hd hb =>
      subst he
      obtain ⟨bs, hrun⟩ := ih hf' ho.2 s
      rw [Handler.feed_of_none (Stage.before_absorb hstep)]
      exact ⟨_, .absorb hr hd hb hrun⟩
    | reject hfault =>
      rw [Handler.feed_of_some (Stage.before_reject hstep)]
      exact ⟨_, .reject hr hfault⟩

variable {r : Resolver} {v : Env} {s : σ} {es : List Event} {bs : List NsEvent}
  {out : (Resolver × σ) × Option Error}

theorem Runs.extends (hr : Runs context h r v s es bs out) :
    r.registry.Extends out.1.1.registry := by
  induction hr with
  | done => exact .refl _
  | deliver hr _ _ _ ih => exact hr.trans ih
  | stop hr => exact hr
  | absorb hr _ _ _ ih => exact hr.trans ih
  | reject hr => exact hr

theorem Runs.follows (hr : Runs context h r v s es bs out) (he : out.2 = none) :
    Follows context out.1.1 (v.run context es) := by
  induction hr with
  | done hf => exact hf
  | deliver _ _ _ _ ih => exact ih he
  | absorb _ _ _ _ ih => exact ih he
  | stop | reject => cases he

/-- All events are forwarded that nothing stops the run before. -/
theorem Runs.forwarded (hr : Runs context h r v s es bs out) :
    ∃ n, Forwarded out.1.1.registry context v (es.take n) bs ∧
      (out.2 = none → es.length ≤ n) := by
  induction hr with
  | done => exact ⟨0, .nil, fun _ => Nat.le_refl 0⟩
  | deliver _ hb _ hrun ih =>
    obtain ⟨n, hn, hl⟩ := ih
    exact ⟨n + 1, .forward (hb _ hrun.extends).1 hn, fun he => Nat.succ_le_succ (hl he)⟩
  | stop _ hb => exact ⟨1, .forward hb .nil, fun he => by cases he⟩
  | absorb _ hd hb _ ih =>
    obtain ⟨n, hn, hl⟩ := ih
    exact ⟨n + 1, .bind hd hb hn, fun he => Nat.succ_le_succ (hl he)⟩
  | reject => exact ⟨0, .nil, fun he => by cases he⟩

/-- Unless the handler stops the run, the first fault does. -/
theorem Runs.verdict (hr : Runs context h r v s es bs out) (hh : h.Tireless) :
    out.2 = verdict? out.1.1.registry context v es := by
  induction hr with
  | done => rfl
  | deliver _ hb _ hrun ih => rw [ih, verdict?, (hb _ hrun.extends).2, Option.none_or]
  | @stop _ _ _ s s' _ _ b error _ _ he =>
    have := hh s b
    rw [he] at this
    cases this
  | @absorb _ _ v _ n value b _ _ out _ _ hb _ ih =>
    rw [ih, verdict?]
    simp [Env.fault?, hb]
  | reject _ hfault => rw [verdict?, hfault, Option.some_or]

theorem Runs.recorded {k : Handler σ NsEvent} {s : List NsEvent × σ}
    {out : (Resolver × (List NsEvent × σ)) × Option Error}
    (hr : Runs context (Handler.recording k) r v s es bs out) : out.1.2.1 = s.1 ++ bs := by
  have key {s s' : List NsEvent × σ} {b error} (hs : Handler.recording k s b = (s', error)) :
      s'.1 = s.1 ++ [b] := (congrArg (·.1.1) hs).symm
  induction hr with
  | done => exact (List.append_nil _).symm
  | deliver _ _ hs _ ih => rw [ih, key hs, List.append_assoc, List.singleton_append]
  | stop _ _ hs => exact key hs
  | absorb _ _ _ _ ih => exact ih
  | reject => exact (List.append_nil _).symm

theorem Runs.fed (hr : Runs context h r v s es bs out) :
    (h.feed s bs).1 = out.1.2 ∧ (out.2 = none → (h.feed s bs).2 = none) := by
  induction hr with
  | done | reject => exact ⟨rfl, fun _ => rfl⟩
  | deliver _ _ hs _ ih =>
    rw [Handler.feed_of_none hs]
    exact ih
  | stop _ _ hs =>
    rw [Handler.feed_of_some hs]
    exact ⟨rfl, nofun⟩
  | absorb _ _ _ _ ih => exact ih

end Lexical
namespace Document
open Lexical

theorem readResolved_eq (config : Config) (doc : Bytes) (registry : Registry) (scope : Scope)
    (h : Handler σ NsEvent) (s : σ) :
    readResolved config doc registry scope h s =
      let out := Handler.feed (Stage.before Resolver.step h) ({ registry, scope }, s)
        (trace config doc).events
      let error := out.2.or (trace config doc).error
      ⟨out.1.2, error, out.1.1.registry,
        if error.isSome then out.1.1.unwind.scope else out.1.1.scope⟩ := by
  rw [readResolved, read_error, read_state]
  simp only
  split <;> rfl

/-- A reading that no handler stops is what its resolver makes of the document alone. -/
theorem readResolved_relay {h : Handler σ NsEvent} (hh : h.Tireless) (config : Config)
    (doc : Bytes) (registry : Registry) (scope : Scope) (s : σ) :
    readResolved config doc registry scope h s =
      let out := Stage.relay Resolver.step { registry, scope } (trace config doc).events
      let error := out.error.or (trace config doc).error
      ⟨(h.feed s out.delivered).1, error, out.state.registry,
        if error.isSome then out.state.unwind.scope else out.state.scope⟩ := by
  obtain ⟨hs, he⟩ := Stage.feed_before Resolver.step h { registry, scope } s
    (trace config doc).events
  rw [hh.feed, Option.none_or] at he
  simp only [readResolved_eq, hs, he, Stage.state_feed_before Resolver.step hh]

/-- What is forwarded can be recorded without a difference to the reading. -/
theorem readResolved_recording (config : Config) (doc : Bytes) (registry : Registry)
    (scope : Scope) (h : Handler σ NsEvent) (s : σ) :
    let reading := readResolved config doc registry scope h s
    let recorded := readResolved config doc registry scope (Handler.recording h) ([], s)
    recorded.state.2 = reading.state ∧ recorded.error = reading.error ∧
      recorded.registry = reading.registry ∧ recorded.scope = reading.scope := by
  obtain ⟨h₁, h₂, h₃⟩ := Stage.feed_before_recording Resolver.step h { registry, scope } [] s
    (trace config doc).events
  simp only [readResolved_eq, h₁, h₂, h₃, and_self]

/-- Every reading is a run of the document's events. -/
theorem runs_readResolved (config : Config) (doc : Bytes) (registry : Registry) (context : Scope)
    (h : Handler σ NsEvent) (s : σ) :
    ∃ bs out, Runs context h { registry, scope := context } {} s (trace config doc).events bs out ∧
      readResolved config doc registry context h s =
        let error := out.2.or (trace config doc).error
        ⟨out.1.2, error, out.1.1.registry,
          if error.isSome then out.1.1.unwind.scope else out.1.1.scope⟩ := by
  obtain ⟨bs, hr⟩ := (Follows.start registry context).runs (orderly_trace context config doc).1 h s
  exact ⟨bs, _, hr, readResolved_eq config doc registry context h s⟩

/-- What a reading forwards is there when it is recorded. -/
theorem runs_recording (config : Config) (doc : Bytes) (registry : Registry) (context : Scope)
    (h : Handler σ NsEvent) (s : σ) :
    let reading := readResolved config doc registry context (Handler.recording h) ([], s)
    ∃ out, Runs context (Handler.recording h) { registry, scope := context } {} ([], s)
        (trace config doc).events reading.state.1 out ∧
      reading.error = out.2.or (trace config doc).error ∧
      reading.registry = out.1.1.registry := by
  obtain ⟨bs, out, hr, he⟩ :=
    runs_readResolved config doc registry context (Handler.recording h) ([], s)
  have hbs : out.1.2.1 = bs := by rw [hr.recorded, List.nil_append]
  refine ⟨out, ?_, ?_, ?_⟩ <;> rw [he]
  rw [hbs]
  exact hr

/-- Every event that is forwarded, up to any end of the reading, has the id of what its name means
in lexical scope: what the open elements and the tag's own attributes bind, then what was bound
before the reading, then that of `xml`. -/
theorem forwarded_lexically (config : Config) (doc : Bytes) (registry : Registry)
    (context : Scope) (h : Handler σ NsEvent) (s : σ) :
    let reading := readResolved config doc registry context (Handler.recording h) ([], s)
    ∃ n, Forwarded reading.registry context {} ((trace config doc).events.take n)
        reading.state.1 ∧
      (reading.error = none → (trace config doc).events.length ≤ n) := by
  obtain ⟨bs, out, hr, he⟩ :=
    runs_readResolved config doc registry context (Handler.recording h) ([], s)
  obtain ⟨n, hn, hl⟩ := hr.forwarded
  refine ⟨n, ?_, ?_⟩
  · rw [he, hr.recorded]
    exact hn
  · rw [he]
    exact fun h => hl (Option.or_eq_none_iff.1 h).1

end Document
end XmlStream
