import XmlStream.Proofs.Words
import XmlStream.Proofs.Stopping
import XmlStream.Proofs.Namespace.Interning
import XmlStream.Proofs.Namespace.Restoring
import XmlStream.Proofs.Namespace.Verdict
import Mathlib.Data.List.Induction
/-! Matching names. Names are compared by their ids. Two with ids of URIs are taken for one name only
where their qualifiers stand for the same URI; but there is one id for all qualifiers that stand for
none, so names that differ in nothing but such a qualifier are taken for one. -/
namespace XmlStream

/-- A handler that takes all that it is handed takes all that there is. -/
theorem Handler.feed_of_recorded {σ α : Type} {h : Handler σ α} {s : σ} {as : List α}
    (hfed : (h.feed s (h.recording.feed ([], s) as).1.1).2 = none) : (h.feed s as).2 = none := by
  obtain ⟨u, v, rfl, hrecorded, hv⟩ := h.feed_recording [] s as
  rw [hrecorded, List.nil_append] at hfed
  rwa [hv hfed, List.append_nil]

namespace Lexical

variable {g G : Registry} {context : Scope} {r : Resolver} {v : Env}

/-! What a name belongs to, told by a registry. -/

def Meaning.uri? (g : Registry) : Meaning → Option Bytes
  | .uri u => if u = [] then none else some u
  | .given ns => g.uri? ns

/-- Two meanings with the same URI, or both with none. -/
def Meaning.Agree (g : Registry) (m m' : Meaning) : Prop :=
  (∃ uri, uri ≠ [] ∧ m.uri? g = some uri ∧ m'.uri? g = some uri) ∨
    (m.uri? g = none ∧ m'.uri? g = none)

theorem Meaning.Issued.ne_nil {m : Meaning} (hm : m.Issued g) {uri : Bytes}
    (hu : m.uri? g = some uri) : uri ≠ [] := by
  cases m with
  | uri u =>
    simp only [Meaning.uri?] at hu
    split at hu
    · cases hu
    · cases hu
      assumption
  | given ns =>
    obtain rfl | ⟨uri', hne, hu'⟩ := hm ns rfl
    · cases hu
    · cases hu.symm.trans hu'
      exact hne

theorem Meaning.Names.uri?_self {m : Meaning} {ns : NsId} (hn : m.Names g ns) :
    m.uri? g = g.uri? ns := by
  cases m with
  | given id => exact congrArg g.uri? (Eq.symm hn)
  | uri u =>
    by_cases hu : u = []
    · rw [Names, if_pos hu] at hn
      rw [Meaning.uri?, if_pos hu, hn]
      rfl
    · rw [Names, if_neg hu] at hn
      rw [Meaning.uri?, if_neg hu, hn]

/-- The id that a registry has for a meaning has the URI that is meant. -/
theorem Meaning.Names.uri?_eq {m : Meaning} {ns : NsId} (hn : m.Names G ns) (hm : m.Issued g)
    (hG : g.Extends G) : m.uri? g = G.uri? ns := by
  cases m with
  | uri u => exact hn.uri?_self
  | given id =>
    obtain rfl : ns = id := hn
    obtain rfl | ⟨uri, -, hu⟩ := hm ns rfl
    · rfl
    · exact hu.trans (hG _ _ hu).symm

/-- The same id is the same URI, or none for both. -/
theorem Meaning.agree_of_id {m m' : Meaning} {ns ns' : NsId} (hm : m.Issued g)
    (hm' : m'.Issued g) (hG : g.Extends G) (hn : m.Names G ns) (hn' : m'.Names G ns')
    (hid : m.id G = m'.id G) : m.Agree g m' := by
  rw [hn.id_eq, hn'.id_eq] at hid
  have huri : m.uri? g = m'.uri? g := by
    rw [hn.uri?_eq hm hG, hn'.uri?_eq hm' hG, hid]
  cases hu : m.uri? g with
  | none => exact .inr ⟨hu, huri ▸ hu⟩
  | some uri => exact .inl ⟨uri, hm.ne_nil hu, hu, huri ▸ hu⟩

/-! Start tags and the end tags that close them. -/

inductive Balanced : List Event → Prop
  | nil : Balanced []
  | other {es e} : Balanced es → e.isStart = false → e.isEnd = false → Balanced (es ++ [e])
  | element {es n x es' n' x'} : Balanced es → Balanced es' →
      Balanced (es ++ .startElement n x :: (es' ++ [.endElement n' x']))

/-- The innermost element that is open after some events is the one that this start tag, right behind
the first of them, has started. -/
def Opens (before : List Event) (n : QName) (x : Extent) (es : List Event) : Prop :=
  ∃ m, Balanced m ∧ es = before ++ .startElement n x :: m

inductive Opened : List Event → Nat → Prop
  | none {m} : Balanced m → Opened m 0
  | inside {es d n x m} : Opened es d → Balanced m → Opened (es ++ .startElement n x :: m) (d + 1)

theorem outer_step_other (v : Env) {e : Event} (hs : e.isStart = false) (he : e.isEnd = false) :
    (v.step context e).outer = v.outer := by
  cases e with
  | startElement => cases hs
  | endElement => cases he
  | attr n y =>
    simp only [Env.step, Env.attr]
    split
    · rfl
    · split <;> rfl
  | _ => rfl

theorem outer_run_balanced {es : List Event} (h : Balanced es) (v : Env) :
    (v.run context es).outer = v.outer := by
  induction h generalizing v with
  | nil => rfl
  | other _ hs he ih =>
    rw [Env.run_append]
    exact (outer_step_other _ hs he).trans (ih v)
  | @element es n x es' n' x' _ _ ih ih' =>
    rw [Env.run_append, ← List.cons_append, Env.run_append]
    change ((((v.run context es).step context (.startElement n x)).run context es').outer).tail = _
    rw [ih']
    exact ih v

/-- The innermost element is as its start tag found it. -/
theorem Opens.outer {before : List Event} {n : QName} {x : Extent} {es : List Event}
    (h : Opens before n x es) (context : Scope) (v : Env) : ∃ bindings, (v.run context es).outer =
      ⟨(v.run context before).meaning context n.qualifier, n.localName, bindings⟩ ::
        (v.run context before).outer := by
  obtain ⟨m, hm, rfl⟩ := h
  refine ⟨(v.run context before).own, ?_⟩
  rw [Env.run_append]
  exact outer_run_balanced hm _

theorem Opened.other {es : List Event} {d : Nat} (h : Opened es d) {e : Event}
    (hs : e.isStart = false) (he : e.isEnd = false) : Opened (es ++ [e]) d := by
  cases h with
  | none hm => exact .none (.other hm hs he)
  | inside hes hm =>
    rw [List.append_assoc, List.cons_append]
    exact .inside hes (.other hm hs he)

theorem Opened.endElement {es : List Event} {d : Nat} (h : Opened es (d + 1)) (n' : QName)
    (x' : Extent) : Opened (es ++ [.endElement n' x']) d := by
  obtain _ | ⟨hes, hm⟩ := h
  rw [List.append_assoc, List.cons_append]
  -- the start tag that is closed is inside of another or of none
  cases hes with
  | none hm' => exact .none (.element hm' hm)
  | inside hes hm' =>
    rw [List.append_assoc, List.cons_append]
    exact .inside hes (.element hm' hm)

theorem opened_of_orderly {es : List Event} (ho : Env.Orderly context {} es) :
    Opened es (Env.run context {} es).outer.length := by
  induction es using List.reverseRecOn with
  | nil => exact .none .nil
  | append_singleton es e ih =>
    obtain ⟨hes, he, -⟩ := Env.orderly_append.1 ho
    have ih := ih hes
    rw [Env.run_append]
    generalize Env.run context {} es = v at ih he
    change Opened (es ++ [e]) (v.step context e).outer.length
    by_cases hs : e.isStart
    · cases e with
      | startElement n x => exact .inside ih .nil
      | _ => cases hs
    by_cases hend : e.isEnd
    · cases e with
      | endElement n' x' =>
        obtain ⟨element, outer, hv⟩ := List.exists_cons_of_ne_nil he.2
        change Opened _ v.outer.tail.length
        rw [hv] at ih ⊢
        exact ih.endElement n' x'
      | _ => cases hend
    · rw [Bool.not_eq_true] at hs hend
      rw [outer_step_other v hs hend]
      exact ih.other hs hend

/-- An end tag finds the start tag that it closes. -/
theorem exists_opens {u w : List Event} {n' : QName} {x' : Extent}
    (ho : Env.Orderly context {} (u ++ .endElement n' x' :: w)) :
    ∃ before n x, Opens before n x u := by
  obtain ⟨hu, he, -⟩ := Env.orderly_append.1 ho
  have hopened := opened_of_orderly hu
  obtain ⟨d, hd⟩ := Nat.exists_eq_succ_of_ne_zero (mt List.eq_nil_of_length_eq_zero he.2)
  rw [hd] at hopened
  obtain _ | @⟨before, _, n, x, m, -, hm⟩ := hopened
  exact ⟨before, n, x, m, hm, rfl⟩

/-! What a resolver has ids for when it rejects an event or lets it pass. -/

/-- An event is rejected for its fault. -/
theorem Follows.error_step (h : Follows context r v) {e : Event} (he : v.Proper e) :
    (r.step e).2.error? = v.fault? (r.step e).1.registry context e := by
  obtain ⟨-, out⟩ := h.step he
  generalize r.step e = passed at out
  cases out with
  | deliver _ hb => exact (hb _ (.refl _)).2.symm
  | absorb _ he _ hb =>
    subst he
    simp [Env.fault?, hb, Passing.error?]
  | reject hfault => exact hfault.symm

theorem Follows.names_attr (h : Follows context r v) {n : QName} {y : Span} (hp : v.Plain n y) :
    ∃ ns, (v.meaning context n.qualifier).Names (r.step (.attr n y)).1.registry ns := by
  obtain ⟨hd, hb⟩ := hp
  obtain ⟨registry, ns, he, -, hn⟩ := h.resolve n.qualifier
  refine ⟨ns, ?_⟩
  unfold binding? at hb
  split at hb
  · cases hb
  · rename_i hdefault
    split at hb
    · cases hb
    · rename_i hprefixed
      simp only [Resolver.step, Resolver.attr, h.inDeclaration, hd, Bool.false_eq_true, if_false,
        if_neg hdefault, if_neg hprefixed, he]
      split <;> exact hn

theorem Follows.names_endElement (h : Follows context r v) (n : QName) (x : Extent) :
    ∃ ns, (v.meaning context n.qualifier).Names (r.step (.endElement n x)).1.registry ns := by
  obtain ⟨registry, ns, he, -, hn⟩ := h.resolve n.qualifier
  refine ⟨ns, ?_⟩
  rw [Resolver.step, registry_endElement, he]
  exact hn

theorem Follows.names_outer (h : Follows context r v) {element : Element} {outer : List Element}
    (hv : v.outer = element :: outer) : ∃ ns, element.meaning.Names r.registry ns := by
  have hframes := h.frames
  rw [hv] at hframes
  generalize r.frames = frames at hframes
  cases hframes with
  | cons hm => exact ⟨_, hm⟩

theorem Follows.names_attrs (h : Follows context r v) {a : Meaning × Bytes} (ha : a ∈ v.attrs) :
    ∃ ns, a.1.Names r.registry ns := by
  have hseen := h.seen
  generalize v.attrs = attrs, r.seen = seen at ha hseen
  induction hseen with
  | nil => cases ha
  | cons hs _ ih =>
    obtain rfl | ha := List.mem_cons.1 ha
    · exact ⟨_, hs.1⟩
    · exact ih ha

/-- An end tag passes only if it agrees with the start tag that it closes. -/
theorem Follows.agree_endElement {before es : List Event} {n n' : QName} {x x' : Extent}
    (h : Follows context r (Env.run context {} es)) (hc : context.Issued g)
    (hg : g.Extends r.registry) (hopens : Opens before n x es)
    (he : (Env.run context {} es).Proper (.endElement n' x'))
    (hpass : (r.step (.endElement n' x')).2.error? = none) : n.localName = n'.localName ∧
      ((Env.run context {} before).meaning context n.qualifier).Agree g
        ((Env.run context {} es).meaning context n'.qualifier) := by
  obtain ⟨bindings, hv⟩ := hopens.outer context {}
  have hstep := Resolver.extends_step r (.endElement n' x')
  obtain ⟨ns, hn⟩ := h.names_outer hv
  obtain ⟨ns', hn'⟩ := h.names_endElement n' x'
  rw [h.error_step he] at hpass
  simp only [Env.fault?, hv] at hpass
  split at hpass
  · rename_i heq
    obtain ⟨hid, hlocal⟩ := Prod.mk.inj heq
    exact ⟨hlocal, Meaning.agree_of_id (Env.issued_meaning hc _ _) (Env.issued_meaning hc _ _)
      (hg.trans hstep) (hn.mono hstep) hn' hid⟩
  · cases hpass

/-- Two attributes of one tag, neither of them a binding, with this local name and qualifiers that
agree where they stand. -/
def Twice (g : Registry) (context : Scope) (es : List Event) (name : Bytes) : Prop :=
  ∃ u n y m n' y' w, es = u ++ .attr n y :: (m ++ .attr n' y' :: w) ∧ (∀ e ∈ m, IsAttr e) ∧
    (Env.run context {} u).Plain n y ∧ (Env.run context {} (u ++ .attr n y :: m)).Plain n' y' ∧
    n.localName = name ∧ n'.localName = name ∧
    ((Env.run context {} u).meaning context n.qualifier).Agree g
      ((Env.run context {} (u ++ .attr n y :: m)).meaning context n'.qualifier)

/-- An attribute is rejected as a duplicate only if it agrees with another one of its tag. -/
theorem Follows.twice {es w : List Event} {e : Event} {ns : NsId} {name : Bytes}
    {offset : Option Nat} (h : Follows context r (Env.run context {} es))
    (hc : context.Issued g) (hg : g.Extends r.registry) (he : (Env.run context {} es).Proper e)
    (hreject : (r.step e).2.error? = some (.malformed (.duplicateAttribute ns name) offset)) :
    Twice g context (es ++ e :: w) name := by
  rw [h.error_step he] at hreject
  have hstep := Resolver.extends_step r e
  cases e with
  | attr n' y' =>
    simp only [Env.fault?] at hreject
    split at hreject
    · rename_i hcond
      obtain ⟨hd, hb, a, ha, hid, hlocal⟩ := hcond
      cases hreject
      obtain ⟨ns, hn⟩ := h.names_attrs ha
      obtain ⟨ns', hn'⟩ := h.names_attr ⟨hd, hb⟩
      obtain ⟨ha, -⟩ | ⟨u, n, y, m, rfl, hm, hp, rfl⟩ := exists_of_attrs ha
      · cases ha
      · exact ⟨u, n, y, m, n', y', w, by simp, hm, hp, ⟨hd, hb⟩, hlocal, rfl,
          Meaning.agree_of_id (Env.issued_meaning hc _ _) (Env.issued_meaning hc _ _)
            (hg.trans hstep) (hn.mono hstep) hn' hid⟩
    · cases hreject
  | endElement =>
    simp only [Env.fault?] at hreject
    split at hreject
    · cases hreject
    · split at hreject <;> cases hreject
  | _ => cases hreject

/-- A resolver that has rejected none of some events follows them. -/
theorem Follows.relay (h : Follows context r v) {es : List Event} (ho : v.Orderly context es)
    (hpass : (Stage.relay Resolver.step r es).error = none) :
    Follows context (Stage.relay Resolver.step r es).state (v.run context es) := by
  have hk : (Handler.keeping : Handler (List NsEvent) NsEvent).Tireless := fun _ _ => rfl
  obtain ⟨bs, hruns⟩ := h.runs ho Handler.keeping []
  rw [← Stage.state_feed_before Resolver.step hk r [] es]
  refine hruns.follows ?_
  rw [(Stage.feed_before Resolver.step Handler.keeping r [] es).2, hk.feed, hpass]
  rfl

end Lexical

namespace Document
open Lexical

variable {σ : Type}

/-- What a scope binds has been issued when a reading is over, if it had been before. -/
theorem issued_readResolved {context : Scope} {registry : Registry} (hc : context.Issued registry)
    (config : Config) (doc : Bytes) (h : Handler σ NsEvent) (s : σ) :
    let reading := readResolved config doc registry context h s
    reading.scope.Issued reading.registry := by
  intro reading b hb
  rw [show reading.scope.bindings = _ from readResolved_bindings ..] at hb
  exact hc.mono (Package.extends_readResolved config doc registry context h s) b hb

/-- When a reading ends without an error, each end tag has the local name of the start tag that it
closes, and a qualifier that stands there for the same URI as the qualifier of the start tag, or for
none as that one does. An attribute is reported as a duplicate, which is no error of the handler,
only if another attribute of its tag has its local name, and a qualifier that stood for the same URI
or for none as well. -/
theorem names_taken_for_one (config : Config) (doc : Bytes) (registry : Registry)
    (context : Scope) (hc : context.Issued registry) (h : Handler σ NsEvent) (s : σ) :
    let events := (trace config doc).events
    let reading := readResolved config doc registry context h s
    let handed := (readResolved config doc registry context h.recording ([], s)).state.1
    (reading.error = none → ∀ u n' x' w, events = u ++ .endElement n' x' :: w →
      (∃ before n x, Opens before n x u) ∧
      ∀ before n x, Opens before n x u → n.localName = n'.localName ∧
        ((Env.run context {} before).meaning context n.qualifier).Agree registry
          ((Env.run context {} u).meaning context n'.qualifier)) ∧
    (∀ ns name, reading.error = some (.malformed (.duplicateAttribute ns name) none) →
      (h.feed s handed).2 = none → Twice registry context events name) := by
  intro events reading handed
  obtain ⟨ho, -⟩ := orderly_trace context config doc
  obtain ⟨-, herror, -⟩ := readResolved_feed config doc registry context h s
  set relay := Stage.relay Resolver.step { registry, scope := context }
  have hpassed {u w : List Event} {e : Event} (hes : events = u ++ e :: w)
      (hu : (relay u).error = none) : Follows context (relay u).state (Env.run context {} u) ∧
        registry.Extends (relay u).state.registry ∧ (Env.run context {} u).Proper e := by
    rw [show (trace config doc).events = _ from hes] at ho
    obtain ⟨hou, he, -⟩ := Env.orderly_append.1 ho
    have hextends := Resolver.extends_relay { registry, scope := context } u
    exact ⟨(Follows.start registry context).relay hou hu, hextends, he⟩
  constructor
  · intro hnone u n' x' w hes
    have hrelay : (relay events).error = none :=
      (Option.or_eq_none_iff.1 (Option.or_eq_none_iff.1 (herror.symm.trans hnone)).2).1
    rw [hes, Stage.error_relay_append, Option.or_eq_none_iff, Stage.error_relay_cons,
      Option.or_eq_none_iff] at hrelay
    obtain ⟨hu, hpass, -⟩ := hrelay
    obtain ⟨hf, hg, he⟩ := hpassed hes hu
    rw [show (trace config doc).events = _ from hes] at ho
    exact ⟨exists_opens ho, fun before n x hopens => hf.agree_endElement hc hg hopens he hpass⟩
  · intro ns name hdup hfed
    obtain ⟨hstate, -, -⟩ := readResolved_feed config doc registry context h.recording ([], s)
    rw [show handed = _ from congrArg Prod.fst hstate] at hfed
    rw [show reading.error = _ from herror, h.feed_of_recorded hfed, Option.none_or] at hdup
    change (relay events).error.or (trace config doc).error = _ at hdup
    cases hrelay : (relay events).error with
    | none =>
      rw [hrelay, Option.none_or] at hdup
      obtain ⟨cause, pos, he⟩ := trace_error_offset hdup
      cases he
    | some error =>
      rw [hrelay, Option.some_or] at hdup
      cases hdup
      obtain ⟨u, e, w, hes, hu, hreject⟩ := Stage.exists_of_relay_error hrelay
      obtain ⟨hf, hg, he⟩ := hpassed hes hu
      rw [hes]
      exact hf.twice hc hg he hreject

/-- Qualifiers for the same URI, of which one was bound before the reading and one is by the tag. -/
theorem names_taken_for_one_bound :
    let pushed := Scope.empty.push {} (utf8 "p") (utf8 "u")
    let registry := pushed.1
    let context := pushed.2.1
    let closed := utf8 "<p:a xmlns:q=\"u\"></q:a>"
    let repeated := utf8 "<a xmlns:q=\"u\" p:n=\"1\" q:n=\"2\"/>"
    let failed := readResolved .lenient repeated registry context Handler.keeping []
    let handed :=
      (readResolved .lenient repeated registry context Handler.keeping.recording ([], [])).state.1
    let p : QName := ⟨utf8 "p", utf8 "a"⟩
    let q : QName := ⟨utf8 "q", utf8 "a"⟩
    let binding : Event := .attr ⟨utf8 "xmlns", utf8 "q"⟩ (.stable ⟨14, utf8 "u"⟩)
    let u := [binding, .startElement p ⟨0, 17⟩]
    context.Issued registry ∧
      (readResolved .lenient closed registry context Handler.keeping []).error = none ∧
      (trace .lenient closed).events = u ++ [.endElement q ⟨17, 23⟩] ∧
      Opens [binding] p ⟨0, 17⟩ u ∧ p.localName = q.localName ∧
      ((Env.run context {} [binding]).meaning context p.qualifier).Agree registry
        ((Env.run context {} u).meaning context q.qualifier) ∧
      failed.error = some (.malformed (.duplicateAttribute (.numbered 0) (utf8 "n")) none) ∧
      (Handler.keeping.feed [] handed).2 = none ∧
      Twice registry context (trace .lenient repeated).events (utf8 "n") := by
  intro pushed registry context closed repeated failed handed p q binding u
  have hissued : context.Issued registry := (Scope.issued_empty {}).push (utf8 "p") (utf8 "u")
  have hnone : (readResolved .lenient closed registry context Handler.keeping []).error = none := by
    decide +kernel
  have hevents : (trace .lenient closed).events = u ++ [.endElement q ⟨17, 23⟩] := by
    decide +kernel
  have hopens : Opens [binding] p ⟨0, 17⟩ u := ⟨[], .nil, rfl⟩
  have herror : failed.error =
      some (.malformed (.duplicateAttribute (.numbered 0) (utf8 "n")) none) := by decide +kernel
  have htaken : (Handler.keeping.feed [] handed).2 = none :=
    Handler.Tireless.feed (fun _ _ => rfl) _ _
  obtain ⟨hend, -⟩ :=
    names_taken_for_one .lenient closed registry context hissued Handler.keeping []
  obtain ⟨-, htwice⟩ :=
    names_taken_for_one .lenient repeated registry context hissued Handler.keeping []
  obtain ⟨hlocal, hagree⟩ := (hend hnone u q ⟨17, 23⟩ [] hevents).2 _ _ _ hopens
  exact ⟨hissued, hnone, hevents, hopens, hlocal, hagree, herror, htaken,
    htwice _ _ herror htaken⟩

/-- Two qualifiers that nothing binds: an end tag with one closes a start tag with the other, and
attributes with one and the other are duplicates. -/
theorem unbound_taken_for_one :
    let closed := utf8 "<p:a></q:a>"
    let repeated := utf8 "<a p:n=\"1\" q:n=\"2\"/>"
    let a : QName := ⟨[], utf8 "a"⟩
    let p (name : String) : QName := ⟨utf8 "p", utf8 name⟩
    let q (name : String) : QName := ⟨utf8 "q", utf8 name⟩
    let start : Event := .startElement (p "a") ⟨0, 5⟩
    let attr : Event := .attr (p "n") (.stable ⟨8, utf8 "1"⟩)
    let apart (before : List Event) (n : QName) (es : List Event) (n' : QName) : Prop :=
      n.qualifier ≠ n'.qualifier ∧ ¬ ∃ uri, uri ≠ [] ∧
        ((Env.run .empty {} before).meaning .empty n.qualifier).uri? {} = some uri ∧
        ((Env.run .empty {} es).meaning .empty n'.qualifier).uri? {} = some uri
    ((readResolved .lenient closed {} .empty Handler.keeping []).error = none ∧
      (trace .lenient closed).events = [start] ++ [.endElement (q "a") ⟨5, 11⟩] ∧
      Opens [] (p "a") ⟨0, 5⟩ [start] ∧ apart [] (p "a") [start] (q "a")) ∧
    (readResolved .lenient repeated {} .empty Handler.keeping []).error =
        some (.malformed (.duplicateAttribute .unknown (utf8 "n")) none) ∧
      (trace .lenient repeated).events = [attr, .attr (q "n") (.stable ⟨16, utf8 "2"⟩),
        .startElement a ⟨0, 20⟩, .endElement a ⟨0, 20⟩] ∧
      apart [] (p "n") [attr] (q "n") := by
  intro closed repeated a p q start attr apart
  have hapart (es : List Event) (name : String) (hes : (Env.run .empty {} es).meaning .empty
      (utf8 "q") = .uri []) : apart [] (p name) es (q name) := by
    have hne : utf8 "p" ≠ utf8 "q" := by decide
    refine ⟨hne, fun ⟨uri, _, _, hu⟩ => ?_⟩
    rw [hes] at hu
    cases hu
  exact ⟨⟨by decide +kernel, by decide +kernel, ⟨[], .nil, rfl⟩, hapart [start] "a" rfl⟩,
    by decide +kernel, by decide +kernel, hapart [attr] "n" rfl⟩

end Document
end XmlStream
