import XmlStream.Proofs.Namespace.Growing
import XmlStream.Package
/-! Interning. How a registry grows is told by the events alone: each asks it for the URIs that it
binds, or for that of `xml`, and those which are new come behind the others in the order in which
they are asked for first. -/
namespace XmlStream

variable {σ : Type}

namespace Registry

def internAll (r : Registry) (uris : List Bytes) : Registry :=
  uris.foldl (fun r uri => (r.intern uri).1) r

theorem internAll_append (r : Registry) (us vs : List Bytes) :
    r.internAll (us ++ vs) = (r.internAll us).internAll vs :=
  List.foldl_append

/-- What is there stays in its place, and what is new comes behind it, each URI once. -/
theorem uris_internAll (r : Registry) {us : List Bytes} (hus : [] ∉ us) :
    (r.internAll us).catalogue.uris =
      r.catalogue.uris ++ (us.removeAll r.catalogue.uris).eraseDups := by
  induction us generalizing r with
  | nil => exact (List.append_nil _).symm
  | cons u us ih =>
    obtain ⟨hu, hus⟩ := List.ne_and_not_mem_of_not_mem_cons hus
    have hinserted := uris_intern r (Ne.symm hu)
    change ((r.intern u).1.internAll us).catalogue.uris = _
    rw [ih _ hus, hinserted]
    -- what is left of the list is compared with the URIs there are after the first of it
    by_cases hold : u ∈ r.catalogue.uris
    · have hskip : (u :: us).removeAll r.catalogue.uris = us.removeAll r.catalogue.uris := by
        simp [List.removeAll, hold]
      rw [if_pos hold, hskip]
    · have hnew : (u :: us).removeAll r.catalogue.uris = u :: us.removeAll r.catalogue.uris := by
        simp [List.removeAll, hold]
      have hmore : us.removeAll (r.catalogue.uris ++ [u]) =
          (us.removeAll r.catalogue.uris).filter fun b => !b == u := by
        rw [List.removeAll, List.removeAll, List.filter_filter]
        refine List.filter_congr fun b _ => ?_
        by_cases hb : b = u <;> simp [hb]
      rw [if_neg hold, hnew, List.eraseDups_cons, hmore, List.append_assoc, List.singleton_append]

end Registry

namespace Lexical

namespace Env

variable (context : Scope)

/-- The URI that a qualifier needs although nothing binds it: that of `xml`. -/
def implied (v : Env) (qualifier : Bytes) : List Bytes :=
  if qualifier = utf8 "xml" ∧ v.bindings.lookup qualifier = none ∧
      context.bound? qualifier = none then
    [Registry.xmlUri]
  else []

def uses (v : Env) : Event → List Bytes
  | .attr name value =>
    if v.inDeclaration then []
    else
      match binding? name value with
      | some (_, uri) => if uri = [] then [] else [uri]
      | none => v.implied context name.qualifier
  | .startElement name _ | .endElement name _ => v.implied context name.qualifier
  | _ => []

def used : Env → List Event → List Bytes
  | _, [] => []
  | v, e :: es => v.uses context e ++ used (v.step context e) es

variable {context}

theorem nil_notMem_implied (v : Env) (qualifier : Bytes) : [] ∉ v.implied context qualifier := by
  unfold implied
  split
  · rw [List.mem_singleton]
    decide
  · exact List.not_mem_nil

theorem nil_notMem_uses (v : Env) (e : Event) : [] ∉ v.uses context e := by
  cases e with
  | attr name value =>
    simp only [uses]
    split
    · exact List.not_mem_nil
    · split
      · split
        · exact List.not_mem_nil
        · rename_i hu
          rw [List.mem_singleton]
          exact Ne.symm hu
      · exact v.nil_notMem_implied _
  | startElement name | endElement name => exact v.nil_notMem_implied _
  | doctype | characters | startDeclaration | endDeclaration => exact List.not_mem_nil

theorem nil_notMem_used (v : Env) (es : List Event) : [] ∉ v.used context es := by
  induction es generalizing v with
  | nil => exact List.not_mem_nil
  | cons e es ih => exact List.not_mem_append (v.nil_notMem_uses e) (ih _)

end Env

variable {context : Scope} {r : Resolver} {v : Env}

/-- A qualifier has an id in the scope of a resolver if something binds it. -/
theorem Follows.bound?_eq_none_iff (h : Follows context r v) (qualifier : Bytes) :
    r.scope.bound? qualifier = none ↔
      v.bindings.lookup qualifier = none ∧ context.bound? qualifier = none := by
  obtain ⟨held, hh, hb⟩ := h.held
  rw [Scope.bound?_eq_lookup, hh.bindings, List.lookup_append, Option.or_eq_none_iff,
    Scope.bound?_eq_lookup]
  obtain ⟨h₁, h₂⟩ | ⟨uri, id, h₁, h₂, -⟩ := Scope.lookup_forall₂
    (R := fun uri id => (Meaning.uri uri).Names r.registry id) hb qualifier
  · simp only [h₁, h₂]
  · simp only [h₁, h₂, reduceCtorEq, false_and]

theorem Follows.registry_resolve (h : Follows context r v) (qualifier : Bytes) :
    (r.resolve qualifier).1.registry = r.registry.internAll (v.implied context qualifier) := by
  simp only [Env.implied, ← h.bound?_eq_none_iff, Resolver.resolve, Scope.resolve]
  cases r.scope.bound? qualifier with
  | some id =>
    have hbound : ¬ (qualifier = utf8 "xml" ∧ some id = none) := fun h => Option.some_ne_none id h.2
    rw [if_neg hbound]
    rfl
  | none =>
    by_cases hx : qualifier = utf8 "xml"
    · rw [if_pos hx, if_pos ⟨hx, rfl⟩]
      rfl
    · rw [if_neg hx, if_neg fun h => hx h.1]
      rfl

theorem registry_declare (r : Resolver) (key uri : Bytes) :
    (r.declare key uri).registry = r.registry.internAll (if uri = [] then [] else [uri]) := by
  by_cases hu : uri = []
  · subst hu
    rfl
  · rw [if_neg hu]
    rfl

theorem Follows.registry_attr (h : Follows context r v) (name : QName) (value : Span) :
    (r.attr name value).1.registry = r.registry.internAll (v.uses context (.attr name value)) := by
  unfold Resolver.attr
  simp only [Env.uses, ← h.inDeclaration, binding?]
  split
  · rfl
  split
  · exact registry_declare r [] value.bytes
  split
  · exact registry_declare r name.localName value.bytes
  · rw [← h.registry_resolve]
    split <;> rfl

theorem registry_endElement (r : Resolver) (name : QName) (extent : Extent) :
    (r.endElement name extent).1.registry = (r.resolve name.qualifier).1.registry := by
  simp only [Resolver.endElement]
  split
  · rfl
  · split <;> rfl

/-- One step interns what its event needs, also when it is refused. -/
theorem Follows.registry_step (h : Follows context r v) (e : Event) :
    (r.step e).1.registry = r.registry.internAll (v.uses context e) := by
  cases e with
  | attr name value => exact h.registry_attr name value
  | startElement name => exact h.registry_resolve name.qualifier
  | endElement name extent =>
    exact (registry_endElement r name extent).trans (h.registry_resolve name.qualifier)
  | doctype | characters | startDeclaration | endDeclaration => rfl

def Told (context : Scope) (registry : Registry) (v : Env) (seen : List Event)
    (state : List Event × Resolver × σ) : Prop :=
  ∃ taken, state.1 = seen ++ taken ∧
    state.2.1.registry = registry.internAll (v.used context taken)

section
variable {registry registry' : Registry} {e : Event} {seen : List Event}
  {state : List Event × Resolver × σ}

theorem Told.last (hseen : state.1 = seen ++ [e])
    (hr : state.2.1.registry = registry.internAll (v.uses context e)) :
    Told context registry v seen state :=
  ⟨[e], hseen, by rw [hr, Env.used, Env.used, List.append_nil]⟩

theorem Told.cons (hr : registry' = registry.internAll (v.uses context e))
    (h : Told context registry' (v.step context e) (seen ++ [e]) state) :
    Told context registry v seen state := by
  obtain ⟨taken, hseen, hregistry⟩ := h
  refine ⟨e :: taken, by rw [hseen, List.append_assoc, List.singleton_append], ?_⟩
  rw [hregistry, hr, ← Registry.internAll_append, Env.used]

end

/-- Whatever stops a resolver, it has interned what the events need that it has taken. -/
theorem Follows.told {es : List Event} (hf : Follows context r v) (ho : v.Orderly context es)
    (h : Handler σ NsEvent) (s : σ) (seen : List Event) :
    Told context r.registry v seen
      ((Stage.before Resolver.step h).recording.feed (seen, (r, s)) es).1 := by
  induction es generalizing r v s seen with
  | nil => exact ⟨[], (List.append_nil _).symm, rfl⟩
  | cons e es ih =>
    have hregistry := hf.registry_step e
    obtain ⟨-, hout⟩ := hf.step ho.1
    generalize hstep : r.step e = passed at hregistry hout
    cases hout with
    | @deliver r' b hf' =>
      have hs := Stage.before_deliver (h := h) (s := s) hstep
      rcases hb : h s b with ⟨s', _ | error⟩ <;> rw [hb] at hs
      · rw [Handler.feed_of_none (Handler.recording_eq hs seen)]
        exact .cons hregistry (ih hf' ho.2 s' _)
      · rw [Handler.feed_of_some (Handler.recording_eq hs seen)]
        exact .last rfl hregistry
    | absorb hf' =>
      rw [Handler.feed_of_none (Handler.recording_eq (Stage.before_absorb hstep) seen)]
      exact .cons hregistry (ih hf' ho.2 s _)
    | reject =>
      -- an end tag has been resolved before it is refused, so what it needs is there
      rw [Handler.feed_of_some (Handler.recording_eq (Stage.before_reject hstep) seen)]
      exact .last rfl hregistry

/-! A registry that grows goes on telling what has been forwarded. -/

theorem Forwards.mono {g g' : Registry} (hg : g.Extends g') {e : Event} {b : NsEvent}
    (h : Forwards g context v e b) : Forwards g' context v e b := by
  cases h with
  | doctype d => exact .doctype d
  | startDeclaration n => exact .startDeclaration n
  | endDeclaration n => exact .endDeclaration n
  | declarationAttr hd => exact .declarationAttr hd
  | attr hd hb hm => exact .attr hd hb (hm.mono hg)
  | startElement hm => exact .startElement (hm.mono hg)
  | endElement hm => exact .endElement (hm.mono hg)
  | characters t => exact .characters t

theorem Forwarded.mono {g g' : Registry} (hg : g.Extends g') {es : List Event} {bs : List NsEvent}
    (h : Forwarded g context v es bs) : Forwarded g' context v es bs := by
  induction h with
  | nil => exact .nil
  | forward hb _ ih => exact .forward (hb.mono hg) ih
  | bind hd hb _ ih => exact .bind hd hb ih

/-- What is forwarded has ids that the registry gives, if those bound before are such ids. -/
theorem Forwarded.issued {g : Registry} {es : List Event} {bs : List NsEvent}
    (h : Forwarded g context v es bs) (hc : context.Issued g) {b : NsEvent} (hb : b ∈ bs)
    {ns : NsId} (hns : b.ns? = some ns) : g.Issued ns := by
  induction h with
  | nil => cases hb
  | bind _ _ _ ih => exact ih hb
  | @forward v _ _ _ _ hforwards _ ih =>
    obtain rfl | hb := List.mem_cons.1 hb
    · cases hforwards with
      | attr _ _ hm | startElement hm | endElement hm =>
        cases hns
        exact hm.issued (v.issued_meaning hc _)
      | _ => cases hns
    · exact ih hb

end Lexical

namespace Package
open Lexical

/-- A document of a package as it is read: the events that its resolver takes, up to the one that
stops the reading, those that it forwards, and the registry that is left. -/
structure Part where
  taken : List Event
  forwarded : List NsEvent
  registry : Registry

def part (config : Config) (doc : Bytes) (registry : Registry) (h : Handler σ NsEvent) (s : σ) :
    Part :=
  let ending := Document.read config doc (Stage.before Resolver.step h.recording).recording
    ([], ({ registry, scope := .empty }, ([], s)))
  let (taken, resolver, forwarded, _) := ending.state
  ⟨taken, forwarded, resolver.registry⟩

def parts (config : Config) (h : Handler σ NsEvent) (start : Nat → σ) (index : Nat)
    (registry : Registry) : List Bytes → List Part
  | [] => []
  | doc :: docs =>
    let reading := Document.readResolved config doc registry .empty h (start index)
    part config doc registry h (start index) ::
      parts config h start (index + 1) reading.registry docs

variable (config : Config) (doc : Bytes) (registry : Registry) (h : Handler σ NsEvent) (s : σ)

theorem registry_part : (part config doc registry h s).registry =
    (Document.readResolved config doc registry .empty h s).registry := by
  have houter := ((Stage.before Resolver.step h.recording).feed_recording_eq []
    ({ registry, scope := .empty }, ([], s)) (Document.trace config doc).events).1
  have hinner := (Stage.feed_before_recording Resolver.step h { registry, scope := .empty } [] s
    (Document.trace config doc).events).1
  rw [Document.readResolved_eq, part, Document.read_state]
  exact congrArg Resolver.registry ((congrArg Prod.fst houter).trans hinner)

theorem registry_part_eq : (part config doc registry h s).registry =
    registry.internAll (Env.used .empty {} (part config doc registry h s).taken) := by
  obtain ⟨taken, htaken, hregistry⟩ := (Follows.start registry .empty).told
    (orderly_trace .empty config doc).1 h.recording ([], s) []
  rw [part, Document.read_state]
  simp only [htaken, List.nil_append]
  exact hregistry

theorem forwarded_part : ∃ n, Forwarded (part config doc registry h s).registry .empty {}
    ((part config doc registry h s).taken.take n) (part config doc registry h s).forwarded := by
  obtain ⟨taken, more, hevents, hfed, -⟩ := (Stage.before Resolver.step h.recording).feed_recording
    [] ({ registry, scope := .empty }, ([], s)) (Document.trace config doc).events
  have horderly := (orderly_trace .empty config doc).1
  rw [hevents, Env.orderly_append] at horderly
  obtain ⟨bs, hruns⟩ := (Follows.start registry .empty).runs horderly.1 h.recording ([], s)
  obtain ⟨n, hn, -⟩ := hruns.forwarded
  have hbs := hruns.recorded
  refine ⟨n, ?_⟩
  rw [part, Document.read_state, hfed]
  simp only [hbs, List.nil_append]
  exact hn

/-- What a resolver takes is a beginning of what its document has, and all of it unless the reading is
stopped. -/
theorem taken_part : (part config doc registry h s).taken <+: (Document.trace config doc).events ∧
    ((Document.readResolved config doc registry .empty h s).error = none →
      (part config doc registry h s).taken = (Document.trace config doc).events) := by
  obtain ⟨taken, more, hevents, hfed, hmore⟩ := (Stage.before Resolver.step h.recording).feed_recording
    [] ({ registry, scope := .empty }, ([], s)) (Document.trace config doc).events
  have htaken : (part config doc registry h s).taken = taken := by
    rw [part, Document.read_state, hfed]
    rfl
  rw [htaken]
  refine ⟨⟨more, hevents.symm⟩, fun hnone => ?_⟩
  rw [Document.readResolved_eq] at hnone
  have hstage := (Stage.feed_before_recording Resolver.step h { registry, scope := .empty } [] s
    (Document.trace config doc).events).2.2
  have houter := ((Stage.before Resolver.step h.recording).feed_recording_eq []
    ({ registry, scope := .empty }, ([], s)) (Document.trace config doc).events).2
  have hstop := houter.trans (hstage.trans (Option.or_eq_none_iff.1 hnone).1)
  rw [hfed] at hstop
  rw [hevents, hmore hstop, List.append_nil]

variable (start : Nat → σ) (index : Nat) (docs : List Bytes)

theorem registry_readFrom : (readFrom config h start index registry docs).2 =
    registry.internAll ((parts config h start index registry docs).flatMap
      fun p => Env.used .empty {} p.taken) := by
  induction docs generalizing index registry with
  | nil => rfl
  | cons doc docs ih =>
    rw [readFrom_cons, parts, List.flatMap_cons, Registry.internAll_append, ← registry_part_eq,
      registry_part, ← ih]

theorem length_parts : (parts config h start index registry docs).length = docs.length := by
  induction docs generalizing index registry with
  | nil => rfl
  | cons doc docs ih => rw [parts, List.length_cons, List.length_cons, ih]

/-- Each document is read over what those before it leave of the registry, and what is left behind it
extends to what is left in the end. -/
theorem exists_part {i : Nat} (hd : docs[i]? = some doc) :
    ∃ g, let whole := readFrom config h start index registry docs
      let p := part config doc g h (start (index + i))
      (parts config h start index registry docs)[i]? = some p ∧
        whole.1[i]? = some (result (Document.readResolved config doc g .empty h (start (index + i)))) ∧
        p.registry.Extends whole.2 := by
  induction docs generalizing index registry i with
  | nil => cases hd
  | cons first docs ih =>
    cases i with
    | zero =>
      obtain rfl := Option.some.inj hd
      refine ⟨registry, rfl, rfl, ?_⟩
      rw [registry_part, readFrom_cons]
      exact extends_readFrom config h start (index + 1) _ docs
    | succ i =>
      obtain ⟨g, hpart, hresult, hg⟩ := ih
        (Document.readResolved config first registry .empty h (start index)).registry (index + 1) hd
      rw [Nat.add_right_comm, Nat.add_assoc] at hpart hresult hg
      exact ⟨g, hpart, hresult, hg⟩

/-- A package leaves a registry that has its URIs where they were, and behind them those that are
new, each once and in the order in which the documents need them first: what their elements bind,
and the URI of `xml` where that is not bound. Which documents fail makes no difference but for the
events that are not taken; of a document that does not fail all are. So an id stands for the same URI
in all of them, and for the URI that it has in the registry in the end. -/
theorem registry_read (config : Config) (h : Handler σ NsEvent) (start : Nat → σ)
    (registry : Registry) (docs : List Bytes) :
    let whole := read config h start registry docs
    let parts := parts config h start 0 registry docs
    let used := parts.flatMap fun part => Env.used .empty {} part.taken
    whole.2.catalogue.uris =
        registry.catalogue.uris ++ (used.removeAll registry.catalogue.uris).eraseDups ∧
      (∀ part ∈ parts,
        (∃ n, Forwarded whole.2 .empty {} (part.taken.take n) part.forwarded) ∧
        ∀ b ∈ part.forwarded, ∀ ns, b.ns? = some ns → ns = .unknown ∨
          ∃ uri, part.registry.uri? ns = some uri ∧ whole.2.uri? ns = some uri) ∧
      parts.length = docs.length ∧ ∀ (i : Nat) (doc : Bytes), docs[i]? = some doc →
        ∃ part entry, parts[i]? = some part ∧ whole.1[i]? = some entry ∧
          part.taken <+: (Document.trace config doc).events ∧
          ∀ s, entry = .ok s → part.taken = (Document.trace config doc).events := by
  intro whole parts used
  have hlength : parts.length = docs.length := length_parts ..
  refine ⟨?uris, ?ids, hlength, ?taken⟩
  case uris =>
    have hregistry : whole.2 = registry.internAll used := registry_readFrom ..
    have hnil : [] ∉ used := by
      simp only [used, List.mem_flatMap, not_exists, not_and]
      exact fun part _ => Env.nil_notMem_used {} part.taken
    rw [hregistry, Registry.uris_internAll registry hnil]
  case ids =>
    intro part hpart
    obtain ⟨i, hi⟩ := List.mem_iff_getElem?.1 hpart
    obtain ⟨doc, hdoc⟩ : ∃ doc, docs[i]? = some doc :=
      ⟨_, List.getElem?_eq_getElem (hlength ▸ (List.getElem?_eq_some_iff.1 hi).1)⟩
    obtain ⟨g, hg, -, hextends⟩ := exists_part config doc registry h start 0 docs hdoc
    obtain rfl := Option.some.inj (hi.symm.trans hg)
    obtain ⟨n, hforwarded⟩ := forwarded_part config doc g h (start (0 + i))
    refine ⟨⟨n, hforwarded.mono hextends⟩, fun b hb ns hns => ?_⟩
    obtain hunknown | ⟨uri, -, huri⟩ := hforwarded.issued (Scope.issued_empty _) hb hns
    · exact .inl hunknown
    · exact .inr ⟨uri, huri, hextends ns uri huri⟩
  case taken =>
    intro i doc hdoc
    obtain ⟨g, hpart, hentry, -⟩ := exists_part config doc registry h start 0 docs hdoc
    obtain ⟨htaken, hall⟩ := taken_part config doc g h (start (0 + i))
    refine ⟨_, _, hpart, hentry, htaken, fun s hs => hall ?_⟩
    unfold result at hs
    split at hs
    · assumption
    · cases hs

/-- Behind an end tag that names the wrong element through `xml`, and with `xml` bound. -/
example :
    let docs := [utf8 "<a xmlns=\"u\"></xml:a>", utf8 "<b xmlns:xml=\"v\"><xml:c xmlns=\"u\"/></b>"]
    let whole := read .lenient Handler.keeping (fun _ => []) (.ofPredefined .shared [utf8 "z"]) docs
    whole.2.catalogue.uris = [utf8 "z", utf8 "u", Registry.xmlUri, utf8 "v"] := by
  decide +kernel

end Package
end XmlStream
