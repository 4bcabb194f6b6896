import XmlStream.Proofs.Namespace.Filtering
import XmlStream.Package
/-! Renumbering. Which ids a registry has given away before a reading makes no difference to it: an
id is only ever compared with another of the same registry, and two ids of a registry are the same
when their URIs are. So two readings of a document over different registries run side by side. -/
namespace XmlStream
open List (Forall₂)

namespace Registry

theorem uri?_injective {g : Registry} {a b : NsId} {uri : Bytes} (ha : g.uri? a = some uri)
    (hb : g.uri? b = some uri) : a = b := by
  cases a with
  | unknown => cases ha
  | numbered i =>
    cases b with
    | unknown => cases hb
    | numbered j =>
      have hij : some i = some j :=
        (Catalogue.find?_eq_some_iff.2 ha).symm.trans (Catalogue.find?_eq_some_iff.2 hb)
      cases hij
      rfl

/-- A registry knows the ids that have a URI. -/
theorem known_of_uri? {g : Registry} {a : NsId} {uri : Bytes} (ha : g.uri? a = some uri) :
    g.known a = a := by
  cases a with
  | unknown => cases ha
  | numbered i =>
    have hi : i < g.size := (List.getElem?_eq_some_iff.1 ha).1
    simp [known, index?, NsId.index?, Option.filter, hi]

end Registry

/-- Ids of two registries that have the same URI, or both none at all. -/
inductive SameUri (g g' : Registry) : NsId → NsId → Prop
  | unknown : SameUri g g' .unknown .unknown
  | known {a a' uri} : g.uri? a = some uri → g'.uri? a' = some uri → SameUri g g' a a'

namespace SameUri

variable {g g' G G' : Registry} {a a' b b' : NsId}

theorem mono (hg : g.Extends G) (hg' : g'.Extends G') (h : SameUri g g' a a') :
    SameUri G G' a a' := by
  cases h with
  | unknown => exact .unknown
  | known ha ha' => exact .known (hg _ _ ha) (hg' _ _ ha')

theorem uri?_eq (h : SameUri g g' a a') : g.uri? a = g'.uri? a' := by
  cases h with
  | unknown => rfl
  | known ha ha' => rw [ha, ha']

/-- Only whether ids are equal is ever asked about them, and the answers are the same. -/
theorem eq_iff (ha : SameUri g g' a a') (hb : SameUri g g' b b') : a = b ↔ a' = b' := by
  cases ha with
  | unknown =>
    cases hb with
    | unknown => exact Iff.rfl
    | known hb hb' => constructor <;> rintro rfl <;> contradiction
  | known ha ha' =>
    cases hb with
    | unknown => constructor <;> rintro rfl <;> contradiction
    | known hb hb' =>
      constructor
      · rintro rfl
        obtain rfl := Option.some.inj (ha.symm.trans hb)
        exact Registry.uri?_injective ha' hb'
      · rintro rfl
        obtain rfl := Option.some.inj (ha'.symm.trans hb')
        exact Registry.uri?_injective ha hb

theorem shown (h : SameUri g g' a a') : SameUri g g' (g.known a) (g'.known a') := by
  cases h with
  | unknown => exact .unknown
  | known ha ha' =>
    rw [Registry.known_of_uri? ha, Registry.known_of_uri? ha']
    exact .known ha ha'

theorem intern (r r' : Registry) (uri : Bytes) :
    SameUri (r.intern uri).1 (r'.intern uri).1 (r.intern uri).2 (r'.intern uri).2 := by
  have h := (r.intern_spec uri).2
  have h' := (r'.intern_spec uri).2
  by_cases hu : uri = []
  · simp only [Lexical.Meaning.Names, hu, if_true] at h h' ⊢
    rw [h, h']
    exact .unknown
  · simp only [Lexical.Meaning.Names, hu, if_false] at h h'
    exact .known h h'

end SameUri

namespace NsEvent

def ns? : NsEvent → Option NsId
  | attr ns _ _ | startElement ns _ _ | endElement ns _ _ => some ns
  | _ => none

def atUris (g : Registry) (b : NsEvent) : Event × Option (Option Bytes) :=
  (b.toEvent, b.ns?.map g.uri?)

end NsEvent

inductive SameEvent (g g' : Registry) : NsEvent → NsEvent → Prop
  | same {b : NsEvent} : b.ns? = none → SameEvent g g' b b
  | attr {ns ns' name value} : SameUri g g' ns ns' →
      SameEvent g g' (.attr ns name value) (.attr ns' name value)
  | startElement {ns ns' name extent} : SameUri g g' ns ns' →
      SameEvent g g' (.startElement ns name extent) (.startElement ns' name extent)
  | endElement {ns ns' name extent} : SameUri g g' ns ns' →
      SameEvent g g' (.endElement ns name extent) (.endElement ns' name extent)

inductive SameError (g g' : Registry) : Error → Error → Prop
  | same (e : Error) : SameError g g' e e
  | duplicateAttribute {ns ns' name offset} : SameUri g g' ns ns' →
      SameError g g' (.malformed (.duplicateAttribute ns name) offset)
        (.malformed (.duplicateAttribute ns' name) offset)
  | mismatchedClose {ns ns' name other other' found offset} : SameUri g g' ns ns' →
      SameUri g g' other other' →
      SameError g g' (.malformed (.mismatchedClose ns name other found) offset)
        (.malformed (.mismatchedClose ns' name other' found) offset)

section
variable {g g' G G' : Registry}

theorem SameEvent.mono (hg : g.Extends G) (hg' : g'.Extends G') {b b' : NsEvent}
    (h : SameEvent g g' b b') : SameEvent G G' b b' := by
  cases h with
  | same hb => exact .same hb
  | attr hns => exact .attr (hns.mono hg hg')
  | startElement hns => exact .startElement (hns.mono hg hg')
  | endElement hns => exact .endElement (hns.mono hg hg')

theorem SameEvent.atUris_eq {b b' : NsEvent} (h : SameEvent g g' b b') :
    b.atUris g = b'.atUris g' := by
  cases h with
  | same hb => rw [NsEvent.atUris, NsEvent.atUris, hb, Option.map_none, Option.map_none]
  | attr hns | startElement hns | endElement hns =>
    simp only [NsEvent.atUris, NsEvent.toEvent, NsEvent.ns?, Option.map_some, hns.uri?_eq]

theorem SameError.mono (hg : g.Extends G) (hg' : g'.Extends G') {e e' : Error}
    (h : SameError g g' e e') : SameError G G' e e' := by
  cases h with
  | same => exact .same e
  | duplicateAttribute hns => exact .duplicateAttribute (hns.mono hg hg')
  | mismatchedClose hns hother => exact .mismatchedClose (hns.mono hg hg') (hother.mono hg hg')

end

namespace Resolver

def SameBinding (g g' : Registry) (b b' : Bytes × NsId) : Prop :=
  b.1 = b'.1 ∧ SameUri g g' b.2 b'.2

def SameFrame (g g' : Registry) (f f' : Frame) : Prop :=
  SameUri g g' f.ns f'.ns ∧ f.localName = f'.localName ∧ f.keysFrom = f'.keysFrom

def SameName (g g' : Registry) (a a' : NsId × Bytes) : Prop :=
  SameUri g g' a.1 a'.1 ∧ a.2 = a'.2

/-- Two resolvers that have been through the same events. -/
structure Twin (g g' : Registry) (r r' : Resolver) : Prop where
  bindings : Forall₂ (SameBinding g g') r.scope.bindings r'.scope.bindings
  frames : Forall₂ (SameFrame g g') r.frames r'.frames
  keys : r.keys = r'.keys
  pendingFrom : r.pendingFrom = r'.pendingFrom
  seen : Forall₂ (SameName g g') r.seen r'.seen
  inDeclaration : r.inDeclaration = r'.inDeclaration

variable {g g' : Registry} {r r' : Resolver}

inductive SamePassing (g g' : Registry) : Passing NsEvent → Passing NsEvent → Prop
  | deliver {b b'} : SameEvent g g' b b' → SamePassing g g' (.deliver b) (.deliver b')
  | absorb : SamePassing g g' .absorb .absorb
  | reject {e e'} : SameError g g' e e' → SamePassing g g' (.reject e) (.reject e')

theorem Twin.mono {G G' : Registry} (hg : g.Extends G) (hg' : g'.Extends G')
    (h : Twin g g' r r') : Twin G G' r r' :=
  ⟨h.bindings.imp fun _ _ hb => ⟨hb.1, hb.2.mono hg hg'⟩,
    h.frames.imp fun _ _ hf => ⟨hf.1.mono hg hg', hf.2⟩, h.keys, h.pendingFrom,
    h.seen.imp fun _ _ hs => ⟨hs.1.mono hg hg', hs.2⟩, h.inDeclaration⟩

/-- Before the first event, over scopes that bind nothing. -/
theorem Twin.start (g g' : Registry) :
    Twin g g' { registry := g, scope := .empty } { registry := g', scope := .empty } :=
  ⟨.nil, .nil, rfl, rfl, .nil, rfl⟩

theorem Twin.resolve (h : Twin r.registry r'.registry r r') (qualifier : Bytes) :
    ∃ registry registry' ns ns', r.resolve qualifier = ({ r with registry }, ns) ∧
      r'.resolve qualifier = ({ r' with registry := registry' }, ns') ∧
      Twin registry registry' { r with registry } { r' with registry := registry' } ∧
      SameUri registry registry' ns ns' := by
  have hgrown {registry registry' : Registry} (hg : r.registry.Extends registry)
      (hg' : r'.registry.Extends registry') :
      Twin registry registry' { r with registry } { r' with registry := registry' } := by
    have h := h.mono hg hg'
    exact ⟨h.bindings, h.frames, h.keys, h.pendingFrom, h.seen, h.inDeclaration⟩
  refine ⟨_, _, _, _, rfl, rfl, ?_⟩
  simp only [Scope.bound?_eq_lookup]
  obtain ⟨h₁, h₂⟩ | ⟨a, a', h₁, h₂, ha⟩ := Scope.lookup_forall₂
    (R := SameUri r.registry r'.registry) h.bindings qualifier
  · rw [h₁, h₂]
    by_cases hx : qualifier = utf8 "xml"
    · simp only [hx, if_true]
      obtain ⟨hg, -⟩ := r.registry.intern_spec Registry.xmlUri
      obtain ⟨hg', -⟩ := r'.registry.intern_spec Registry.xmlUri
      exact ⟨hgrown hg hg', .intern _ _ _⟩
    · simp only [hx, if_false]
      exact ⟨hgrown (.refl _) (.refl _), .unknown⟩
  · rw [h₁, h₂]
    exact ⟨hgrown (.refl _) (.refl _), ha⟩

structure SameStep (out out' : Resolver × Passing NsEvent) : Prop where
  twin : Twin out.1.registry out'.1.registry out.1 out'.1
  passing : SamePassing out.1.registry out'.1.registry out.2 out'.2

theorem Twin.declare (h : Twin r.registry r'.registry r r') (key uri : Bytes) :
    SameStep (r.declare key uri, .absorb) (r'.declare key uri, .absorb) := by
  obtain ⟨hg, -⟩ := r.registry.intern_spec uri
  obtain ⟨hg', -⟩ := r'.registry.intern_spec uri
  have h := h.mono hg hg'
  have hkeys : r.keys ++ [key] = r'.keys ++ [key] := by rw [h.keys]
  exact ⟨{ h with bindings := .cons ⟨rfl, .intern _ _ uri⟩ h.bindings, keys := hkeys }, .absorb⟩

theorem unbind_twins {s s' : Scope}
    (h : Forall₂ (SameBinding g g') s.bindings s'.bindings) (key : Bytes) :
    Forall₂ (SameBinding g g') (s.unbind key).bindings (s'.unbind key).bindings := by
  obtain ⟨bs, seen⟩ := s
  obtain ⟨bs', seen'⟩ := s'
  simp only [Scope.unbind] at h ⊢
  induction h with
  | nil => exact .nil
  | @cons b b' bs bs' hb hbs ih =>
    rw [List.eraseP_cons, List.eraseP_cons, ← hb.1]
    cases b.1 == key with
    | true => exact hbs
    | false => exact .cons hb ih

theorem Twin.release (h : Twin g g' r r') (n : Nat) : Twin g g' (r.release n) (r'.release n) := by
  have key (keys : List Bytes) {s s' : Scope}
      (hb : Forall₂ (SameBinding g g') s.bindings s'.bindings) : Forall₂ (SameBinding g g')
        (keys.foldl Scope.unbind s).bindings (keys.foldl Scope.unbind s').bindings := by
    induction keys generalizing s s' with
    | nil => exact hb
    | cons k keys ih => exact ih (unbind_twins hb k)
  have hkeys := h.keys
  refine ⟨?_, h.frames, ?_, ?_, h.seen, h.inDeclaration⟩
  · simp only [Resolver.release, hkeys]
    exact key _ h.bindings
  · simp only [Resolver.release, hkeys]
  · simp only [Resolver.release, hkeys]

theorem mem_twins {bs bs' : List (NsId × Bytes)} {a a' : NsId}
    (h : Forall₂ (SameName g g') bs bs') (ha : SameUri g g' a a') (name : Bytes) :
    (a, name) ∈ bs ↔ (a', name) ∈ bs' := by
  induction h with
  | nil => exact iff_of_false List.not_mem_nil List.not_mem_nil
  | cons hb _ ih =>
    rw [List.mem_cons, List.mem_cons, ih, Prod.ext_iff, Prod.ext_iff, ha.eq_iff hb.1, hb.2]

theorem Twin.attr (h : Twin r.registry r'.registry r r') (name : QName) (value : Span) :
    SameStep (r.attr name value) (r'.attr name value) := by
  unfold Resolver.attr
  rw [h.inDeclaration]
  by_cases hd : r'.inDeclaration
  · rw [if_pos hd, if_pos hd]
    exact ⟨h, .deliver (.same rfl)⟩
  rw [if_neg hd, if_neg hd]
  by_cases hx : name.qualifier = [] ∧ name.localName = xmlns
  · rw [if_pos hx, if_pos hx]
    exact h.declare [] value.bytes
  rw [if_neg hx, if_neg hx]
  by_cases hq : name.qualifier = xmlns
  · rw [if_pos hq, if_pos hq]
    exact h.declare name.localName value.bytes
  rw [if_neg hq, if_neg hq]
  obtain ⟨registry, registry', ns, ns', hr, hr', h, hns⟩ := h.resolve name.qualifier
  have hmem := mem_twins h.seen hns name.localName
  simp only [hr, hr']
  by_cases hs : (ns, name.localName) ∈ r.seen
  · rw [if_pos hs, if_pos (hmem.1 hs)]
    exact ⟨h, .reject (.duplicateAttribute hns.shown)⟩
  · rw [if_neg hs, if_neg fun hs' => hs (hmem.2 hs')]
    exact ⟨{ h with seen := .cons ⟨hns, rfl⟩ h.seen }, .deliver (.attr hns)⟩

theorem Twin.startElement (h : Twin r.registry r'.registry r r') (name : QName) (extent : Extent) :
    SameStep (r.startElement name extent) (r'.startElement name extent) := by
  obtain ⟨registry, registry', ns, ns', hr, hr', h, hns⟩ := h.resolve name.qualifier
  have hlength : r.keys.length = r'.keys.length := congrArg List.length h.keys
  simp only [Resolver.startElement, hr, hr']
  refine ⟨{ h with frames := .cons ?_ h.frames, pendingFrom := hlength, seen := .nil }, ?_⟩
  · exact ⟨hns, rfl, h.pendingFrom⟩
  · exact .deliver (.startElement hns)

theorem Twin.endElement (h : Twin r.registry r'.registry r r') (name : QName) (extent : Extent) :
    SameStep (r.endElement name extent) (r'.endElement name extent) := by
  obtain ⟨registry, registry', ns, ns', hr, hr', h, hns⟩ := h.resolve name.qualifier
  have hframes : Forall₂ (SameFrame registry registry') r.frames r'.frames := h.frames
  simp only [Resolver.endElement, hr, hr']
  generalize r.frames = fs, r'.frames = fs' at hframes
  cases hframes with
  | nil => exact ⟨{ h with frames := .nil }, .reject (.same _)⟩
  | @cons frame frame' fs fs' hf hfs =>
    obtain ⟨hframe, hname, hfrom⟩ := hf
    have hsame : frame.ns = ns ∧ frame.localName = name.localName ↔
        frame'.ns = ns' ∧ frame'.localName = name.localName := by
      rw [hframe.eq_iff hns, hname]
    have h : Twin registry registry' { r with registry, frames := fs }
        { r' with registry := registry', frames := fs' } :=
      { h with frames := hfs }
    by_cases hm : frame.ns = ns ∧ frame.localName = name.localName
    · simp only [if_pos hm, if_pos (hsame.1 hm)]
      rw [hfrom]
      exact ⟨h.release _, .deliver (.endElement hns)⟩
    · simp only [if_neg hm, if_neg fun hm' => hm (hsame.2 hm')]
      rw [hname]
      exact ⟨h, .reject (.mismatchedClose hframe.shown hns.shown)⟩

theorem Twin.step (h : Twin r.registry r'.registry r r') (e : Event) :
    SameStep (r.step e) (r'.step e) := by
  cases e with
  | doctype | characters => exact ⟨h, .deliver (.same rfl)⟩
  | startDeclaration | endDeclaration =>
    exact ⟨{ h with inDeclaration := rfl }, .deliver (.same rfl)⟩
  | attr name value => exact h.attr name value
  | startElement name extent => exact h.startElement name extent
  | endElement name extent => exact h.endElement name extent

theorem extends_resolve (r : Resolver) (qualifier : Bytes) :
    r.registry.Extends (r.resolve qualifier).1.registry := by
  simp only [Resolver.resolve, Scope.resolve]
  split
  · exact .refl _
  · split
    · exact (r.registry.intern_spec _).1
    · exact .refl _

theorem extends_declare (r : Resolver) (key uri : Bytes) :
    r.registry.Extends (r.declare key uri).registry :=
  (r.registry.intern_spec uri).1

theorem extends_step (r : Resolver) (e : Event) : r.registry.Extends (r.step e).1.registry := by
  cases e with
  | doctype | characters | startDeclaration | endDeclaration => exact .refl _
  | startElement name extent => exact r.extends_resolve name.qualifier
  | attr name value =>
    simp only [Resolver.step, Resolver.attr]
    split
    · exact .refl _
    · split
      · exact r.extends_declare [] value.bytes
      · split
        · exact r.extends_declare name.localName value.bytes
        · split <;> exact r.extends_resolve name.qualifier
  | endElement name extent =>
    simp only [Resolver.step, Resolver.endElement]
    split
    · exact r.extends_resolve name.qualifier
    · split <;> exact r.extends_resolve name.qualifier

theorem extends_feed {σ : Type} (h : Handler σ NsEvent) (r : Resolver) (s : σ) (es : List Event) :
    r.registry.Extends (Handler.feed (Stage.before step h) (r, s) es).1.1.registry :=
  Stage.feed_before_invariant (I := fun r' : Resolver => r.registry.Extends r'.registry)
    (fun r' e hr => hr.trans (r'.extends_step e)) h es (.refl _) s

/-- What the first step interns stays. -/
theorem extends_feed_cons {σ : Type} (h : Handler σ NsEvent) (r : Resolver) (s : σ) (e : Event)
    (es : List Event) : (r.step e).1.registry.Extends
      (Handler.feed (Stage.before step h) (r, s) (e :: es)).1.1.registry := by
  rcases hs : r.step e with ⟨r', b | _ | error⟩
  · simp only [Handler.feed, Stage.before_deliver hs]
    rcases h s b with ⟨s', _ | error⟩
    · exact extends_feed h r' s' es
    · exact .refl _
  · simp only [Handler.feed, Stage.before_absorb hs]
    exact extends_feed h r' s es
  · simp only [Handler.feed, Stage.before_reject hs]
    exact .refl _

end Resolver

/-- Handlers that cannot tell the numbers of ids: from related states, the same event takes them to
related states, or stops them with the same error. -/
def Parallel {σ τ : Type} (g g' : Registry) (h : Handler σ NsEvent) (k : Handler τ NsEvent)
    (S : σ → τ → Prop) : Prop :=
  ∀ s t b b', S s t → SameEvent g g' b b' →
    S (h s b).1 (k t b').1 ∧ Option.Rel (SameError g g') (h s b).2 (k t b').2

variable {σ τ : Type} {g g' : Registry} {h : Handler σ NsEvent} {k : Handler τ NsEvent}
  {S : σ → τ → Prop}

theorem Parallel.recording (hp : Parallel g g' h k S) :
    Parallel g g' (Handler.recording h) (Handler.recording k) fun s t =>
      s.1.map (NsEvent.atUris g) = t.1.map (NsEvent.atUris g') ∧ S s.2 t.2 := by
  rintro ⟨seen, s⟩ ⟨seen', t⟩ b b' ⟨hseen, hs⟩ hb
  obtain ⟨hs', he⟩ := hp s t b b' hs hb
  refine ⟨⟨?_, hs'⟩, he⟩
  simp only [Handler.recording, List.map_append, hseen, List.map_cons, List.map_nil,
    hb.atUris_eq]

/-- Resolvers side by side, each before a handler, up to where either stops. The registries to read
the ids with are any that the two readings do not outgrow. -/
theorem Resolver.Twin.feed {r r' : Resolver} (ht : Twin r.registry r'.registry r r')
    (hp : Parallel g g' h k S) {s : σ} {t : τ} (hs : S s t) (es : List Event)
    (hg : (Handler.feed (Stage.before Resolver.step h) (r, s) es).1.1.registry.Extends g)
    (hg' : (Handler.feed (Stage.before Resolver.step k) (r', t) es).1.1.registry.Extends g') :
    let out := Handler.feed (Stage.before Resolver.step h) (r, s) es
    let out' := Handler.feed (Stage.before Resolver.step k) (r', t) es
    S out.1.2 out'.1.2 ∧ Option.Rel (SameError g g') out.2 out'.2 := by
  induction es generalizing r r' s t with
  | nil => exact ⟨hs, .none⟩
  | cons e es ih =>
    have hr := (r.extends_feed_cons h s e es).trans hg
    have hr' := (r'.extends_feed_cons k t e es).trans hg'
    obtain ⟨htwin, hpassing⟩ := ht.step e
    generalize hstep : r.step e = out, hstep' : r'.step e = out' at hr hr' htwin hpassing
    obtain ⟨r₁, passing⟩ := out
    obtain ⟨r₁', passing'⟩ := out'
    cases hpassing with
    | @deliver b b' hb =>
      obtain ⟨hs', he⟩ := hp s t b b' hs (hb.mono hr hr')
      simp only [Handler.feed, Stage.before_deliver hstep, Stage.before_deliver hstep'] at hg hg' ⊢
      generalize h s b = fed, k t b' = fed' at hg hg' hs' he ⊢
      obtain ⟨s', error⟩ := fed
      obtain ⟨t', error'⟩ := fed'
      cases he with
      | none => exact ih htwin hs' hg hg'
      | some he => exact ⟨hs', .some he⟩
    | absorb =>
      simp only [Handler.feed, Stage.before_absorb hstep, Stage.before_absorb hstep'] at hg hg' ⊢
      exact ih htwin hs hg hg'
    | reject he =>
      simp only [Handler.feed, Stage.before_reject hstep, Stage.before_reject hstep']
      exact ⟨hs, .some (he.mono hr hr')⟩

/-- A document fails by itself where its handler does not stop it first. -/
theorem rel_or {a a' : Option Error} (h : Option.Rel (SameError g g') a a') (e : Option Error) :
    Option.Rel (SameError g g') (a.or e) (a'.or e) := by
  cases h with
  | some he => exact .some he
  | none =>
    cases e with
    | none => exact .none
    | some e => exact .some (.same e)

theorem Document.readResolved_parallel (hp : Parallel g g' h k S) {s : σ} {t : τ} (hs : S s t)
    {config : Config} {doc : Bytes} {r r' : Registry}
    (hg : (readResolved config doc r .empty h s).registry.Extends g)
    (hg' : (readResolved config doc r' .empty k t).registry.Extends g') :
    let one := readResolved config doc r .empty h s
    let other := readResolved config doc r' .empty k t
    S one.state other.state ∧ Option.Rel (SameError g g') one.error other.error := by
  simp only [readResolved_eq] at hg hg' ⊢
  obtain ⟨hstate, herror⟩ := (Resolver.Twin.start r r').feed hp hs (trace config doc).events hg hg'
  exact ⟨hstate, rel_or herror _⟩

namespace Package

variable {config : Config} {start : Nat → σ}

def result (r : Resolution σ) : Except Error σ :=
  match r.error with
  | none => .ok r.state
  | some e => .error e

inductive SameResult (g g' : Registry) (S : σ → τ → Prop) : Except Error σ → Except Error τ → Prop
  | ok {s t} : S s t → SameResult g g' S (.ok s) (.ok t)
  | error {e e'} : SameError g g' e e' → SameResult g g' S (.error e) (.error e')

theorem readFrom_cons (config : Config) (h : Handler σ NsEvent) (start : Nat → σ) (index : Nat)
    (r : Registry) (doc : Bytes) (docs : List Bytes) :
    let reading := Document.readResolved config doc r .empty h (start index)
    let rest := readFrom config h start (index + 1) reading.registry docs
    readFrom config h start index r (doc :: docs) = (result reading :: rest.1, rest.2) := rfl

theorem extends_readResolved (config : Config) (doc : Bytes) (r : Registry) (scope : Scope)
    (h : Handler σ NsEvent) (s : σ) :
    r.Extends (Document.readResolved config doc r scope h s).registry := by
  rw [Document.readResolved_eq]
  exact Resolver.extends_feed h { registry := r, scope } s _

theorem extends_readFrom (config : Config) (h : Handler σ NsEvent) (start : Nat → σ) (index : Nat)
    (r : Registry) (docs : List Bytes) :
    r.Extends (readFrom config h start index r docs).2 := by
  induction docs generalizing index r with
  | nil => exact .refl r
  | cons doc docs ih => exact (extends_readResolved config doc r .empty h _).trans (ih _ _)

theorem length_readFrom (config : Config) (h : Handler σ NsEvent) (start : Nat → σ) (index : Nat)
    (r : Registry) (docs : List Bytes) :
    (readFrom config h start index r docs).1.length = docs.length := by
  induction docs generalizing index r with
  | nil => rfl
  | cons doc docs ih =>
    rw [readFrom_cons, List.length_cons, List.length_cons, ih]

/-- Each document is read over what those before it have left of the registry. -/
theorem exists_readFrom (config : Config) (h : Handler σ NsEvent) (start : Nat → σ) (index : Nat)
    (r : Registry) {docs : List Bytes} {i : Nat} {doc : Bytes} (hd : docs[i]? = some doc) :
    let whole := readFrom config h start index r docs
    ∃ g, let reading := Document.readResolved config doc g .empty h (start (index + i))
      whole.1[i]? = some (result reading) ∧ reading.registry.Extends whole.2 := by
  induction docs generalizing index r i with
  | nil => cases hd
  | cons first docs ih =>
    cases i with
    | zero =>
      obtain rfl := Option.some.inj hd
      exact ⟨r, rfl, extends_readFrom config h start (index + 1) _ docs⟩
    | succ i =>
      obtain ⟨g, hresult, hg⟩ := ih (index + 1)
        (Document.readResolved config first r .empty h (start index)).registry hd
      rw [Nat.add_right_comm, Nat.add_assoc] at hresult hg
      exact ⟨g, hresult, hg⟩

theorem SameResult.of_reading {one : Resolution σ} {other : Resolution τ}
    (hs : S one.state other.state) (he : Option.Rel (SameError g g') one.error other.error) :
    SameResult g g' S (result one) (result other) := by
  obtain ⟨s, error, registry, scope⟩ := one
  obtain ⟨t, error', registry', scope'⟩ := other
  cases he with
  | none => exact .ok hs
  | some he => exact .error he

/-- Which registry a document is read over makes no difference but for the numbers of the ids: over
any two, handlers that cannot tell them apart are handed events with the same URIs and end alike. So
in a package, which answers for each document in its place, each is read as it is alone over any
registry, whatever comes before it and however that ends. -/
theorem read_noninterference (config : Config) (h : Handler σ NsEvent) (k : Handler τ NsEvent)
    (S : σ → τ → Prop) :
    (∀ (doc : Bytes) (r r' : Registry) (s : σ) (t : τ), S s t →
      let one := Document.readResolved config doc r .empty (Handler.recording h) ([], s)
      let other := Document.readResolved config doc r' .empty (Handler.recording k) ([], t)
      Parallel one.registry other.registry h k S →
        one.state.1.map (NsEvent.atUris one.registry) =
          other.state.1.map (NsEvent.atUris other.registry) ∧
        S one.state.2 other.state.2 ∧
        Option.Rel (SameError one.registry other.registry) one.error other.error) ∧
    ∀ (docs : List Bytes) (start : Nat → σ) (r : Registry),
      let whole := read config h start r docs
      whole.1.length = docs.length ∧
      ∀ (i : Nat) (doc : Bytes) (r' : Registry) (t : τ), docs[i]? = some doc → S (start i) t →
        let alone := read config k (fun _ => t) r' [doc]
        Parallel whole.2 alone.2 h k S →
          ∃ entry entry', whole.1[i]? = some entry ∧ alone.1 = [entry'] ∧
            SameResult whole.2 alone.2 S entry entry' := by
  constructor
  · intro doc r r' s t hs one other hp
    obtain ⟨⟨hevents, hstates⟩, herror⟩ :=
      Document.readResolved_parallel hp.recording ⟨rfl, hs⟩ (.refl _) (.refl _)
    exact ⟨hevents, hstates, herror⟩
  · intro docs start r whole
    refine ⟨length_readFrom config h start 0 r docs, ?_⟩
    intro i doc r' t hd hs alone hp
    obtain ⟨g, hentry, hg⟩ := exists_readFrom config h start 0 r hd
    rw [Nat.zero_add] at hentry hg
    obtain ⟨hstates, herror⟩ := Document.readResolved_parallel hp hs hg (.refl _)
    exact ⟨_, _, hentry, rfl, .of_reading hstates herror⟩

/-- The same document over a registry that has its URI from before and over one that has another,
and behind a document that fails. -/
theorem read_noninterference_numbered :
    let doc := utf8 "<a xmlns=\"u\"/>"
    let told (n : Nat) : List NsEvent := [.startElement (.numbered n) ⟨[], utf8 "a"⟩ ⟨0, 14⟩,
      .endElement (.numbered n) ⟨[], utf8 "a"⟩ ⟨0, 14⟩]
    let one := Document.readResolved .lenient doc (.ofPredefined .exclusive [utf8 "z"]) .empty
      (Handler.recording Handler.keeping) ([], [])
    let other := Document.readResolved .lenient doc (.ofPredefined .shared [utf8 "u"]) .empty
      (Handler.recording Handler.keeping) ([], [])
    let whole := read .lenient Handler.keeping (fun _ => []) {} [utf8 "<b xmlns=\"z\">", doc]
    let alone := read .lenient Handler.keeping (fun _ => []) {} [doc]
    one.state.1 = told 1 ∧ other.state.1 = told 0 ∧
      (told 1).map (NsEvent.atUris one.registry) = (told 0).map (NsEvent.atUris other.registry) ∧
      whole.1[1]? = some (.ok (told 1)) ∧ alone.1 = [.ok (told 0)] ∧
      (told 1).map (NsEvent.atUris whole.2) = (told 0).map (NsEvent.atUris alone.2) := by
  intro doc told one other whole alone
  let S (g g' : Registry) (seen seen' : List NsEvent) : Prop :=
    seen.map (NsEvent.atUris g) = seen'.map (NsEvent.atUris g')
  have hkeep (g g' : Registry) : Parallel g g' Handler.keeping Handler.keeping (S g g') := by
    intro seen seen' b b' hseen hb
    refine ⟨?_, .none⟩
    simp only [S] at hseen
    simp only [Handler.keeping, S, List.map_append, hseen, List.map_cons, List.map_nil,
      hb.atUris_eq]
  have hone : one.state.1 = told 1 := by decide +kernel
  have hother : other.state.1 = told 0 := by decide +kernel
  have hwhole : whole.1[1]? = some (.ok (told 1)) := by decide +kernel
  have halone : alone.1 = [.ok (told 0)] := by decide +kernel
  obtain ⟨hevents, -, -⟩ := (read_noninterference .lenient Handler.keeping Handler.keeping
    (S one.registry other.registry)).1 doc (.ofPredefined .exclusive [utf8 "z"])
    (.ofPredefined .shared [utf8 "u"]) [] [] rfl (hkeep _ _)
  obtain ⟨entry, entry', hentry, hentry', hsame⟩ := ((read_noninterference .lenient
    Handler.keeping Handler.keeping (S whole.2 alone.2)).2 [utf8 "<b xmlns=\"z\">", doc]
    (fun _ => []) {}).2 1 doc {} [] rfl rfl (hkeep _ _)
  obtain rfl := Option.some.inj (hwhole.symm.trans hentry)
  obtain ⟨rfl, -⟩ := List.cons.inj (halone.symm.trans hentry')
  cases hsame with
  | ok hstates =>
    refine ⟨hone, hother, ?_, hwhole, halone, hstates⟩
    rw [← hone, ← hother]
    exact hevents

end Package
end XmlStream
