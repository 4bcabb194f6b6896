import XmlStream.Proofs.Namespace.Renumbering
/-! Growing registries. A reading that is done again over a registry that has grown in the meantime
gives names the ids that it gave them before, if the registry has grown by nothing else than what
that reading has it intern: then the URIs that are still to come are the next ones in both. -/
namespace XmlStream

namespace Registry

theorem extends_iff {r r' : Registry} :
    r.Extends r' ↔ r.catalogue.uris <+: r'.catalogue.uris := by
  rw [List.prefix_iff_getElem?]
  constructor
  · intro h i hi
    exact h (.numbered i) _ (List.getElem?_eq_getElem hi)
  · rintro h (_ | i) uri hu
    · cases hu
    · obtain ⟨hi, rfl⟩ := List.getElem?_eq_some_iff.1 hu
      exact h i hi

/-- Two registries that extend one another have the same URIs under the same ids. -/
theorem uris_eq_of_extends {r g : Registry} (h : r.Extends g) (h' : g.Extends r) :
    g.catalogue.uris = r.catalogue.uris :=
  (extends_iff.1 h').eq_of_length_le (extends_iff.1 h).length_le

theorem known_eq_of_extends {r g : Registry} (h : r.Extends g) (h' : g.Extends r) (id : NsId) :
    g.known id = r.known id := by
  have hsize : g.size = r.size := congrArg List.length (uris_eq_of_extends h h')
  rw [known, known, index?, index?, hsize]

theorem find?_eq_none_iff {r : Registry} {uri : Bytes} :
    r.catalogue.find? uri = none ↔ uri ∉ r.catalogue.uris := by
  simp [Catalogue.find?]

theorem uris_insert (r : Registry) (uri : Bytes) : (r.insert uri).1.catalogue.uris =
    if uri ∈ r.catalogue.uris then r.catalogue.uris else r.catalogue.uris ++ [uri] := by
  cases h : r.catalogue.find? uri with
  | some index =>
    rw [insert, Catalogue.insert_of_find? h, if_pos]
    exact List.mem_of_getElem? (Catalogue.find?_eq_some_iff.1 h)
  | none => rw [insert, (Catalogue.uris_insert_of_find? h).1, if_neg (find?_eq_none_iff.1 h)]

theorem uris_intern (r : Registry) {uri : Bytes} (hu : uri ≠ []) :
    (r.intern uri).1.catalogue.uris =
      if uri ∈ r.catalogue.uris then r.catalogue.uris else r.catalogue.uris ++ [uri] := by
  simp only [intern, List.isEmpty_iff, hu, if_false]
  cases r.sharing with
  | exclusive => exact r.uris_insert uri
  | shared =>
    cases h : r.catalogue.find? uri with
    | none => exact r.uris_insert uri
    | some index => rw [if_pos (List.mem_of_getElem? (Catalogue.find?_eq_some_iff.1 h))]

end Registry

theorem SameUri.eq {g g' : Registry} (hg : g.Extends g') {a a' : NsId} (h : SameUri g g' a a') :
    a = a' := by
  cases h with
  | unknown => rfl
  | known ha ha' => exact Registry.uri?_injective (hg _ _ ha) ha'

namespace Registry

/-- A registry between one and what that is to become stays between, when both intern a URI. -/
theorem Extends.intern {r g G : Registry} (hrg : r.Extends g) (hg : g.Extends G) (uri : Bytes)
    (hG : (r.intern uri).1.Extends G) :
    (r.intern uri).1.Extends (g.intern uri).1 ∧ (g.intern uri).1.Extends G := by
  by_cases hu : uri = []
  · subst hu
    exact ⟨hrg, hg⟩
  rw [extends_iff] at hrg hg hG ⊢
  rw [extends_iff]
  rw [uris_intern r hu] at hG ⊢
  rw [uris_intern g hu]
  generalize r.catalogue.uris = us, g.catalogue.uris = vs, G.catalogue.uris = ws at hrg hg hG
  by_cases hold : uri ∈ us
  · rw [if_pos hold, if_pos (hrg.subset hold)]
    exact ⟨hrg, hg⟩
  rw [if_neg hold] at hG ⊢
  obtain hlonger | hlength := Nat.lt_or_ge us.length vs.length
  · -- the registry ahead has come past the place of the URI
    have hlength : (us ++ [uri]).length ≤ vs.length := by
      rw [List.length_append]
      exact hlonger
    have hnext := List.prefix_of_prefix_length_le hG hg hlength
    rw [if_pos (hnext.subset (by simp))]
    exact ⟨hnext, hg⟩
  · obtain rfl := hrg.eq_of_length_le hlength
    rw [if_neg hold]
    exact ⟨List.prefix_refl _, hG⟩

/-- Then both give the URI the same id. -/
theorem Extends.intern_eq {r g G : Registry} (hrg : r.Extends g) (hg : g.Extends G) (uri : Bytes)
    (hG : (r.intern uri).1.Extends G) : (g.intern uri).2 = (r.intern uri).2 :=
  ((SameUri.intern r g uri).eq (hrg.intern hg uri hG).1).symm

end Registry

namespace Resolver

variable {r r' : Resolver} {G : Registry}

def onto (r : Resolver) (g : Registry) (seen : List Nat) : Resolver :=
  { r with registry := g, scope := { r.scope with seen } }

inductive Ahead (G : Registry) (r : Resolver) : Resolver → Prop
  | onto (g : Registry) (seen : List Nat) : r.registry.Extends g → g.Extends G →
      Ahead G r (r.onto g seen)

theorem Ahead.uris_eq (h : Ahead r.registry r r') :
    r'.registry.catalogue.uris = r.registry.catalogue.uris := by
  obtain ⟨g, seen, hrg, hg⟩ := h
  exact Registry.uris_eq_of_extends hrg hg

/-- What becomes of an event that both take. The ids in an error are those that the registry knows,
which may be fewer as long as it is behind. -/
inductive Level (G g : Registry) : Passing NsEvent → Passing NsEvent → Prop
  | same (passing : Passing NsEvent) : Level G g passing passing
  | reject {e e' : Error} : (G.Extends g → e = e') → Level G g (.reject e) (.reject e')

theorem release_onto (r : Resolver) (g : Registry) (seen : List Nat) (n : Nat) :
    (r.onto g seen).release n = (r.release n).onto g seen := by
  have hfold : (r.keys.drop n).reverse.foldl Scope.unbind { r.scope with seen } =
      { (r.keys.drop n).reverse.foldl Scope.unbind r.scope with seen } :=
    List.foldl_hom (fun scope : Scope => { scope with seen }) fun _ _ => rfl
  simp only [Resolver.release, Resolver.onto, hfold]

theorem Ahead.resolve (h : Ahead G r r') (qualifier : Bytes)
    (hend : (r.resolve qualifier).1.registry.Extends G) :
    Ahead G (r.resolve qualifier).1 (r'.resolve qualifier).1 ∧
      (r'.resolve qualifier).2 = (r.resolve qualifier).2 := by
  obtain ⟨g, seen, hrg, hg⟩ := h
  have hbound : (r.onto g seen).scope.bound? qualifier = r.scope.bound? qualifier := rfl
  simp only [Resolver.resolve, Scope.resolve, hbound] at hend ⊢
  cases hb : r.scope.bound? qualifier with
  | some id => exact ⟨.onto g seen hrg hg, rfl⟩
  | none =>
    simp only [hb] at hend
    by_cases hx : qualifier = utf8 "xml"
    · simp only [hx, if_true] at hend ⊢
      obtain ⟨hahead, hbehind⟩ := hrg.intern hg _ hend
      exact ⟨.onto _ seen hahead hbehind, hrg.intern_eq hg _ hend⟩
    · simp only [hx, if_false, and_true]
      exact .onto g seen hrg hg

theorem Ahead.declare (h : Ahead G r r') (key uri : Bytes)
    (hend : (r.declare key uri).registry.Extends G) :
    Ahead G (r.declare key uri) (r'.declare key uri) := by
  obtain ⟨g, seen, hrg, hg⟩ := h
  obtain ⟨hahead, hbehind⟩ := hrg.intern hg uri hend
  have hid : (g.intern uri).2 = (r.registry.intern uri).2 := hrg.intern_eq hg uri hend
  have hdeclare : (r.onto g seen).declare key uri = (r.declare key uri).onto (g.intern uri).1
      (({ r.scope with seen } : Scope).note (g.intern uri).2) := by
    simp only [Resolver.declare, Resolver.onto, Scope.push, Scope.bind, hid]
  rw [hdeclare]
  exact .onto _ _ hahead hbehind

structure Abreast (G : Registry) (out out' : Resolver × Passing NsEvent) : Prop where
  ahead : Ahead G out.1 out'.1
  level : Level G out.1.registry out.2 out'.2

theorem Ahead.attr (h : Ahead G r r') (name : QName) (value : Span)
    (hend : (r.attr name value).1.registry.Extends G) :
    Abreast G (r.attr name value) (r'.attr name value) := by
  have hdeclaration : r'.inDeclaration = r.inDeclaration := by
    cases h
    rfl
  unfold Resolver.attr at hend ⊢
  rw [hdeclaration]
  by_cases hd : r.inDeclaration
  · rw [if_pos hd, if_pos hd]
    exact ⟨h, .same _⟩
  rw [if_neg hd] at hend
  rw [if_neg hd, if_neg hd]
  by_cases hx : name.qualifier = [] ∧ name.localName = xmlns
  · rw [if_pos hx] at hend
    rw [if_pos hx, if_pos hx]
    exact ⟨h.declare [] value.bytes hend, .same _⟩
  rw [if_neg hx] at hend
  rw [if_neg hx, if_neg hx]
  by_cases hq : name.qualifier = xmlns
  · rw [if_pos hq] at hend
    rw [if_pos hq, if_pos hq]
    exact ⟨h.declare name.localName value.bytes hend, .same _⟩
  rw [if_neg hq] at hend
  rw [if_neg hq, if_neg hq]
  have hregistry : (r.resolve name.qualifier).1.registry.Extends G := by
    simp only at hend
    split at hend <;> exact hend
  obtain ⟨hahead, hns⟩ := h.resolve name.qualifier hregistry
  simp only [hns]
  generalize (r.resolve name.qualifier).1 = r₁, (r.resolve name.qualifier).2 = ns,
    (r'.resolve name.qualifier).1 = r₁' at hahead
  obtain ⟨g, seen, hrg, hg⟩ := hahead
  by_cases hs : (ns, name.localName) ∈ r₁.seen
  · have hs' : (ns, name.localName) ∈ (r₁.onto g seen).seen := hs
    rw [if_pos hs, if_pos hs']
    refine ⟨.onto g seen hrg hg, .reject fun hG => ?_⟩
    rw [← Registry.known_eq_of_extends hrg (hg.trans hG)]
    rfl
  · have hs' : (ns, name.localName) ∉ (r₁.onto g seen).seen := hs
    rw [if_neg hs, if_neg hs']
    exact ⟨.onto g seen hrg hg, .same _⟩

theorem Ahead.startElement (h : Ahead G r r') (name : QName) (extent : Extent)
    (hend : (r.startElement name extent).1.registry.Extends G) :
    Abreast G (r.startElement name extent) (r'.startElement name extent) := by
  obtain ⟨hahead, hns⟩ := h.resolve name.qualifier hend
  simp only [Resolver.startElement, hns]
  generalize (r.resolve name.qualifier).1 = r₁, (r'.resolve name.qualifier).1 = r₁' at hahead
  obtain ⟨g, seen, hrg, hg⟩ := hahead
  exact ⟨.onto g seen hrg hg, .same _⟩

theorem Ahead.endElement (h : Ahead G r r') (name : QName) (extent : Extent)
    (hend : (r.endElement name extent).1.registry.Extends G) :
    Abreast G (r.endElement name extent) (r'.endElement name extent) := by
  have hregistry : (r.resolve name.qualifier).1.registry.Extends G := by
    simp only [Resolver.endElement] at hend
    split at hend
    · exact hend
    · split at hend <;> exact hend
  obtain ⟨hahead, hns⟩ := h.resolve name.qualifier hregistry
  simp only [Resolver.endElement, hns]
  generalize (r.resolve name.qualifier).1 = r₁, (r.resolve name.qualifier).2 = ns,
    (r'.resolve name.qualifier).1 = r₁' at hahead
  obtain ⟨g, seen, hrg, hg⟩ := hahead
  have hframes : (r₁.onto g seen).frames = r₁.frames := rfl
  rw [hframes]
  cases r₁.frames with
  | nil => exact ⟨.onto g seen hrg hg, .same _⟩
  | cons frame frames =>
    by_cases hm : frame.ns = ns ∧ frame.localName = name.localName
    · simp only [if_pos hm]
      have hrelease := release_onto { r₁ with frames } g seen frame.keysFrom
      refine ⟨?_, .same _⟩
      exact hrelease ▸ .onto g seen hrg hg
    · simp only [if_neg hm]
      refine ⟨.onto g seen hrg hg, .reject fun hG => ?_⟩
      rw [← Registry.known_eq_of_extends hrg (hg.trans hG),
        ← Registry.known_eq_of_extends hrg (hg.trans hG)]
      rfl

/-- One step keeps them ahead and behind, if it takes the one behind no further than `G`. -/
theorem Ahead.step (h : Ahead G r r') (e : Event) (hend : (r.step e).1.registry.Extends G) :
    Abreast G (r.step e) (r'.step e) := by
  cases e with
  | doctype | characters => exact ⟨h, .same _⟩
  | startDeclaration | endDeclaration =>
    obtain ⟨g, seen, hrg, hg⟩ := h
    exact ⟨.onto g seen hrg hg, .same _⟩
  | attr name value => exact h.attr name value hend
  | startElement name extent => exact h.startElement name extent hend
  | endElement name extent => exact h.endElement name extent hend

/-! Relays of the same events, over a registry and over one that is ahead of it. -/

theorem extends_relay (r : Resolver) (es : List Event) :
    r.registry.Extends (Stage.relay step r es).state.registry := by
  have hfed := extends_feed Handler.keeping r [] es
  rwa [Stage.state_feed_before step (fun _ _ => rfl)] at hfed

theorem step_extends_relay (r : Resolver) (e : Event) (es : List Event) :
    (r.step e).1.registry.Extends (Stage.relay step r (e :: es)).state.registry := by
  have hfed := extends_feed_cons Handler.keeping r [] e es
  rwa [Stage.state_feed_before step (fun _ _ => rfl)] at hfed

/-- Whatever stops a resolver, by then it has interned no more than it would have. -/
theorem feed_extends_relay {σ : Type} (h : Handler σ NsEvent) (r : Resolver) (s : σ)
    (es : List Event) : (Handler.feed (Stage.before step h) (r, s) es).1.1.registry.Extends
      (Stage.relay step r es).state.registry := by
  induction es generalizing r s with
  | nil => exact .refl _
  | cons e es ih =>
    rcases hs : r.step e with ⟨r₁, b | _ | error⟩
    · simp only [Handler.feed, Stage.before_deliver hs, Stage.relay, hs]
      rcases h s b with ⟨s', _ | error⟩
      · exact ih r₁ s'
      · exact extends_relay r₁ es
    · simp only [Handler.feed, Stage.before_absorb hs, Stage.relay, hs]
      exact ih r₁ s
    · simp only [Handler.feed, Stage.before_reject hs, Stage.relay, hs]
      exact .refl _

/-- What is delivered over the registry ahead, up to what the other comes to, is what is delivered
over the one behind. -/
theorem Ahead.relay (es : List Event)
    (h : Ahead (Stage.relay Resolver.step r es).state.registry r r') :
    let one := Stage.relay Resolver.step r es
    let other := Stage.relay Resolver.step r' es
    other.delivered = one.delivered ∧ other.error = one.error ∧
      Ahead one.state.registry one.state other.state := by
  induction es generalizing r r' with
  | nil => exact ⟨rfl, rfl, h⟩
  | cons e es ih =>
    obtain ⟨hahead, hlevel⟩ := h.step e (step_extends_relay r e es)
    clear h
    generalize hstep : r.step e = out, hstep' : r'.step e = out' at hahead hlevel
    obtain ⟨r₁, passing⟩ := out
    obtain ⟨r₁', passing'⟩ := out'
    cases hlevel with
    | same =>
      rcases passing with b | _ | error
      · simp only [Stage.relay, hstep, hstep'] at hahead ⊢
        obtain ⟨hdelivered, herror, hstate⟩ := ih hahead
        exact ⟨congrArg (b :: ·) hdelivered, herror, hstate⟩
      · simp only [Stage.relay, hstep, hstep'] at hahead ⊢
        exact ih hahead
      · simp only [Stage.relay, hstep, hstep', true_and] at hahead ⊢
        exact hahead
    | reject he =>
      simp only [Stage.relay, hstep, hstep', true_and] at hahead he ⊢
      exact ⟨congrArg some (he (.refl _)).symm, hahead⟩

end Resolver
end XmlStream
