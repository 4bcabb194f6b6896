import Mathlib.Tactic.TFAE
import XmlStream.Proofs.Batching
import XmlStream.Proofs.Namespace.Identity
import XmlStream.Proofs.Namespace.Interning
/-! Uses. Whatever a registry is used for, it interns URIs, and only a list known beforehand can bring
in the empty one. That has no id by interning, so it is the only one that does not lead back to the
id that leads to it. -/
namespace XmlStream.Registry
open List (Forall₂)

inductive Use : Type 1 where
  | intern (uri : Bytes)
  | predefine (uris : List Bytes)
  | push (scope : Scope) (key uri : Bytes)
  | resolve (scope : Scope) (key : Bytes)
  | prepare (words uris : Vocabulary)
  | read {σ : Type} (config : Config) (doc : Bytes) (scope : Scope) (h : Handler σ NsEvent) (s : σ)
  | readTokens {σ : Type} (config : Config) (doc : Bytes) (lexicon : Lexicon) (scope : Scope)
      (h : Handler σ TokenEvent) (s : σ)

def Use.lists : Use → List Bytes
  | .predefine uris => uris
  | _ => []

def use (r : Registry) : Use → Registry
  | .intern uri => (r.intern uri).1
  | .predefine uris => (r.predefine uris).1
  | .push scope key uri => (scope.push r key uri).1
  | .resolve scope key => (scope.resolve r key).1
  | .prepare words uris => (Lexicon.prepare words uris r).1
  | .read config doc scope h s => (Document.readResolved config doc r scope h s).registry
  | .readTokens config doc lexicon scope h s =>
    (Document.readTokens config doc lexicon r scope h s).registry

def usedFor (r : Registry) (us : List Use) : Registry := us.foldl use r

theorem usedFor_append (r : Registry) (us vs : List Use) :
    r.usedFor (us ++ vs) = (r.usedFor us).usedFor vs :=
  List.foldl_append

theorem usedFor_concat (r : Registry) (us : List Use) (u : Use) :
    r.usedFor (us ++ [u]) = (r.usedFor us).use u :=
  List.foldl_append

theorem extends_internAll (r : Registry) (uris : List Bytes) : r.Extends (r.internAll uris) := by
  induction uris generalizing r with
  | nil => exact .refl r
  | cons uri uris ih => exact (r.intern_spec uri).1.trans (ih _)

/-- A reading interns, whatever scope it starts with and whatever stops it. -/
theorem readResolved_internAll {σ : Type} (config : Config) (doc : Bytes) (r : Registry)
    (scope : Scope) (h : Handler σ NsEvent) (s : σ) :
    ∃ uris, (Document.readResolved config doc r scope h s).registry = r.internAll uris := by
  obtain ⟨taken, -, hregistry⟩ := (Lexical.Follows.start r scope).told
    (Lexical.orderly_trace scope config doc).1 h s []
  have hfed := ((Stage.before Resolver.step h).feed_recording_eq []
    ({ registry := r, scope }, s) (Document.trace config doc).events).1
  refine ⟨_, Eq.trans ?_ hregistry⟩
  rw [Document.readResolved_eq, hfed]

theorem use_cases (r : Registry) (u : Use) :
    (∃ uris, u = .predefine uris) ∨ (u.lists = [] ∧ ∃ uris, r.use u = r.internAll uris) := by
  cases u with
  | predefine uris => exact .inl ⟨uris, rfl⟩
  | intern uri => exact .inr ⟨rfl, [uri], rfl⟩
  | push _ _ uri => exact .inr ⟨rfl, [uri], rfl⟩
  | resolve scope key =>
    refine .inr ⟨rfl, ?_⟩
    simp only [use, Scope.resolve]
    split
    · exact ⟨[], rfl⟩
    · split
      · exact ⟨[xmlUri], rfl⟩
      · exact ⟨[], rfl⟩
  | prepare _ uris => exact .inr ⟨rfl, uris.words.drop 1, NsTokens.registry_ofVocabulary uris r⟩
  | read config doc scope h s => exact .inr ⟨rfl, readResolved_internAll config doc r scope h s⟩
  | readTokens config doc lexicon scope h s =>
    exact .inr ⟨rfl, readResolved_internAll config doc r scope _ _⟩

theorem extends_use (r : Registry) (u : Use) : r.Extends (r.use u) := by
  obtain ⟨uris, rfl⟩ | ⟨-, uris, hu⟩ := r.use_cases u
  · exact (r.predefine_spec uris).1
  · rw [hu]
    exact r.extends_internAll uris

theorem extends_usedFor (r : Registry) (us : List Use) : r.Extends (r.usedFor us) := by
  induction us generalizing r with
  | nil => exact .refl r
  | cons u us ih => exact (r.extends_use u).trans (ih _)

theorem extends_of_initial (r : Registry) {us vs : List Use} (h : us <+: vs) :
    (r.usedFor us).Extends (r.usedFor vs) := by
  obtain ⟨more, rfl⟩ := h
  rw [usedFor_append]
  exact extends_usedFor _ more

/-! Where the empty URI comes from. -/

theorem mem_of_uri? {r : Registry} {id : NsId} {uri : Bytes} (h : r.uri? id = some uri) :
    uri ∈ r.catalogue.uris := by
  obtain ⟨index, -, hget⟩ := Option.bind_eq_some_iff.1 h
  exact List.mem_of_getElem? hget

theorem mem_predefine (r : Registry) (uris : List Bytes) (uri : Bytes) :
    uri ∈ (r.predefine uris).1.catalogue.uris ↔ uri ∈ r.catalogue.uris ∨ uri ∈ uris := by
  obtain ⟨hextends, hsubset, hall⟩ := r.predefine_spec uris
  constructor
  · intro h
    exact List.mem_append.1 (hsubset h)
  · rintro (h | h)
    · exact (extends_iff.1 hextends).subset h
    · obtain ⟨i, hi, rfl⟩ := List.getElem_of_mem h
      obtain ⟨hlength, hget⟩ := List.forall₂_iff_get.1 hall
      exact mem_of_uri? (hget i hi (hlength ▸ hi))

theorem nil_mem_internAll (r : Registry) (uris : List Bytes) :
    [] ∈ (r.internAll uris).catalogue.uris ↔ [] ∈ r.catalogue.uris := by
  induction uris generalizing r with
  | nil => rfl
  | cons uri uris ih =>
    refine (ih (r.intern uri).1).trans ?_
    by_cases hu : uri = []
    · rw [intern_eq, if_pos hu]
    · rw [uris_intern r hu]
      split
      · rfl
      · rw [List.mem_append, List.mem_singleton, or_iff_left (Ne.symm hu)]

theorem nil_mem_use (r : Registry) (u : Use) :
    [] ∈ (r.use u).catalogue.uris ↔ [] ∈ r.catalogue.uris ∨ [] ∈ u.lists := by
  obtain ⟨uris, rfl⟩ | ⟨hlists, uris, hu⟩ := r.use_cases u
  · exact r.mem_predefine uris []
  · rw [hu, hlists, r.nil_mem_internAll, or_iff_left List.not_mem_nil]

theorem nil_mem_usedFor (r : Registry) (us : List Use) :
    [] ∈ (r.usedFor us).catalogue.uris ↔ [] ∈ r.catalogue.uris ∨ [] ∈ us.flatMap Use.lists := by
  induction us generalizing r with
  | nil => exact (or_iff_left List.not_mem_nil).symm
  | cons u us ih =>
    rw [List.flatMap_cons, List.mem_append, ← or_assoc, ← nil_mem_use]
    exact ih _

/-! From an id to its URI and back. -/

theorem uri?_identifier {r : Registry} {index : Nat} (h : index < r.size) :
    r.uri? (r.identifier index) = some r.catalogue.uris[index] := by
  rw [identifier, if_pos h]
  exact List.getElem?_eq_getElem h

theorem intern_uri_iff {r : Registry} {id : NsId} {uri : Bytes} (h : r.uri? id = some uri) :
    (r.intern uri).2 = id ↔ uri ≠ [] := by
  rw [intern_eq]
  obtain _ | index := id
  · cases h
  · split
    · rename_i hu
      exact iff_of_false NsId.noConfusion (not_not_intro hu)
    · rename_i hu
      rw [insert, Catalogue.insert_of_find? (Catalogue.find?_eq_some_iff.2 h)]
      exact iff_of_true rfl hu

/-- Each id that a registry has is that of its URI again, unless its URI is the empty one. So all are
just if no list has had the empty one, and that is so just if every list has been given the ids that
its URIs have by interning. -/
theorem intern_uri_tfae (sharing : Sharing) (us : List Use) :
    let r := usedFor { sharing } us
    (∀ index < r.size, ∃ uri, r.uri? (r.identifier index) = some uri ∧
      ((r.intern uri).2 = r.identifier index ↔ uri ≠ [])) ∧
    List.TFAE [
      ∀ index < r.size, ∀ uri, r.uri? (r.identifier index) = some uri →
        (r.intern uri).2 = r.identifier index,
      ∀ before uris, before ++ [.predefine uris] <+: us →
        ((usedFor { sharing } before).predefine uris).2 = uris.map fun uri => (r.intern uri).2,
      [] ∉ us.flatMap Use.lists] := by
  intro r
  have hnil : [] ∈ r.catalogue.uris ↔ [] ∈ us.flatMap Use.lists :=
    (nil_mem_usedFor _ us).trans (or_iff_right List.not_mem_nil)
  refine ⟨fun index h => ⟨_, uri?_identifier h, intern_uri_iff (uri?_identifier h)⟩, ?_⟩
  tfae_have 1 → 3 := by
    intro hback hlists
    obtain ⟨index, hindex, hempty⟩ := List.getElem_of_mem (hnil.2 hlists)
    have huri := hempty ▸ uri?_identifier hindex
    exact (intern_uri_iff huri).1 (hback index hindex [] huri) rfl
  tfae_have 3 → 1 := by
    intro hlists index hindex uri huri
    refine (intern_uri_iff huri).2 ?_
    rintro rfl
    exact hlists (hnil.1 (mem_of_uri? huri))
  tfae_have 3 → 2 := by
    intro hlists before uris hinitial
    -- what the list has been given is still there, and none of it is for the empty URI
    have hlater := extends_of_initial { sharing } hinitial
    rw [usedFor_append] at hlater
    have hne : ∀ uri ∈ uris, uri ≠ [] := by
      rintro uri huri rfl
      refine hlists (List.mem_flatMap.2 ⟨.predefine uris, hinitial.subset ?_, huri⟩)
      exact List.mem_append_right _ List.mem_cons_self
    have hall := (List.forall₂_and_left _ _).2
      ⟨hne, ((usedFor { sharing } before).predefine_spec uris).2.2⟩
    have hids : Forall₂ (fun uri id => (r.intern uri).2 = id) uris
        ((usedFor { sharing } before).predefine uris).2 :=
      hall.imp fun uri id h => (intern_uri_iff (hlater _ _ h.2)).2 h.1
    rw [← List.forall₂_map_left_iff, List.forall₂_eq_eq_eq] at hids
    exact hids.symm
  tfae_have 2 → 3 := by
    intro hgiven hlists
    obtain ⟨u, hu, hmem⟩ := List.mem_flatMap.1 hlists
    obtain ⟨before, after, hus⟩ := List.append_of_mem hu
    cases u with
    | predefine uris =>
      have hunknown : NsId.unknown ∈ ((usedFor { sharing } before).predefine uris).2 := by
        rw [hgiven before uris ⟨after, by rw [hus, List.append_assoc, List.singleton_append]⟩]
        exact List.mem_map.2 ⟨[], hmem, rfl⟩
      obtain ⟨index, -, hindex⟩ := List.mem_map.1 hunknown
      cases hindex
    | _ => cases hmem
  tfae_finish

/-- A list of the empty URI alone. -/
theorem empty_uri_lost : ¬ ∀ (sharing : Sharing) (us : List Use),
    let r := usedFor { sharing } us
    ∀ index < r.size, ∀ uri, r.uri? (r.identifier index) = some uri →
      (r.intern uri).2 = r.identifier index := by
  intro h
  have hback := h .shared [.predefine [[]]] 0 (by decide) [] rfl
  cases hback

end XmlStream.Registry
