import XmlStream.Proofs.Labelling
/-! Wording. A registry has an id for each URI and one more, so while the URIs are fewer than the words
there are, every id is a word. That is so whatever the registry has been used for: what uses leave is
what calls leave, and a store that has been made those calls has a word for each id that readings hand
over. -/
namespace XmlStream
open Lexical (Forwarded)

namespace Registry

theorem Issued.known {g : Registry} {ns : NsId} (h : g.Issued ns) : g.known ns = ns := by
  obtain rfl | ⟨uri, -, huri⟩ := h
  · rfl
  · exact known_of_uri? huri

theorem lt_size_of_known {g : Registry} {index : Nat} (h : g.known (.numbered index) = .numbered index) :
    index < g.size := by
  by_contra hge
  have hindex : g.index? (.numbered index) = none := by
    simp only [index?, NsId.index?, Option.filter_some, hge, decide_false, Bool.false_eq_true, if_false]
  rw [known, hindex] at h
  cases h

theorem run_intern (r : Registry) (uris : List Bytes) :
    (Call.run answer r (uris.map .intern)).1 = r.internAll uris := by
  induction uris generalizing r with
  | nil => rfl
  | cons uri uris ih => exact ih _

/-- Calls that leave a registry as a use of it does. -/
theorem exists_run_use (r : Registry) (u : Use) : ∃ calls : List (Call UInt32),
    (Call.run answer r (calls.map (·.map .ofWord))).1 = r.use u := by
  obtain ⟨uris, rfl⟩ | ⟨-, uris, hu⟩ := r.use_cases u
  · exact ⟨[.predefine uris], rfl⟩
  · refine ⟨uris.map .intern, ?_⟩
    rw [hu, ← run_intern, List.map_map]
    rfl

theorem exists_run (r : Registry) (us : List Use) : ∃ calls : List (Call UInt32),
    (Call.run answer r (calls.map (·.map .ofWord))).1 = r.usedFor us := by
  induction us generalizing r with
  | nil => exact ⟨[], rfl⟩
  | cons u us ih =>
    obtain ⟨calls, hcalls⟩ := r.exists_run_use u
    obtain ⟨more, hmore⟩ := ih (r.use u)
    refine ⟨calls ++ more, ?_⟩
    rw [List.map_append, Call.run_append, hcalls, hmore]
    rfl

end Registry

namespace Store

/-- A store that has the URIs of a registry, and one word for each of its ids. -/
structure Represents (t : Store) (g : Registry) : Prop where
  holds : t.pool.Holds g.catalogue
  faithful : t.pool.Faithful
  word : ∀ ns, g.known ns = ns → ∃! w, NsId.ofWord w = ns ∧ t.uri? w = g.uri? ns

theorem represents_of_holds {t : Store} {g : Registry} (h : t.pool.Holds g.catalogue)
    (room : g.size < 2 ^ 32 - 1) : t.Represents g where
  holds := h
  faithful := h.faithful (room.trans (by decide))
  word ns hns := by
    have hword : ∃ w, NsId.ofWord w = ns := by
      cases ns with
      | unknown => exact ⟨unknownWord, rfl⟩
      | numbered index =>
        exact ⟨_, NsId.ofWord_ofNat ((Registry.lt_size_of_known hns).trans room)⟩
    obtain ⟨w, rfl⟩ := hword
    exact ⟨w, ⟨rfl, uri?_eq h w⟩, fun w' hw' => NsId.ofWord_injective hw'.1⟩

/-- What a use leaves of a registry is represented by a store that has been made some calls. -/
theorem exists_represents (sharing : Sharing) (us : List Registry.Use) (u : Registry.Use)
    (room : ((Registry.usedFor { sharing } us).use u).size < 2 ^ 32 - 1) : ∃ calls,
    (Call.run answer { sharing } calls).1.Represents ((Registry.usedFor { sharing } us).use u) := by
  have hempty : Pool.Holds ({ sharing } : Store).pool ({ sharing } : Registry).catalogue :=
    Pool.holds_empty
  obtain ⟨calls, hcalls⟩ := Registry.exists_run { sharing } (us ++ [u])
  have hholds := run_holds hempty calls
  rw [hcalls, Registry.usedFor_concat] at hholds
  exact ⟨calls, represents_of_holds hholds room⟩

end Store

theorem Batched.ns_of_name {l : Lexicon} {bs : List NsEvent} {ts : List TokenEvent}
    {left : List NsAttr} (h : Batched l bs ts left) {name : TokenName}
    (hname : name ∈ ts.flatMap TokenEvent.names) : ∃ b ∈ bs, b.ns? = some name.ns := by
  have hall : name ∈ ts.flatMap TokenEvent.names ++ left.map fun a => (a.tokenized l).name :=
    List.mem_append_left _ hname
  rw [h.names, List.mem_map] at hall
  obtain ⟨⟨ns, localName⟩, hmem, rfl⟩ := hall
  obtain ⟨b, hb, hns⟩ := List.mem_flatMap.1 hmem
  refine ⟨b, hb, ?_⟩
  rw [Option.mem_toList] at hns
  cases b <;> cases hns <;> rfl

namespace Document

variable {σ τ : Type} {registry : Registry} {scope : Scope}

theorem issued_resolved (hc : scope.Issued registry) (config : Config) (doc : Bytes)
    (h : Handler σ NsEvent) (s : σ) :
    let reading := readResolved config doc registry scope h.recording ([], s)
    ∀ b ∈ reading.state.1, ∀ ns, b.ns? = some ns → reading.registry.Issued ns := by
  intro reading b hb ns hns
  obtain ⟨out, hr, -, hregistry⟩ := runs_recording config doc registry scope h s
  obtain ⟨n, hf, -⟩ := hr.forwarded
  rw [← hregistry] at hf
  have hextends := registry.extends_use (.read config doc scope h.recording ([], s))
  exact hf.issued (hc.mono hextends) hb hns

theorem issued_tokens (hc : scope.Issued registry) (config : Config) (doc : Bytes) (l : Lexicon)
    (k : Handler τ TokenEvent) (t : τ) :
    let reading := readTokens config doc l registry scope k.recording ([], t)
    ∀ name ∈ reading.state.1.flatMap TokenEvent.names, reading.registry.Issued name.ns := by
  intro reading name hname
  obtain ⟨n, bs, ts, left, hf, hb, htold, -⟩ := readTokens_handed config doc l registry scope k t
  have hts : name ∈ ts.flatMap TokenEvent.names := (htold.flatMap TokenEvent.names).subset hname
  obtain ⟨b, hbs, hns⟩ := hb.ns_of_name hts
  have hextends := registry.extends_use (.readTokens config doc l scope k.recording ([], t))
  exact hf.issued (hc.mono hextends) hbs hns

/-- If a reading leaves fewer URIs than there are words, every id that it hands over is one word of a
store that has been made some calls, whatever the registry has been used for before. -/
theorem ids_are_words (sharing : Sharing) (us : List Registry.Use) (config : Config) (doc : Bytes)
    (hc : scope.Issued (.usedFor { sharing } us)) (l : Lexicon) (h : Handler σ NsEvent) (s : σ)
    (k : Handler τ TokenEvent) (t : τ) :
    let registry := Registry.usedFor { sharing } us
    let resolved := readResolved config doc registry scope h.recording ([], s)
    let tokens := readTokens config doc l registry scope k.recording ([], t)
    (resolved.registry.size < 2 ^ 32 - 1 → ∃ calls,
      let store := (Call.run Store.answer { sharing } calls).1
      store.Represents resolved.registry ∧ ∀ b ∈ resolved.state.1, ∀ ns, b.ns? = some ns →
        ∃! w, NsId.ofWord w = ns ∧ store.uri? w = resolved.registry.uri? ns) ∧
    (tokens.registry.size < 2 ^ 32 - 1 → ∃ calls,
      let store := (Call.run Store.answer { sharing } calls).1
      store.Represents tokens.registry ∧ ∀ name ∈ tokens.state.1.flatMap TokenEvent.names,
        ∃! w, NsId.ofWord w = name.ns ∧ store.uri? w = tokens.registry.uri? name.ns) := by
  intro registry resolved tokens
  constructor
  · intro room
    obtain ⟨calls, hstore⟩ :=
      Store.exists_represents sharing us (.read config doc scope h.recording ([], s)) room
    refine ⟨calls, hstore, fun b hb ns hns => hstore.word ns ?_⟩
    exact (issued_resolved hc config doc h s b hb ns hns).known
  · intro room
    obtain ⟨calls, hstore⟩ :=
      Store.exists_represents sharing us (.readTokens config doc l scope k.recording ([], t)) room
    refine ⟨calls, hstore, fun name hname => hstore.word name.ns ?_⟩
    exact (issued_tokens hc config doc l k t name hname).known

end Document
end XmlStream
