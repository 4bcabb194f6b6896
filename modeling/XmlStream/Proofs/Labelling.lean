import XmlStream.Proofs.Numbering
import XmlStream.Proofs.Namespace.Matching
/-! Labelling. A reading with tokens is the one with namespaces, batched. It hands every name over with
the token of the URI that it belongs to and with that of its local name, in the order in which lexical
scope tells the names. -/
namespace XmlStream
open List (Forall₂)
open Lexical (Meaning Env Forwards Forwarded binding?)

variable {σ τ : Type}

def NsEvent.name? : NsEvent → Option (NsId × Bytes)
  | attr ns name _ | startElement ns name _ | endElement ns name _ => some (ns, name.localName)
  | _ => none

def TokenEvent.names : TokenEvent → List TokenName
  | startElement name _ attrs => attrs.map (·.name) ++ [name]
  | endElement name _ => [name]
  | characters _ => []

namespace Lexical

def Env.name? (context : Scope) (v : Env) : Event → Option (Meaning × Bytes)
  | .attr name value =>
    if v.inDeclaration || (binding? name value).isSome then none
    else some (v.meaning context name.qualifier, name.localName)
  | .startElement name _ | .endElement name _ =>
    some (v.meaning context name.qualifier, name.localName)
  | _ => none

def Env.named (context : Scope) : Env → List Event → List (Meaning × Bytes)
  | _, [] => []
  | v, e :: es => (v.name? context e).toList ++ named context (v.step context e) es

variable {g : Registry} {context : Scope} {v : Env} {es : List Event} {bs : List NsEvent}

theorem Env.named_append (v : Env) (es fs : List Event) :
    v.named context (es ++ fs) = v.named context es ++ (v.run context es).named context fs := by
  induction es generalizing v with
  | nil => rfl
  | cons e es ih =>
    rw [List.cons_append, named, ih, named, List.append_assoc]
    rfl

theorem Env.named_take (v : Env) (es : List Event) (n : Nat) :
    v.named context (es.take n) <+: v.named context es := by
  conv_rhs => rw [← List.take_append_drop n es, named_append]
  exact List.prefix_append _ _

def SameName (g : Registry) (m : Meaning × Bytes) (name : NsId × Bytes) : Prop :=
  m.1.Names g name.1 ∧ m.2 = name.2

theorem Forwards.name {e : Event} {b : NsEvent} (h : Forwards g context v e b) :
    Forall₂ (SameName g) (v.name? context e).toList b.name?.toList := by
  cases h with
  | doctype | startDeclaration | endDeclaration | characters => exact .nil
  | declarationAttr hd =>
    rw [Env.name?, hd]
    exact .nil
  | attr hd hb hm =>
    rw [Env.name?, hd, hb]
    exact .cons ⟨hm, rfl⟩ .nil
  | startElement hm | endElement hm => exact .cons ⟨hm, rfl⟩ .nil

theorem Forwarded.names (h : Forwarded g context v es bs) :
    Forall₂ (SameName g) (v.named context es) (bs.flatMap (·.name?.toList)) := by
  induction h with
  | nil => exact .nil
  | forward hb _ ih => exact List.rel_append hb.name ih
  | bind hd hb _ ih =>
    rw [Env.named, Env.name?, hd, hb]
    exact ih

end Lexical

theorem NsAttr.names (attrs : List NsAttr) : (attrs.map NsAttr.event).flatMap (·.name?.toList) =
    attrs.map fun a => (a.ns, a.name.localName) := by
  induction attrs with
  | nil => rfl
  | cons a attrs ih =>
    rw [List.map_cons, List.flatMap_cons, ih]
    rfl

theorem Batched.names {l : Lexicon} {bs : List NsEvent} {ts : List TokenEvent} {left : List NsAttr}
    (h : Batched l bs ts left) :
    ts.flatMap TokenEvent.names ++ left.map (fun a => (a.tokenized l).name) =
      (bs.flatMap (·.name?.toList)).map fun name => l.name name.1 name.2 := by
  induction h with
  | unstarted =>
    rw [NsAttr.names, List.map_map]
    rfl
  | startElement _ ih =>
    rw [List.flatMap_append, NsAttr.names, List.flatMap_cons, List.flatMap_cons, List.append_assoc,
      ih, List.map_append, List.map_append, List.map_map, TokenEvent.names, List.map_map,
      List.append_assoc]
    rfl
  | endElement _ ih => exact congrArg (_ :: ·) ih
  | characters _ ih | doctype _ ih | startDeclaration _ ih | endDeclaration _ ih
  | declarationAttr _ ih => exact ih

namespace Document
open Lexical

/-- What has been handed over is the beginning of what is forwarded, in batches; nothing of it is
missing when a reading ends well. -/
theorem readTokens_handed (config : Config) (doc : Bytes) (l : Lexicon) (registry : Registry)
    (scope : Scope) (k : Handler σ TokenEvent) (s : σ) :
    let reading := readTokens config doc l registry scope k.recording ([], s)
    ∃ n bs ts left, Forwarded reading.registry scope {} ((trace config doc).events.take n) bs ∧
      Batched l bs ts left ∧ reading.state.1 <+: ts ∧
      (reading.error = none →
        (trace config doc).events.length ≤ n ∧ left = [] ∧ reading.state.1 = ts) := by
  intro reading
  obtain ⟨bs, out, hr, he⟩ := runs_readResolved config doc registry scope
    (Stage.before (Batch.step l) k.recording) (.empty, ([], s))
  obtain ⟨n, hn, hall⟩ := hr.forwarded
  obtain ⟨ho, hend⟩ := orderly_trace scope config doc
  rw [← List.take_append_drop n (trace config doc).events, Env.orderly_append] at ho
  obtain ⟨ts, left, hb, hl⟩ := exists_batched l hn ho.1 [] fun _ => rfl
  have hb : Batched l bs ts left := hb
  obtain ⟨hts, hrelay⟩ := Batch.relay_of_batched hb
  obtain ⟨u, w, huw, hrecorded, hw⟩ := k.feed_recording [] s ts
  obtain ⟨hfed, hnone⟩ := hr.fed
  obtain ⟨hstate, herror⟩ := Stage.feed_before (Batch.step l) k.recording .empty ([], s) bs
  rw [hts, hrecorded] at hstate herror
  have hreading : reading.state.1 = u := by
    simp only [reading, readTokens, he, ← hfed, hstate, List.nil_append]
  have hregistry : reading.registry = out.1.1.registry := by simp only [reading, readTokens, he]
  refine ⟨n, bs, ts, left, hregistry ▸ hn, hb, ⟨w, hreading ▸ huw.symm⟩, fun h => ?_⟩
  simp only [reading, readTokens, he, Option.or_eq_none_iff] at h
  rw [hnone h.1, eq_comm, Option.or_eq_none_iff] at herror
  rw [List.take_of_length_le (hall h.1)] at hl
  rw [hreading, huw, hw herror.1, List.append_nil]
  exact ⟨hall h.1, hl (hend h.2), rfl⟩

end Document

/-- The tokens of a name are those of the URI that it belongs to and of its local name. -/
structure Labelled (g : Registry) (words uris : Vocabulary) (m : Meaning × Bytes)
    (name : TokenName) : Prop where
  names : m.1.Names g name.ns
  nsToken : name.nsToken = uris.tokenOf (m.1.uri? g)
  token : name.token = words.token m.2
  raw : name.raw = m.2

theorem Lexical.SameName.labelled {r g : Registry} {words uris : Vocabulary} {m : Meaning × Bytes}
    {name : NsId × Bytes} (h : SameName g m name)
    (hg : (Lexicon.prepare words uris r).1.Extends g) :
    Labelled g words uris m ((Lexicon.prepare words uris r).2.name name.1 name.2) where
  names := h.1
  nsToken := (NsTokens.token_ofVocabulary hg name.1).trans (by rw [← h.1.uri?_self])
  token := by rw [h.2]; rfl
  raw := h.2.symm

/-- Every name that is handed over is labelled, in the order in which the names come, and none is
missing when a reading ends well. -/
theorem Document.readTokens_labelled (config : Config) (doc : Bytes) (words uris : Vocabulary)
    {r registry : Registry} (hr : (Lexicon.prepare words uris r).1.Extends registry) (scope : Scope)
    (k : Handler σ TokenEvent) (s : σ) :
    let reading := readTokens config doc (Lexicon.prepare words uris r).2 registry scope k.recording
      ([], s)
    let named := Env.named scope {} (trace config doc).events
    ∃ told, told <+: named ∧
      Forall₂ (Labelled reading.registry words uris) told
        (reading.state.1.flatMap TokenEvent.names) ∧
      (reading.error = none → told = named) := by
  intro reading named
  let lexicon := (Lexicon.prepare words uris r).2
  obtain ⟨n, bs, ts, left, hn, hb, ⟨more, hmore⟩, hend⟩ :=
    readTokens_handed config doc lexicon registry scope k s
  have hg : (Lexicon.prepare words uris r).1.Extends reading.registry :=
    hr.trans (registry.extends_use (.readTokens config doc lexicon scope k.recording ([], s)))
  have hnames : Forall₂ (Labelled reading.registry words uris)
      (Env.named scope {} ((trace config doc).events.take n))
      (reading.state.1.flatMap TokenEvent.names ++ (more.flatMap TokenEvent.names ++
        left.map fun a => (a.tokenized lexicon).name)) := by
    rw [← List.append_assoc, ← List.flatMap_append, hmore, hb.names]
    exact List.forall₂_map_right_iff.2 (hn.names.imp fun _ _ h => h.labelled hg)
  refine ⟨_, (List.take_prefix ..).trans (Env.named_take {} _ n), List.forall₂_take_append _ _ _ hnames,
    fun hnone => ?_⟩
  obtain ⟨hall, rfl, hstate⟩ := hend hnone
  obtain rfl : more = [] := List.append_right_eq_self.1 (hmore.trans hstate.symm)
  have hlength := hnames.length_eq
  rw [List.take_of_length_le hall] at hlength ⊢
  exact List.take_of_length_le (by simpa using hlength.le)

/-- The name of an id has the token that its URI has in the one table, and that of its local name in the
other. -/
theorem Lexicon.name_eq {words uris : Vocabulary} {r g : Registry}
    (hg : (prepare words uris r).1.Extends g) (ns : NsId) (raw : Bytes) :
    (prepare words uris r).2.name ns raw =
      ⟨ns, uris.tokenOf (g.uri? ns), words.token raw, raw⟩ :=
  congrArg (TokenName.mk ns · (words.token raw) raw) (NsTokens.token_ofVocabulary hg ns)

namespace Document
open Lexical

/-- A reading with tokens that no handler stops is the reading with namespaces of the same document,
after the words of the vocabulary for namespaces have been interned, in batches: it has the same
end, and when that is without an error all attributes have been handed over. Names have the tokens
that the tables have for their URIs and local names. -/
theorem readTokens_batched {h : Handler σ NsEvent} {k : Handler τ TokenEvent} (hh : h.Tireless)
    (hk : k.Tireless) (config : Config) (doc : Bytes) (words uris : Vocabulary)
    (registry : Registry) (scope : Scope) (s : σ) (t : τ) :
    let prepared := (Lexicon.prepare words uris registry).1
    let lexicon := (Lexicon.prepare words uris registry).2
    let resolved := readResolved config doc prepared scope (Handler.recording h) ([], s)
    let tokens := readTokens config doc lexicon prepared scope (Handler.recording k) ([], t)
    prepared = (uris.words.drop 1).foldl (fun r uri => (r.intern uri).1) registry ∧
      (∃ left, Batched lexicon resolved.state.1 tokens.state.1 left ∧
        (resolved.error = none → left = [])) ∧
      (∀ ns raw, lexicon.name ns raw =
        ⟨ns, uris.tokenOf (tokens.registry.uri? ns), words.token raw, raw⟩) ∧
      (∀ (v : Vocabulary) (word : Bytes), IsLeast (v.places word) (v.token word).index ∨
        (v.places word = ∅ ∧ v.token word = .unknown)) ∧
      tokens.error = resolved.error ∧ tokens.registry = resolved.registry ∧
      tokens.scope = resolved.scope := by
  intro prepared lexicon resolved tokens
  have hresolved := readResolved_relay hh.recording config doc prepared scope ([], s)
  have htokens := readResolved_relay (Batch.tireless_before (l := lexicon) hk.recording) config doc
    prepared scope (.empty, ([], t))
  obtain ⟨ts, left, hb, hl⟩ :=
    exists_batched_forwarded lexicon config doc prepared scope h s
  have hts : tokens.state.1 = ts := by
    rw [hresolved] at hb
    simp only [hh.recorded, List.nil_append] at hb
    simp only [tokens, readTokens, htokens, Stage.feed_before, Batch.relay_of_batched hb,
      hk.recorded, List.nil_append]
  have hextends : prepared.Extends tokens.registry :=
    prepared.extends_use (.readTokens config doc lexicon scope k.recording ([], t))
  refine ⟨NsTokens.registry_ofVocabulary uris registry, ⟨left, hts ▸ hb, hl⟩,
    Lexicon.name_eq hextends, Vocabulary.isLeast_token, ?_⟩
  simp only [tokens, readTokens, resolved, hresolved, htokens, and_self]

/-- Two values that share a buffer, one of them in a namespace of the table, and none for the element
inside. -/
theorem readTokens_batched_copies :
    let doc := utf8 "<p:a xmlns:p=\"u\" p:b=\"&lt;\" c=\"d&amp;\"><a/></p:a>"
    let words : Vocabulary := ⟨[[], utf8 "a", utf8 "b"]⟩
    let uris : Vocabulary := ⟨[[], utf8 "v", utf8 "u"]⟩
    let prepared := (Lexicon.prepare words uris {}).1
    let lexicon := (Lexicon.prepare words uris {}).2
    let tokens := readTokens .lenient doc lexicon prepared {}
      (Handler.recording fun (n : Nat) _ => (n + 1, none)) ([], 0)
    let a : TokenName := ⟨.numbered 1, ⟨2⟩, ⟨1⟩, utf8 "a"⟩
    tokens.state.1 =
        [.startElement a ⟨0, 39⟩
            [⟨⟨.numbered 1, ⟨2⟩, ⟨2⟩, utf8 "b"⟩, .transient (utf8 "<")⟩,
              ⟨⟨.unknown, .unknown, .unknown, utf8 "c"⟩, .transient (utf8 "d&")⟩],
          .startElement ⟨.unknown, .unknown, ⟨1⟩, utf8 "a"⟩ ⟨39, 43⟩ [],
          .endElement ⟨.unknown, .unknown, ⟨1⟩, utf8 "a"⟩ ⟨39, 43⟩,
          .endElement a ⟨43, 49⟩] ∧
      lexicon.name (.numbered 1) (utf8 "a") = a ∧ tokens.error = none := by
  intro doc words uris prepared lexicon tokens a
  obtain ⟨-, -, hname, -, herror, -, -⟩ := readTokens_batched
    (h := fun (n : Nat) _ => (n + 1, none)) (k := fun (n : Nat) _ => (n + 1, none))
    (fun _ _ => rfl) (fun _ _ => rfl) .lenient doc words uris {} {} 0 0
  refine ⟨by decide +kernel, (hname (.numbered 1) (utf8 "a")).trans ?_, herror.trans ?_⟩
  · decide +kernel
  · decide +kernel

end Document

namespace Lexicon

/-- Looking up by id agrees with looking up by URI, whatever the registry held before and is used for
after. The token is the least place of the URI after the first; no namespace and URIs that are not
in the list have none. So it is for every name that a reading hands over. -/
theorem tokens_agree (words uris : Vocabulary) (registry : Registry) (us : List Registry.Use) :
    let lexicon := (prepare words uris registry).2
    let later := (prepare words uris registry).1.usedFor us
    (∀ (v : Vocabulary) (word : Bytes), v.table.getD word .unknown = v.token word ∧
      (IsLeast (v.places word) (v.token word).index ∨
        (v.places word = ∅ ∧ v.token word = .unknown))) ∧
    (∀ uri, uri ≠ [] → lexicon.namespaces.token (later.intern uri).2 = uris.token uri) ∧
    lexicon.namespaces.token .unknown = .unknown ∧
    (∀ ns, (∀ uri ∈ uris.words.drop 1, later.uri? ns ≠ some uri) →
      lexicon.namespaces.token ns = .unknown) ∧
    lexicon.namespaces.size = ((uris.words.drop 1).toFinset.erase []).card ∧
    ∀ (σ : Type) (config : Config) (doc : Bytes) (scope : Scope) (k : Handler σ TokenEvent) (s : σ),
      let reading := Document.readTokens config doc lexicon later scope k.recording ([], s)
      let named := Env.named scope {} (Document.trace config doc).events
      ∃ told, told <+: named ∧
        Forall₂ (Labelled reading.registry words uris) told
          (reading.state.1.flatMap TokenEvent.names) ∧
        (reading.error = none → told = named) := by
  intro lexicon later
  have hlater : (prepare words uris registry).1.Extends later := Registry.extends_usedFor _ us
  refine ⟨fun v word => ⟨v.getD_table word, v.isLeast_token word⟩, ?interned, ?unknown, ?unlisted,
    NsTokens.size_ofVocabulary uris registry, ?read⟩
  case interned =>
    intro uri hne
    obtain ⟨hextends, hnames⟩ := later.intern_spec uri
    rw [Meaning.Names, if_neg hne] at hnames
    refine (NsTokens.token_ofVocabulary (hlater.trans hextends) _).trans ?_
    rw [hnames, uris.tokenOf_some hne]
  case unknown => exact NsTokens.token_ofVocabulary hlater .unknown
  case unlisted =>
    intro ns hns
    exact (NsTokens.token_ofVocabulary hlater ns).trans (Vocabulary.tokenOf_unlisted hns)
  case read =>
    intro σ config doc scope k s
    exact Document.readTokens_labelled config doc words uris hlater scope k s

end Lexicon
end XmlStream
