import XmlStream.Proofs.Batching
import XmlStream.Proofs.Namespace.Growing
import XmlStream.Proofs.Namespace.Restoring
import XmlStream.Proofs.Reader.Running
import XmlStream.Proofs.Stopping
/-! Repeating. What a reading leaves in the objects that it has used is a position, a buffer, a scope
that binds what it bound before and a registry that has grown. None of it can be seen in the next
reading of the same document. -/
namespace XmlStream

variable {σ τ α β ω : Type}

namespace Document

variable {config : Config} {doc : Bytes} {r g : Registry} {scope scope' : Scope}

/-- A reading is the same over a registry that has grown by what it has interned, and has that one
grow to what it has become before. -/
theorem resolved_again (hb : scope'.bindings = scope.bindings) (hg : r.Extends g)
    (hend : g.Extends (resolved config doc r scope).state.registry) :
    let one := resolved config doc r scope
    let other := resolved config doc g scope'
    other.delivered = one.delivered ∧ other.error = one.error ∧
      other.state.registry.catalogue.uris = one.state.registry.catalogue.uris := by
  obtain ⟨bindings, seen⟩ := scope'
  obtain rfl := hb
  have hahead : Resolver.Ahead (resolved config doc r scope).state.registry
      { registry := r, scope } { registry := g, scope := ⟨scope.bindings, seen⟩ } :=
    .onto g seen hg hend
  obtain ⟨hdelivered, herror, hstate⟩ := hahead.relay (trace config doc).events
  refine ⟨hdelivered, ?_, ?_⟩
  · exact congrArg (·.or (trace config doc).error) herror
  · exact hstate.uris_eq

theorem readResolved_extends (h : Handler σ NsEvent) (s : σ) :
    (readResolved config doc r scope h s).registry.Extends
      (resolved config doc r scope).state.registry := by
  rw [readResolved_eq]
  exact Resolver.feed_extends_relay h { registry := r, scope } s _

end Document

structure NsReader where
  reader : Reader := {}
  registry : Registry
  scope : Scope

namespace NsReader

def parse (doc : Bytes) (h : Handler σ NsEvent) (config : Config) (x : NsReader × σ) :
    Option (Except Error Unit × (NsReader × σ)) :=
  match Reader.parse doc (Stage.before Resolver.step h) config
    (x.1.reader, ({ registry := x.1.registry, scope := x.1.scope }, x.2)) with
  | none => none
  | some (.ok (), (reader, (resolver, s))) =>
    some (.ok (), (⟨reader, resolver.registry, resolver.scope⟩, s))
  | some (.error error, (reader, (resolver, s))) =>
    some (.error error, (⟨reader, resolver.unwind.registry, resolver.unwind.scope⟩, s))

def parseTokens (doc : Bytes) (lexicon : Lexicon) (h : Handler σ TokenEvent) (config : Config)
    (x : NsReader × σ) : Option (Except Error Unit × (NsReader × σ)) :=
  match parse doc (Stage.before (Batch.step lexicon) h) config (x.1, (.empty, x.2)) with
  | none => none
  | some (out, (r, (_, s))) => some (out, (r, s))

theorem parse_eq (config : Config) (doc : Bytes) (h : Handler σ NsEvent) (r : NsReader) (s : σ) :
    let reading := Document.readResolved config doc r.registry r.scope h s
    ∃ reader, parse doc h config (r, s) =
      some (outcome reading.error, (⟨reader, reading.registry, reading.scope⟩, reading.state)) := by
  obtain ⟨reader, hparse, -, -⟩ := Reader.parse_eq config doc (Stage.before Resolver.step h)
    ({ registry := r.registry, scope := r.scope }, s) r.reader
  refine ⟨reader, ?_⟩
  rw [parse, hparse]
  simp only [Document.readResolved]
  generalize Document.read config doc (Stage.before Resolver.step h) _ = ending
  obtain ⟨⟨resolver, s'⟩, _ | error, position⟩ := ending <;> rfl

theorem parseTokens_eq (config : Config) (doc : Bytes) (lexicon : Lexicon)
    (h : Handler σ TokenEvent) (r : NsReader) (s : σ) :
    let reading := Document.readTokens config doc lexicon r.registry r.scope h s
    ∃ reader, parseTokens doc lexicon h config (r, s) =
      some (outcome reading.error, (⟨reader, reading.registry, reading.scope⟩, reading.state)) := by
  obtain ⟨reader, hparse⟩ := parse_eq config doc (Stage.before (Batch.step lexicon) h) r (.empty, s)
  refine ⟨reader, ?_⟩
  rw [parseTokens, hparse]
  rfl

end NsReader

abbrev Using (ω α : Type) : Type 1 :=
  (σ : Type) → Handler σ α → ω × σ → Option (Except Error Unit × (ω × σ))

inductive Used (use : Using ω α) (fresh : ω) : ω → Prop
  | unused : Used use fresh fresh
  | again {o o' : ω} {σ : Type} {h : Handler σ α} {s s' : σ} {out : Except Error Unit} :
      Used use fresh o → use σ h (o, s) = some (out, (o', s')) → Used use fresh o'

/-- What a reading that no handler stops comes to, whichever handler that is: the events, the answer,
and what can be seen of the object afterwards. -/
def Gives (use : Using ω α) (view : ω → β) (o : ω) (events : List α) (out : Except Error Unit)
    (seen : β) : Prop :=
  ∀ (σ : Type) (h : Handler σ α) (s : σ), h.Tireless → ∃ p s',
    use _ h.recording (o, ([], s)) = some (out, (p, (events, s'))) ∧ view p = seen

def SameReading (use : Using ω α) (view : ω → β) (o o' : ω) : Prop :=
  ∃ events out seen, Gives use view o events out seen ∧ Gives use view o' events out seen

/-- What an object's every use keeps up holds of it however often it has been used. -/
theorem Used.invariant {use : Using ω α} {fresh o : ω} {I : ω → Prop} (hu : Used use fresh o)
    (h₀ : I fresh) (hstep : ∀ (σ : Type) (h : Handler σ α) (o o' : ω) (s s' : σ) out, I o →
      use σ h (o, s) = some (out, (o', s')) → I o') : I o := by
  induction hu with
  | unused => exact h₀
  | again _ huse ih => exact hstep _ _ _ _ _ _ _ ih huse

namespace NsReader

variable (config : Config) (doc : Bytes) (fresh : NsReader)

def view (r : NsReader) : List Bytes × List (Bytes × NsId) :=
  (r.registry.catalogue.uris, r.scope.bindings)

structure Between (r : NsReader) : Prop where
  grown : fresh.registry.Extends r.registry
  within : r.registry.Extends
    (Document.resolved config doc fresh.registry fresh.scope).state.registry
  bindings : r.scope.bindings = fresh.scope.bindings

variable {config doc fresh} {r : NsReader}

theorem Between.refl (config : Config) (doc : Bytes) (fresh : NsReader) :
    Between config doc fresh fresh :=
  ⟨.refl _, Resolver.extends_relay { registry := fresh.registry, scope := fresh.scope } _, rfl⟩

/-- A reading in between, whatever ends it, leaves the reader in between. -/
theorem Between.reading (hr : Between config doc fresh r) (h : Handler σ NsEvent) (s : σ)
    (reader : Reader) :
    let reading := Document.readResolved config doc r.registry r.scope h s
    Between config doc fresh ⟨reader, reading.registry, reading.scope⟩ := by
  obtain ⟨-, -, huris⟩ := Document.resolved_again hr.bindings hr.grown hr.within
  have hbehind : (Document.resolved config doc r.registry r.scope).state.registry.Extends
      (Document.resolved config doc fresh.registry fresh.scope).state.registry := by
    rw [Registry.extends_iff]
    exact huris ▸ List.prefix_refl _
  exact ⟨hr.grown.trans (Package.extends_readResolved config doc r.registry r.scope h s),
    (Document.readResolved_extends h s).trans hbehind,
    (Document.readResolved_bindings config doc r.registry r.scope h s).trans hr.bindings⟩

theorem Between.used (hu : Used (fun _ h => parse doc h config) fresh r) :
    Between config doc fresh r := by
  refine hu.invariant (.refl config doc fresh) fun σ h o o' s s' out ho huse => ?_
  obtain ⟨reader, hparse⟩ := parse_eq config doc h o s
  obtain rfl : _ = o' := congrArg (·.2.1) (Option.some.inj (hparse.symm.trans huse))
  exact ho.reading h s reader

theorem Between.usedTokens {lexicon : Lexicon}
    (hu : Used (fun _ h => parseTokens doc lexicon h config) fresh r) :
    Between config doc fresh r := by
  refine hu.invariant (.refl config doc fresh) fun σ h o o' s s' out ho huse => ?_
  obtain ⟨reader, hparse⟩ := parseTokens_eq config doc lexicon h o s
  obtain rfl : _ = o' := congrArg (·.2.1) (Option.some.inj (hparse.symm.trans huse))
  exact ho.reading (Stage.before (Batch.step lexicon) h) (.empty, s) reader

/-- What a reading comes to from a reader in between that no handler stops. -/
theorem Between.reading_tireless (hr : Between config doc fresh r) {h : Handler σ NsEvent}
    (hh : h.Tireless) (s : σ) :
    let reading := Document.readResolved config doc r.registry r.scope h s
    let whole := Document.resolved config doc fresh.registry fresh.scope
    reading.state = (h.feed s whole.delivered).1 ∧ reading.error = whole.error ∧
      reading.registry.catalogue.uris = whole.state.registry.catalogue.uris ∧
      reading.scope.bindings = fresh.scope.bindings := by
  obtain ⟨hdelivered, herror, huris⟩ := Document.resolved_again hr.bindings hr.grown hr.within
  obtain ⟨hstate, hstop, hleft⟩ :=
    Document.readResolved_feed config doc r.registry r.scope h s
  rw [hh.feed, Option.none_or] at hstop
  rw [hdelivered] at hstate
  have hregistry : (Document.readResolved config doc r.registry r.scope h s).registry =
      (Document.resolved config doc r.registry r.scope).state.registry :=
    congrArg Prod.fst (hleft (hh.feed _ _))
  have hbindings := Document.readResolved_bindings config doc r.registry r.scope h s
  exact ⟨hstate, hstop.trans herror, hregistry ▸ huris, hbindings.trans hr.bindings⟩

end NsReader

theorem Handler.Tireless.feed_recording {h : Handler σ α} (hh : h.Tireless) (s : σ) (as : List α) :
    (h.recording.feed ([], s) as).1 = (as, (h.recording.feed ([], s) as).1.2) :=
  Prod.ext (hh.recorded [] s as) rfl

theorem Reader.gives_parse (config : Config) (doc : Bytes) (reader : Reader) :
    let whole := Document.trace config doc
    Gives (fun _ h => parse doc h config) position reader whole.events (outcome whole.error)
      whole.position := by
  intro whole σ h s hh
  obtain ⟨p, hparse, hposition, -⟩ := Reader.parse_eq config doc h.recording ([], s) reader
  have hnone := hh.recording.feed ([], s) whole.events
  rw [Document.read_error, hnone, Option.none_or, Document.read_state, hh.feed_recording] at hparse
  rw [Document.read_position hnone] at hposition
  exact ⟨p, _, hparse, hposition⟩

namespace NsReader

variable {config : Config} {doc : Bytes} {fresh r : NsReader}

theorem Between.gives_parse (hr : Between config doc fresh r) :
    let whole := Document.resolved config doc fresh.registry fresh.scope
    Gives (fun _ h => parse doc h config) view r whole.delivered (outcome whole.error)
      (whole.state.registry.catalogue.uris, fresh.scope.bindings) := by
  intro whole σ h s hh
  obtain ⟨p, hparse⟩ := parse_eq config doc h.recording r ([], s)
  obtain ⟨hstate, herror, huris, hbindings⟩ := hr.reading_tireless hh.recording ([], s)
  rw [hstate, herror, hh.feed_recording] at hparse
  exact ⟨_, _, hparse, congrArg₂ Prod.mk huris hbindings⟩

theorem Between.gives_parseTokens (hr : Between config doc fresh r) (lexicon : Lexicon) :
    let whole := Document.resolved config doc fresh.registry fresh.scope
    let tokens := Stage.relay (Batch.step lexicon) .empty whole.delivered
    Gives (fun _ h => parseTokens doc lexicon h config) view r tokens.delivered
      (outcome whole.error) (whole.state.registry.catalogue.uris, fresh.scope.bindings) := by
  intro whole tokens σ h s hh
  obtain ⟨p, hparse⟩ := parseTokens_eq config doc lexicon h.recording r ([], s)
  obtain ⟨hstate, herror, huris, hbindings⟩ :=
    hr.reading_tireless (Batch.tireless_before hh.recording) (.empty, ([], s))
  obtain ⟨hbatch, -⟩ := Stage.feed_before (Batch.step lexicon) h.recording .empty ([], s)
    whole.delivered
  simp only [Document.readTokens] at hparse
  rw [hstate, herror, hbatch, hh.feed_recording] at hparse
  exact ⟨_, _, hparse, congrArg₂ Prod.mk huris hbindings⟩

end NsReader

/-- A document can be read again and again. Whatever readings an object has been used for, completed,
failed or stopped by their handlers, the next one that no handler stops hands over the same events as
the first would have and answers the same. For a document alone its offset is the same then too;
with namespaces and with tokens the registry has the same URIs under the same ids. -/
theorem readings_repeated (config : Config) (doc : Bytes) (lexicon : Lexicon) (reader : Reader)
    (fresh : NsReader) :
    (∀ reader', Used (fun _ h => Reader.parse doc h config) reader reader' →
      SameReading (fun _ h => Reader.parse doc h config) Reader.position reader reader') ∧
    (∀ r, Used (fun _ h => NsReader.parse doc h config) fresh r →
      SameReading (fun _ h => NsReader.parse doc h config) NsReader.view fresh r) ∧
    (∀ r, Used (fun _ h => NsReader.parseTokens doc lexicon h config) fresh r →
      SameReading (fun _ h => NsReader.parseTokens doc lexicon h config) NsReader.view fresh r) := by
  have hfresh := NsReader.Between.refl config doc fresh
  refine ⟨?_, ?_, ?_⟩
  · intro reader' _
    exact ⟨_, _, _, Reader.gives_parse config doc reader, Reader.gives_parse config doc reader'⟩
  · intro r hu
    have hr := NsReader.Between.used hu
    exact ⟨_, _, _, hfresh.gives_parse, hr.gives_parse⟩
  · intro r hu
    have hr := NsReader.Between.usedTokens hu
    exact ⟨_, _, _, hfresh.gives_parseTokens lexicon, hr.gives_parseTokens lexicon⟩

/-- Readings after one that its handler has stopped at its first event. Where a URI has been interned
by then, the next reading gives it the id that it has, and gives the other the next one. -/
theorem readings_repeated_stopped :
    let doc := utf8 "<a xmlns=\"u\"><b xmlns=\"v\"/></a>"
    let lexicon : Lexicon := ⟨⟨[]⟩, {}⟩
    let fresh : NsReader := { registry := {}, scope := .empty }
    let reading : Using Reader Event := fun _ h => Reader.parse doc h .lenient
    let resolving : Using NsReader NsEvent := fun _ h => NsReader.parse doc h .lenient
    let naming : Using NsReader TokenEvent := fun _ h => NsReader.parseTokens doc lexicon h .lenient
    let told : List NsEvent := [.startElement (.numbered 0) ⟨[], utf8 "a"⟩ ⟨0, 13⟩,
      .startElement (.numbered 1) ⟨[], utf8 "b"⟩ ⟨13, 27⟩,
      .endElement (.numbered 1) ⟨[], utf8 "b"⟩ ⟨13, 27⟩,
      .endElement (.numbered 0) ⟨[], utf8 "a"⟩ ⟨27, 31⟩]
    (∃ r, Used reading {} r ∧ r.position = 12 ∧ SameReading reading Reader.position {} r) ∧
      (∃ r, Used resolving fresh r ∧ r.registry.catalogue.uris = [utf8 "u"] ∧
        SameReading resolving NsReader.view fresh r ∧
        ∃ p kept, resolving _ Handler.keeping.recording (r, ([], [])) =
          some (.ok (), (p, (told, kept)))) ∧
      ∃ r, Used naming fresh r ∧ r.registry.catalogue.uris = [utf8 "u"] ∧
        SameReading naming NsReader.view fresh r := by
  intro doc lexicon fresh reading resolving naming told
  obtain ⟨hcore, hresolved, htokens⟩ := readings_repeated .lenient doc lexicon {} fresh
  have hstops : (Document.readResolved .lenient doc {} .empty
      (Handler.stopping 0 (Error.handler "stop")) 0).registry.catalogue.uris = [utf8 "u"] := by
    decide +kernel
  have hnamed : (Document.readTokens .lenient doc lexicon {} .empty
      (Handler.stopping 0 (Error.handler "stop")) 0).registry.catalogue.uris = [utf8 "u"] := by
    decide +kernel
  obtain ⟨htold, hends⟩ :
      let whole := Document.readResolved .lenient doc {} .empty Handler.keeping.recording ([], [])
      whole.state.1 = told ∧ whole.error = none := by
    decide +kernel
  refine ⟨?_, ?_, ?_⟩
  · obtain ⟨r, hparse, hposition, -⟩ := Reader.parse_eq .lenient doc
      (Handler.stopping 0 (Error.handler "stop")) 0 {}
    have hused : Used reading {} r := .again .unused hparse
    refine ⟨r, hused, hposition.trans ?_, hcore r hused⟩
    decide +kernel
  · obtain ⟨r, hparse⟩ := NsReader.parse_eq .lenient doc
      (Handler.stopping 0 (Error.handler "stop")) fresh 0
    have hused : Used resolving fresh _ := .again .unused hparse
    refine ⟨_, hused, hstops, hresolved _ hused, ?_⟩
    have hh : (Handler.keeping (α := NsEvent)).Tireless := fun _ _ => rfl
    obtain ⟨events, out, seen, hfresh, hagain⟩ := hresolved _ hused
    obtain ⟨p, kept, hfirst, -⟩ := hfresh _ Handler.keeping [] hh
    obtain ⟨p', kept', hnext, -⟩ := hagain _ Handler.keeping [] hh
    obtain ⟨q, hq⟩ := NsReader.parse_eq .lenient doc Handler.keeping.recording fresh ([], [])
    have hsame := Option.some.inj (hfirst.symm.trans hq)
    obtain rfl : events = told := (congrArg (·.2.2.1) hsame).trans htold
    obtain rfl : out = .ok () := (congrArg Prod.fst hsame).trans (congrArg outcome hends)
    exact ⟨p', kept', hnext⟩
  · obtain ⟨r, hparse⟩ := NsReader.parseTokens_eq .lenient doc lexicon
      (Handler.stopping 0 (Error.handler "stop")) fresh 0
    have hused : Used naming fresh _ := .again .unused hparse
    exact ⟨_, hused, hnamed, htokens _ hused⟩

end XmlStream
