import XmlStream.Proofs.Batching
/-! Stopping. What a handler is handed does not depend on it until it stops the reading, through
any stages before it: it has then been handed the beginning of what one that never stops is handed,
and its error is the error of the reading. -/
namespace XmlStream

variable {σ τ α β : Type}

namespace Handler

/-- Handed these events, the handler takes the first `n` and stops at the next with an error. -/
def StopsAt (h : Handler σ α) (s : σ) (as : List α) (n : Nat) (e : Error) : Prop :=
  (h.feed s (as.take n)).2 = none ∧ ∀ a, as[n]? = some a → (h (h.feed s (as.take n)).1 a).2 = some e

def stopping (n : Nat) (e : Error) : Handler Nat α := fun taken _ =>
  (taken + 1, if taken = n then some e else none)

theorem feed_stopping {n : Nat} {e : Error} {as : List α} {taken : Nat}
    (h : taken + as.length ≤ n) :
    (stopping n e).feed taken as = (taken + as.length, none) := by
  induction as generalizing taken with
  | nil => rfl
  | cons a as ih =>
    rw [List.length_cons] at h ⊢
    have hs : stopping n e taken a = (taken + 1, none) := by
      simp only [stopping, if_neg (show taken ≠ n by omega)]
    rw [feed_of_none hs, ih (by omega), Nat.add_assoc, Nat.add_comm 1]

theorem stopsAt_stopping (n : Nat) (e : Error) (as : List α) :
    (stopping n e).StopsAt 0 as n e := by
  have htake : 0 + (as.take n).length ≤ n := by
    rw [Nat.zero_add]
    exact List.length_take_le n as
  have hfed : (stopping n e).feed 0 (as.take n) = _ := feed_stopping htake
  refine ⟨by rw [hfed], fun a ha => ?_⟩
  have hn : n < as.length := (List.getElem?_eq_some_iff.1 ha).1
  rw [hfed, Nat.zero_add, List.length_take_of_le (Nat.le_of_lt hn)]
  simp only [stopping, if_true]

/-- A handler that stops at an event has been handed it and those before it, and none after it. -/
theorem StopsAt.feed {h : Handler σ α} {s : σ} {as : List α} {n : Nat} {e : Error}
    (hs : h.StopsAt s as n e) (seen : List α) :
    (h.recording.feed (seen, s) as).1.1 = seen ++ as.take (n + 1) ∧
      (h.recording.feed (seen, s) as).2 = as[n]?.map fun _ => e := by
  induction as generalizing n seen s with
  | nil => exact ⟨(List.append_nil seen).symm, rfl⟩
  | cons a as ih =>
    cases n with
    | zero =>
      have ha : h s a = ((h s a).1, some e) := Prod.ext rfl (hs.2 a rfl)
      rw [feed_of_some (recording_eq ha seen)]
      exact ⟨rfl, rfl⟩
    | succ n =>
      obtain ⟨htaken, hstop⟩ := hs
      rw [List.take_succ_cons] at htaken hstop
      rcases ha : h s a with ⟨s', _ | e'⟩
      · rw [feed_of_none ha] at htaken hstop
        obtain ⟨hseen, herror⟩ := ih ⟨htaken, hstop⟩ (seen ++ [a])
        rw [feed_of_none (recording_eq ha seen), hseen, List.append_assoc]
        exact ⟨rfl, herror⟩
      · rw [feed_of_some ha] at htaken
        cases htaken

end Handler

structure Account (α ω : Type) where
  events : List α
  error : Option Error
  left : ω

namespace Account

variable {ω : Type} {as : List α} {error : Option Error} {left : ω} {whole part : Account α ω}
  {n : Nat} {e : Error}

structure Cut (whole : Account α ω) (n : Nat) (e : Error) (part : Account α ω) : Prop where
  stopped : n < whole.events.length →
    part.events = whole.events.take (n + 1) ∧ part.error = some e
  ended : whole.events.length ≤ n → part = whole

/-- The account of handing some events to a handler, whose error comes before that of the reading.
What else is left is as it is unless the handler stops. -/
structure Hands (as : List α) (error : Option Error) (left : ω) (h : Handler σ α) (s : σ)
    (account : Account α ω) : Prop where
  events : account.events = (h.recording.feed ([], s) as).1.1
  error : account.error = (h.recording.feed ([], s) as).2.or error
  left : (h.recording.feed ([], s) as).2 = none → account.left = left

theorem Hands.tireless {h : Handler σ α} {s : σ} (hw : Hands as error left h s whole)
    (hh : h.Tireless) : whole = ⟨as, error, left⟩ := by
  obtain ⟨events, error', left'⟩ := whole
  obtain ⟨hevents, herror, hleft⟩ := hw
  have hnone := hh.recording.feed ([], s) as
  rw [hh.recorded, List.nil_append] at hevents
  rw [hnone, Option.none_or] at herror
  cases hevents
  cases herror
  cases hleft hnone
  rfl

theorem Hands.cut {h : Handler σ α} {k : Handler τ α} {s : σ} {t : τ}
    (hw : Hands as error left h s whole) (hp : Hands as error left k t part) (hh : h.Tireless)
    (hk : k.StopsAt t whole.events n e) : whole.Cut n e part := by
  obtain rfl := hw.tireless hh
  obtain ⟨hevents, herror⟩ := hk.feed []
  refine ⟨fun hn => ?_, fun hn => ?_⟩
  · have hn : n < as.length := hn
    rw [hp.events, hp.error, hevents, herror, List.getElem?_eq_getElem hn]
    exact ⟨rfl, rfl⟩
  · have hn : as.length ≤ n := hn
    rw [List.getElem?_eq_none hn, Option.map_none] at herror
    rw [List.nil_append, List.take_of_length_le (by omega)] at hevents
    obtain ⟨events, error', left'⟩ := part
    obtain ⟨hevents', herror', hleft⟩ := hp
    rw [hevents] at hevents'
    rw [herror, Option.none_or] at herror'
    cases hevents'
    cases herror'
    cases hleft herror
    rfl

end Account

/-- A batch is never what stops a reading. -/
theorem Batch.error_relay (l : Lexicon) (b : Batch) (es : List NsEvent) :
    (Stage.relay (step l) b es).error = none := by
  induction es generalizing b with
  | nil => rfl
  | cons e es ih => cases e <;> exact ih _

namespace Document

def account (config : Config) (doc : Bytes) (h : Handler σ Event) (s : σ) : Account Event Nat :=
  let r := read config doc h.recording ([], s)
  ⟨r.state.1, r.error, r.position⟩

def accountResolved (config : Config) (doc : Bytes) (registry : Registry) (scope : Scope)
    (h : Handler σ NsEvent) (s : σ) : Account NsEvent (Registry × Scope) :=
  let r := readResolved config doc registry scope h.recording ([], s)
  ⟨r.state.1, r.error, r.registry, r.scope⟩

def accountTokens (config : Config) (doc : Bytes) (lexicon : Lexicon) (registry : Registry)
    (scope : Scope) (h : Handler σ TokenEvent) (s : σ) : Account TokenEvent (Registry × Scope) :=
  let r := readTokens config doc lexicon registry scope h.recording ([], s)
  ⟨r.state.1, r.error, r.registry, r.scope⟩

theorem hands_account (config : Config) (doc : Bytes) (h : Handler σ Event) (s : σ) :
    Account.Hands (trace config doc).events (trace config doc).error (trace config doc).position
      h s (account config doc h s) :=
  ⟨by rw [account, read_state], read_error .., read_position⟩

def resolved (config : Config) (doc : Bytes) (registry : Registry) (scope : Scope) :
    Stage.Relay Resolver NsEvent :=
  let relay := Stage.relay Resolver.step { registry, scope } (trace config doc).events
  { relay with error := relay.error.or (trace config doc).error }

def leftover (r : Stage.Relay Resolver NsEvent) : Registry × Scope :=
  (r.state.registry, if r.error.isSome then r.state.unwind.scope else r.state.scope)

theorem readResolved_feed (config : Config) (doc : Bytes) (registry : Registry) (scope : Scope)
    (h : Handler σ NsEvent) (s : σ) :
    let r := resolved config doc registry scope
    let fed := h.feed s r.delivered
    let reading := readResolved config doc registry scope h s
    reading.state = fed.1 ∧ reading.error = fed.2.or r.error ∧
      (fed.2 = none → (reading.registry, reading.scope) = leftover r) := by
  obtain ⟨hstate, herror⟩ := Stage.feed_before Resolver.step h { registry, scope } s
    (trace config doc).events
  simp only [readResolved_eq, hstate, herror, resolved, Option.or_assoc, leftover, true_and]
  intro hs
  rw [Stage.state_feed_before_of_feed hs, hs, Option.none_or]
  rfl

theorem hands_accountResolved (config : Config) (doc : Bytes) (registry : Registry) (scope : Scope)
    (h : Handler σ NsEvent) (s : σ) :
    let r := resolved config doc registry scope
    Account.Hands r.delivered r.error (leftover r) h s
      (accountResolved config doc registry scope h s) := by
  obtain ⟨hstate, herror, hleft⟩ :=
    readResolved_feed config doc registry scope h.recording ([], s)
  exact ⟨congrArg Prod.fst hstate, herror, hleft⟩

theorem hands_accountTokens (config : Config) (doc : Bytes) (lexicon : Lexicon)
    (registry : Registry) (scope : Scope) (h : Handler σ TokenEvent) (s : σ) :
    let r := resolved config doc registry scope
    Account.Hands (Stage.relay (Batch.step lexicon) .empty r.delivered).delivered r.error
      (leftover r) h s (accountTokens config doc lexicon registry scope h s) := by
  intro r
  obtain ⟨hstate, herror, hleft⟩ := readResolved_feed config doc registry scope
    (Stage.before (Batch.step lexicon) h.recording) (.empty, ([], s))
  obtain ⟨hbatch, hstop⟩ := Stage.feed_before (Batch.step lexicon) h.recording .empty ([], s)
    r.delivered
  rw [Batch.error_relay, Option.or_none] at hstop
  refine ⟨?_, ?_, fun hs => hleft (hstop.trans hs)⟩
  · exact congrArg Prod.fst ((congrArg Prod.snd hstate).trans hbatch)
  · exact herror.trans (by rw [hstop])

/-- A handler that stops a reading sees just the beginning of it. Beside a reading that no handler
stops, one with a handler that stops at event `n` hands over the same events up to this one and ends
with its error, if there are so many; otherwise nothing tells the two apart. So it is for a document
alone, with namespaces and with tokens. -/
theorem readings_cut (config : Config) (doc : Bytes) (registry : Registry) (scope : Scope)
    (lexicon : Lexicon) (n : Nat) (e : Error) :
    (∀ (h : Handler σ Event) (k : Handler τ Event) (s : σ) (t : τ), h.Tireless →
      let whole := account config doc h s
      k.StopsAt t whole.events n e → whole.Cut n e (account config doc k t)) ∧
    (∀ (h : Handler σ NsEvent) (k : Handler τ NsEvent) (s : σ) (t : τ), h.Tireless →
      let whole := accountResolved config doc registry scope h s
      k.StopsAt t whole.events n e → whole.Cut n e (accountResolved config doc registry scope k t)) ∧
    (∀ (h : Handler σ TokenEvent) (k : Handler τ TokenEvent) (s : σ) (t : τ), h.Tireless →
      let whole := accountTokens config doc lexicon registry scope h s
      k.StopsAt t whole.events n e →
        whole.Cut n e (accountTokens config doc lexicon registry scope k t)) := by
  refine ⟨?_, ?_, ?_⟩ <;> intro h k s t hh whole hk
  · exact (hands_account config doc h s).cut (hands_account config doc k t) hh hk
  · exact (hands_accountResolved config doc registry scope h s).cut
      (hands_accountResolved config doc registry scope k t) hh hk
  · exact (hands_accountTokens config doc lexicon registry scope h s).cut
      (hands_accountTokens config doc lexicon registry scope k t) hh hk

/-- The third of four events. With tokens there are three, for the attribute is no event. -/
theorem readings_cut_third :
    let doc := utf8 "<a b=\"c\"><d/>"
    let counting {α : Type} : Handler Nat α := fun n _ => (n + 1, none)
    let stop := Error.handler "stop"
    let told := account .lenient doc counting 0
    let resolved := accountResolved .lenient doc {} {} counting 0
    let tokens := accountTokens .lenient doc ⟨⟨[]⟩, {}⟩ {} {} counting 0
    told.Cut 2 stop (account .lenient doc (Handler.stopping 2 stop) 0) ∧
      resolved.Cut 2 stop (accountResolved .lenient doc {} {} (Handler.stopping 2 stop) 0) ∧
      tokens.Cut 2 stop (accountTokens .lenient doc ⟨⟨[]⟩, {}⟩ {} {} (Handler.stopping 2 stop) 0) ∧
      told.events.length = 4 ∧ resolved.events.length = 4 ∧ tokens.events.length = 3 := by
  intro doc counting stop told resolved tokens
  obtain ⟨hcore, hresolved, htokens⟩ := readings_cut (σ := Nat) (τ := Nat) .lenient doc {} {}
    ⟨⟨[]⟩, {}⟩ 2 stop
  have hstops {α : Type} (as : List α) : (Handler.stopping 2 stop).StopsAt 0 as 2 stop :=
    Handler.stopsAt_stopping 2 stop as
  refine ⟨hcore counting _ 0 0 (fun _ _ => rfl) (hstops _),
    hresolved counting _ 0 0 (fun _ _ => rfl) (hstops _),
    htokens counting _ 0 0 (fun _ _ => rfl) (hstops _), ?_⟩
  decide +kernel

end Document
end XmlStream
