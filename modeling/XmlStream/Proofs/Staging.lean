import XmlStream.Proofs.Handing
/-! Staging. What a stage delivers does not depend on the handler behind it: the handler is handed
the stage's own deliveries, and stops the stage where it stops. -/
namespace XmlStream

def Passing.error? {β : Type} : Passing β → Option Error
  | .reject e => some e
  | .deliver _ | .absorb => none

namespace Stage

variable {σ τ α β : Type} {stage : Stage τ α β} {h : Handler σ β} {t t' : τ} {s : σ} {a : α}

theorem before_deliver {b : β} (ht : stage t a = (t', .deliver b)) :
    stage.before h (t, s) a = ((t', (h s b).1), (h s b).2) := by
  simp [before, ht]

theorem before_absorb (ht : stage t a = (t', .absorb)) :
    stage.before h (t, s) a = ((t', s), none) := by
  simp [before, ht]

theorem before_reject {e : Error} (ht : stage t a = (t', .reject e)) :
    stage.before h (t, s) a = ((t', s), some e) := by
  simp [before, ht]

/-- What has become of some events: the state they leave the stage in, those it has delivered, and
the error that it rejects one of them with. -/
structure Relay (τ β : Type) where
  state : τ
  delivered : List β
  error : Option Error

def relay (stage : Stage τ α β) : τ → List α → Relay τ β
  | t, [] => ⟨t, [], none⟩
  | t, a :: as =>
    match stage t a with
    | (t, .deliver b) => { relay stage t as with delivered := b :: (relay stage t as).delivered }
    | (t, .absorb) => relay stage t as
    | (t, .reject e) => ⟨t, [], some e⟩

/-- The handler's error comes before the stage's own. -/
theorem feed_before (stage : Stage τ α β) (h : Handler σ β) (t : τ) (s : σ) (as : List α) :
    let fed := h.feed s (stage.relay t as).delivered
    (Handler.feed (stage.before h) (t, s) as).1.2 = fed.1 ∧
      (Handler.feed (stage.before h) (t, s) as).2 = fed.2.or (stage.relay t as).error := by
  induction as generalizing t s with
  | nil => exact ⟨rfl, rfl⟩
  | cons a as ih =>
    rcases ht : stage t a with ⟨t', b | _ | e⟩
    · simp only [relay, ht, Handler.feed, before_deliver ht]
      rcases h s b with ⟨s', _ | e⟩
      · exact ih t' s'
      · exact ⟨rfl, rfl⟩
    · simp only [relay, ht, Handler.feed, before_absorb ht]
      exact ih t' s
    · simp [relay, ht, Handler.feed, before_reject ht]

/-- A handler that takes all that a stage delivers does not stop the stage. -/
theorem state_feed_before_of_feed {as : List α}
    (hs : (h.feed s (stage.relay t as).delivered).2 = none) :
    (Handler.feed (stage.before h) (t, s) as).1.1 = (stage.relay t as).state := by
  induction as generalizing t s with
  | nil => rfl
  | cons a as ih =>
    rcases ht : stage t a with ⟨t', b | _ | e⟩
    · simp only [relay, ht] at hs ⊢
      rcases hb : h s b with ⟨s', _ | e⟩
      · rw [Handler.feed_of_none hb] at hs
        rw [Handler.feed_of_none (by rw [before_deliver ht, hb])]
        exact ih hs
      · rw [Handler.feed_of_some hb] at hs
        cases hs
    · simp only [relay, ht] at hs ⊢
      rw [Handler.feed_of_none (before_absorb ht)]
      exact ih hs
    · simp only [relay, ht, Handler.feed_of_some (before_reject ht)]

theorem state_feed_before (stage : Stage τ α β) (hh : h.Tireless) (t : τ) (s : σ) (as : List α) :
    (Handler.feed (stage.before h) (t, s) as).1.1 = (stage.relay t as).state :=
  state_feed_before_of_feed (hh.feed _ _)

/-- What every step of a stage keeps up holds of it when it is done, whatever stops it. -/
theorem feed_before_invariant {I : τ → Prop} (hstep : ∀ t a, I t → I (stage t a).1)
    (h : Handler σ β) (as : List α) {t : τ} (ht : I t) (s : σ) :
    I (Handler.feed (stage.before h) (t, s) as).1.1 := by
  induction as generalizing t s with
  | nil => exact ht
  | cons a as ih =>
    have ht' := hstep t a ht
    rcases hs : stage t a with ⟨t', b | _ | e⟩ <;> rw [hs] at ht'
    · simp only [Handler.feed, before_deliver hs]
      rcases h s b with ⟨s', _ | e⟩
      · exact ih ht' s'
      · exact ht'
    · simp only [Handler.feed, before_absorb hs]
      exact ih ht' s
    · simp only [Handler.feed, before_reject hs]
      exact ht'

theorem feed_before_recording (stage : Stage τ α β) (h : Handler σ β) (t : τ) (seen : List β)
    (s : σ) (as : List α) :
    let out := Handler.feed (stage.before h) (t, s) as
    let out' := Handler.feed (stage.before (Handler.recording h)) (t, (seen, s)) as
    out'.1.1 = out.1.1 ∧ out'.1.2.2 = out.1.2 ∧ out'.2 = out.2 := by
  induction as generalizing t seen s with
  | nil => exact ⟨rfl, rfl, rfl⟩
  | cons a as ih =>
    rcases ht : stage t a with ⟨t', b | _ | e⟩
    · simp only [Handler.feed, before_deliver ht, Handler.recording]
      rcases h s b with ⟨s', _ | e⟩
      · exact ih t' _ s'
      · exact ⟨rfl, rfl, rfl⟩
    · simp only [Handler.feed, before_absorb ht]
      exact ih t' seen s
    · simp [Handler.feed, before_reject ht]

theorem error_relay_cons (t : τ) (a : α) (as : List α) : (stage.relay t (a :: as)).error =
    (stage t a).2.error?.or (stage.relay (stage t a).1 as).error := by
  rcases ht : stage t a with ⟨t', b | _ | e⟩ <;> simp only [relay, ht] <;> rfl

/-- The rest of some events goes on from where a beginning of them leaves the stage. -/
theorem error_relay_append (t : τ) (as bs : List α) : (stage.relay t (as ++ bs)).error =
    (stage.relay t as).error.or (stage.relay (stage.relay t as).state bs).error := by
  induction as generalizing t with
  | nil => rfl
  | cons a as ih =>
    rcases ht : stage t a with ⟨t', b | _ | e⟩ <;> simp only [List.cons_append, relay, ht]
    · exact ih t'
    · exact ih t'
    · exact Option.some_or.symm

/-- The event that is rejected, and those before it that are not. -/
theorem exists_of_relay_error {as : List α} {e : Error} (h : (stage.relay t as).error = some e) :
    ∃ u a w, as = u ++ a :: w ∧ (stage.relay t u).error = none ∧
      (stage (stage.relay t u).state a).2.error? = some e := by
  induction as generalizing t with
  | nil => cases h
  | cons a as ih =>
    rcases ht : stage t a with ⟨t', b | _ | e'⟩ <;> simp only [relay, ht] at h
    · obtain ⟨u, a', w, rfl, hu⟩ := ih h
      exact ⟨a :: u, a', w, rfl, by simpa only [relay, ht] using hu⟩
    · obtain ⟨u, a', w, rfl, hu⟩ := ih h
      exact ⟨a :: u, a', w, rfl, by simpa only [relay, ht] using hu⟩
    · cases h
      exact ⟨[], a, as, rfl, rfl, by simp only [relay, ht, Passing.error?]⟩

end Stage
end XmlStream
