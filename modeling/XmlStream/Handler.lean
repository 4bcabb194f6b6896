import XmlStream.Error
/-! Handlers: a state that takes events one by one and may stop with an error. A stage stands
before a handler: it turns each event into one of its own, swallows it, or stops with an error. -/
namespace XmlStream

variable {σ τ α β : Type}

/-- The state after an event and the error it stops with, if any. -/
abbrev Handler (σ α : Type) := σ → α → σ × Option Error

inductive Passing (β : Type) where
  | deliver (event : β)
  | absorb
  | reject (error : Error)

abbrev Stage (τ α β : Type) := τ → α → τ × Passing β

/-- The stage takes each event first; its own state is complete before the handler sees anything,
so an error of the handler loses nothing of it. -/
def Stage.before (stage : Stage τ α β) (h : Handler σ β) : Handler (τ × σ) α := fun (t, s) a =>
  match stage t a with
  | (t, .deliver b) =>
    let (s, e) := h s b
    ((t, s), e)
  | (t, .absorb) => ((t, s), none)
  | (t, .reject e) => ((t, s), some e)

end XmlStream
