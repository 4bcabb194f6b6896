import XmlStream.Proofs.Staging
/-! Calling. A handler may be called with events in any order, and goes on being called after it has
answered with an error. What the calls leave a stage in is then the stage's own affair: the handler
behind it has no part in it. -/
namespace XmlStream

variable {σ τ α β : Type}

def Handler.calls (h : Handler σ α) : σ → List α → σ × List (Option Error)
  | s, [] => (s, [])
  | s, a :: as =>
    let (s, answer) := h s a
    let (s, answers) := calls h s as
    (s, answer :: answers)

namespace Stage

variable {stage : Stage τ α β}

def through (stage : Stage τ α β) (t : τ) (as : List α) : τ :=
  as.foldl (fun t a => (stage t a).1) t

theorem through_append (t : τ) (as bs : List α) :
    stage.through t (as ++ bs) = stage.through (stage.through t as) bs :=
  List.foldl_append

theorem before_state (stage : Stage τ α β) (h : Handler σ β) (t : τ) (s : σ) (a : α) :
    (stage.before h (t, s) a).1.1 = (stage t a).1 := by
  rcases ht : stage t a with ⟨t', b | _ | e⟩ <;> simp only [before, ht]

theorem calls_before (stage : Stage τ α β) (h : Handler σ β) (t : τ) (s : σ) (as : List α) :
    ((stage.before h).calls (t, s) as).1.1 = stage.through t as := by
  induction as generalizing t s with
  | nil => rfl
  | cons a as ih =>
    have hstate := before_state stage h t s a
    rcases hs : stage.before h (t, s) a with ⟨⟨t', s'⟩, answer⟩
    rw [hs] at hstate
    obtain rfl : t' = (stage t a).1 := hstate
    simp only [Handler.calls, hs]
    exact ih _ s'

end Stage
end XmlStream
