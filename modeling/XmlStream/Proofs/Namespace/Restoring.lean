import XmlStream.Proofs.Namespace.Forwarding
import XmlStream.Vocabulary.Document
/-! Restoring: whatever ends a reading, the scope binds afterwards what it bound before. Where the
document ends well, its end tags have undone everything; otherwise what is held is undone at
once. -/
namespace XmlStream

namespace Scope

def pops (s : Scope) : List Bytes → List (Option NsId)
  | [] => []
  | key :: keys => (s.pop key).2 :: (s.pop key).1.pops keys

/-- Each key has the same bindings, means the same to every registry, and answers the same when its
bindings are undone in any order. -/
structure Alike (s s' : Scope) : Prop where
  stack : ∀ key, s.stack key = s'.stack key
  resolve : ∀ r key, s.resolve r key = s'.resolve r key
  pops : ∀ keys, s.pops keys = s'.pops keys

theorem Alike.of_bindings {s s' : Scope} (h : s.bindings = s'.bindings) : Alike s s' := by
  have hstack {s s' : Scope} (h : s.bindings = s'.bindings) (key : Bytes) :
      s.stack key = s'.stack key := by
    simp only [Scope.stack, h]
  refine ⟨hstack h, fun r key => ?_, fun keys => ?_⟩
  · rw [Scope.resolve, Scope.resolve, bound?, bound?, hstack h]
  · induction keys generalizing s s' with
    | nil => rfl
    | cons key keys ih =>
      have hpop : (s.pop key).1.bindings = (s'.pop key).1.bindings := by
        simp only [pop, unbind, h]
      have hbound : (s.pop key).2 = (s'.pop key).2 := by
        simp only [pop, bound?, hstack h]
      rw [Scope.pops, Scope.pops, hbound, ih hpop]

end Scope

variable {σ τ : Type}

namespace Document
open Lexical

theorem readResolved_bindings (config : Config) (doc : Bytes) (registry : Registry)
    (scope : Scope) (h : Handler σ NsEvent) (s : σ) :
    (readResolved config doc registry scope h s).scope.bindings = scope.bindings := by
  rw [readResolved_eq]
  simp only
  split
  · obtain ⟨held, hh⟩ := Stage.feed_before_invariant
      (I := fun r : Resolver => ∃ held, Resolver.Holds scope r.scope r.keys held)
      (fun r e ⟨_, hh⟩ => hh.step e) h (trace config doc).events (t := { registry, scope })
      ⟨[], rfl, rfl⟩ s
    exact hh.unwind
  · rename_i he
    obtain ⟨ho, hend⟩ := orderly_trace scope config doc
    obtain ⟨bs, hr⟩ := (Follows.start registry scope).runs ho h s
    rw [Bool.not_eq_true, Option.isSome_eq_false_iff, Option.isNone_iff_eq_none,
      Option.or_eq_none_iff] at he
    have hf := hr.follows he.1
    rw [hend he.2] at hf
    obtain ⟨held, hh, hb⟩ := hf.held
    cases hb
    exact hh.bindings

/-- No reading, with namespaces or with tokens, leaves a trace in the scope, be it that it ends
well, that the document is malformed, or that a handler stops it. -/
theorem scope_restored (config : Config) (doc : Bytes) (registry : Registry) (scope : Scope)
    (lexicon : Lexicon) (h : Handler σ NsEvent) (s : σ) (k : Handler τ TokenEvent) (t : τ) :
    (readResolved config doc registry scope h s).scope.Alike scope ∧
      (readTokens config doc lexicon registry scope k t).scope.Alike scope :=
  ⟨.of_bindings (readResolved_bindings config doc registry scope h s),
    .of_bindings (readResolved_bindings config doc registry scope
      (Stage.before (Batch.step lexicon) k) (.empty, t))⟩

end Document
end XmlStream
