import XmlStream.Namespace.Resolver
/-! What a resolver holds: the bindings it has made and not undone, on top of those it found. It
undoes by key, and since it goes from the newest to the oldest, that undoes each binding itself. -/
namespace XmlStream

theorem Scope.bindings_foldl_unbind {s : Scope} {u v : List (Bytes × NsId)}
    (h : s.bindings = u ++ v) : ((u.map (·.1)).foldl unbind s).bindings = v := by
  induction u generalizing s with
  | nil => exact h
  | cons b u ih => exact ih (by simp [unbind, h])

namespace Resolver

/-- Over a context, the bindings that a scope with these keys holds, the newest first. -/
structure Holds (context scope : Scope) (keys : List Bytes) (held : List (Bytes × NsId)) :
    Prop where
  bindings : scope.bindings = held ++ context.bindings
  keys : keys = (held.map (·.1)).reverse

variable {context : Scope} {r : Resolver} {held : List (Bytes × NsId)}

theorem Holds.declare (h : Holds context r.scope r.keys held) (key uri : Bytes) :
    Holds context (r.declare key uri).scope (r.declare key uri).keys
      ((key, (r.registry.intern uri).2) :: held) :=
  ⟨by simp [Resolver.declare, Scope.push, Scope.bind, h.bindings],
    by simp [Resolver.declare, h.keys]⟩

/-- Keys are undone down to a mark, and so are just the bindings above it. -/
theorem Holds.release (h : Holds context r.scope r.keys held) (n : Nat) :
    Holds context (r.release n).scope (r.release n).keys (held.drop (held.length - n)) := by
  have hk : (r.keys.drop n).reverse = (held.take (held.length - n)).map (·.1) := by
    rw [h.keys, List.drop_reverse, List.reverse_reverse, List.length_map, List.map_take]
  constructor
  · rw [Resolver.release, hk]
    apply Scope.bindings_foldl_unbind
    rw [h.bindings, ← List.append_assoc, List.take_append_drop]
  · rw [Resolver.release, h.keys, List.take_reverse, List.length_map, List.map_drop]

theorem Holds.unwind (h : Holds context r.scope r.keys held) :
    r.unwind.scope.bindings = context.bindings := by
  have := (h.release 0).bindings
  simpa [Resolver.unwind] using this

theorem Holds.step (h : Holds context r.scope r.keys held) (e : Event) :
    ∃ held', Holds context (r.step e).1.scope (r.step e).1.keys held' := by
  cases e with
  | doctype | startDeclaration | endDeclaration | characters => exact ⟨held, h⟩
  | startElement name extent => exact ⟨held, h⟩
  | attr name value =>
    simp only [Resolver.step, attr]
    split
    · exact ⟨held, h⟩
    · split
      · exact ⟨_, h.declare [] value.bytes⟩
      · split
        · exact ⟨_, h.declare name.localName value.bytes⟩
        · split <;> exact ⟨held, h⟩
  | endElement name extent =>
    simp only [Resolver.step, endElement]
    split
    · exact ⟨held, h⟩
    · rename_i frame frames _
      split
      · exact ⟨_, Holds.release (r := { (r.resolve name.qualifier).1 with frames }) h _⟩
      · exact ⟨held, h⟩

end Resolver
end XmlStream
