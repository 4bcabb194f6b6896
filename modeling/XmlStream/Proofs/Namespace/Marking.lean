import XmlStream.Proofs.Calling
import XmlStream.Proofs.Words
import XmlStream.Proofs.Namespace.Growing
import XmlStream.Proofs.Namespace.Restoring
/-! Marking. A resolver holds its keys in one list, with a mark in each frame for where those of its
element begin. A mark never points beyond the keys, and each key that is held stands for just one
binding of the scope, whoever calls the resolver, in whatever order, and however often a call is
refused half-way. So it can always be unwound, and is then as good as new. -/
namespace XmlStream

variable {σ : Type}

namespace Resolver
open Lexical (Bindings Bound Meaning)

structure Marked (r : Resolver) : Prop where
  descending : (r.frames.map (·.keysFrom)).Pairwise (· ≥ ·)
  frames_le : ∀ f ∈ r.frames, f.keysFrom ≤ r.pendingFrom
  pending_le : r.pendingFrom ≤ r.keys.length

def binding? (r : Resolver) : Event → Option (Bytes × Bytes)
  | .attr name value => if r.inDeclaration then none else Lexical.binding? name value
  | _ => none

inductive Moves (r : Resolver) : Event → Resolver → Prop
  | stay {e} (registry : Registry) (seen : List (NsId × Bytes)) (inDeclaration : Bool) :
      r.binding? e = none → e.isStart = false → (e.isEnd = true → r.frames = []) →
      Moves r e { r with registry, seen, inDeclaration }
  | declare {name value key uri} : r.binding? (.attr name value) = some (key, uri) →
      Moves r (.attr name value) (r.declare key uri)
  | start {name extent} (registry : Registry) (ns : NsId) :
      Moves r (.startElement name extent)
        { r with
          registry
          frames := ⟨ns, name.localName, r.pendingFrom⟩ :: r.frames
          pendingFrom := r.keys.length
          seen := [] }
  | close {name extent frame frames} (registry : Registry) : r.frames = frame :: frames →
      frame.localName = name.localName →
      Moves r (.endElement name extent)
        (({ r with registry, frames } : Resolver).release frame.keysFrom)
  | mismatch {name extent frame frames} (registry : Registry) : r.frames = frame :: frames →
      Moves r (.endElement name extent) { r with registry, frames }

variable {context : Scope} {r r' : Resolver} {e : Event} {held : Bindings}

theorem moves_attr (r : Resolver) (name : QName) (value : Span) :
    Moves r (.attr name value) (r.attr name value).1 := by
  have hbinding : r.binding? (.attr name value) =
      if r.inDeclaration then none else Lexical.binding? name value := rfl
  unfold attr
  split
  · rename_i hd
    rw [if_pos hd] at hbinding
    exact .stay r.registry r.seen r.inDeclaration hbinding rfl nofun
  rename_i hd
  rw [if_neg hd, Lexical.binding?] at hbinding
  split
  · rename_i hx
    rw [if_pos hx] at hbinding
    exact .declare hbinding
  rename_i hx
  rw [if_neg hx] at hbinding
  split
  · rename_i hq
    rw [if_pos hq] at hbinding
    exact .declare hbinding
  · rename_i hq
    rw [if_neg hq] at hbinding
    simp only
    split
    · exact .stay _ r.seen r.inDeclaration hbinding rfl nofun
    · exact .stay _ _ r.inDeclaration hbinding rfl nofun

theorem moves_endElement (r : Resolver) (name : QName) (extent : Extent) :
    Moves r (.endElement name extent) (r.endElement name extent).1 := by
  simp only [endElement]
  split
  · rename_i hf
    exact .stay _ r.seen r.inDeclaration rfl rfl fun _ => hf
  · rename_i frame frames hf
    split
    · rename_i hm
      exact .close _ hf hm.2
    · exact .mismatch _ hf

theorem moves_step (r : Resolver) (e : Event) : Moves r e (r.step e).1 := by
  cases e with
  | doctype | characters => exact .stay r.registry r.seen r.inDeclaration rfl rfl nofun
  | startDeclaration => exact .stay r.registry r.seen true rfl rfl nofun
  | endDeclaration => exact .stay r.registry r.seen false rfl rfl nofun
  | attr name value => exact r.moves_attr name value
  | startElement name extent => exact .start _ _
  | endElement name extent => exact r.moves_endElement name extent

/-! Marks stay inside the keys. -/

theorem Marked.fresh (registry : Registry) (scope : Scope) : Marked { registry, scope } :=
  ⟨.nil, nofun, Nat.le_refl 0⟩

/-- The keys of the innermost element can be taken off, with those that came later. -/
theorem Marked.release {frame : Frame} {frames : List Frame} (h : r.Marked)
    (hf : r.frames = frame :: frames) (registry : Registry) :
    (({ r with registry, frames } : Resolver).release frame.keysFrom).Marked := by
  obtain ⟨hdescending, hframes, hpending⟩ := h
  rw [hf] at hdescending hframes
  have hkept : (r.keys.take frame.keysFrom).length = frame.keysFrom :=
    List.length_take_of_le (Nat.le_trans (hframes frame (List.mem_cons_self ..)) hpending)
  rw [List.map_cons, List.pairwise_cons] at hdescending
  constructor
  · exact hdescending.2
  · intro f hmem
    rw [Resolver.release, hkept]
    exact hdescending.1 _ (List.mem_map_of_mem hmem)
  · exact Nat.le_refl _

theorem Marked.moves (h : r.Marked) (hm : Moves r e r') : r'.Marked := by
  cases hm with
  | stay => exact ⟨h.descending, h.frames_le, h.pending_le⟩
  | declare =>
    refine ⟨h.descending, h.frames_le, Nat.le_trans h.pending_le ?_⟩
    simp [Resolver.declare]
  | start =>
    refine ⟨?_, ?_, Nat.le_refl _⟩
    · rw [List.map_cons, List.pairwise_cons, List.forall_mem_map]
      exact ⟨h.frames_le, h.descending⟩
    · rw [List.forall_mem_cons]
      exact ⟨h.pending_le, fun f hf => Nat.le_trans (h.frames_le f hf) h.pending_le⟩
  | close registry hf => exact h.release hf registry
  | mismatch registry hf =>
    obtain ⟨hdescending, hframes, hpending⟩ := h
    rw [hf] at hdescending hframes
    exact ⟨(List.pairwise_cons.1 hdescending).2, (List.forall_mem_cons.1 hframes).2, hpending⟩

/-! Each key that is held stands for one binding, that of the call which had it held. -/

/-- What is held after a call that leaves so many keys, the newest first. What the call binds comes on
top, and with the keys that it takes off go their bindings. -/
def heldAfter (r : Resolver) (held : Bindings) (e : Event) (left : Nat) : Bindings :=
  let grown := (r.binding? e).toList ++ held
  grown.drop (grown.length - left)

def holding (r : Resolver) (held : Bindings) : List Event → Bindings
  | [] => held
  | e :: es => holding (r.step e).1 (r.heldAfter held e (r.step e).1.keys.length) es

def idsOf (registry : Registry) (bs : Bindings) : List NsId :=
  bs.map fun b => (Meaning.uri b.2).id registry

/-- Marks are inside the keys, and the scope has what is held on top of what it had before. -/
structure Keeps (context : Scope) (r : Resolver) (held : Bindings) : Prop where
  marked : r.Marked
  held : ∃ ids, Holds context r.scope r.keys ids ∧ List.Forall₂ (Bound r.registry) held ids

theorem Keeps.fresh (registry : Registry) (scope : Scope) : Keeps scope { registry, scope } [] :=
  ⟨.fresh registry scope, [], ⟨rfl, rfl⟩, .nil⟩

theorem Holds.length_eq {ids : List (Bytes × NsId)} (h : Holds context r.scope r.keys ids) :
    r.keys.length = ids.length := by
  rw [h.keys, List.length_reverse, List.length_map]

theorem heldAfter_of_binding (hb : r.binding? e = none) {left : Nat} (hleft : left = held.length) :
    r.heldAfter held e left = held := by
  simp [heldAfter, hb, hleft]

theorem Keeps.moves (h : Keeps context r held) (hm : Moves r e r')
    (hr : r.registry.Extends r'.registry) :
    Keeps context r' (r.heldAfter held e r'.keys.length) := by
  obtain ⟨hmarked, ids, hholds, hbound⟩ := h
  have hlength : r.keys.length = held.length := hholds.length_eq.trans hbound.length_eq.symm
  have hgrown := hbound.imp fun _ _ (hb : Bound r.registry _ _) =>
    (⟨hb.1, hb.2.mono hr⟩ : Bound r'.registry _ _)
  refine ⟨hmarked.moves hm, ?_⟩
  cases hm with
  | stay registry seen inDeclaration hb =>
    simp only [heldAfter_of_binding hb hlength]
    exact ⟨ids, hholds, hgrown⟩
  | @start name extent =>
    simp only [heldAfter_of_binding (r := r) (e := .startElement name extent) rfl hlength]
    exact ⟨ids, hholds, hgrown⟩
  | @mismatch name extent =>
    simp only [heldAfter_of_binding (r := r) (e := .endElement name extent) rfl hlength]
    exact ⟨ids, hholds, hgrown⟩
  | @declare name value key uri hb =>
    have hheld : r.heldAfter held (.attr name value) (r.declare key uri).keys.length =
        (key, uri) :: held := by
      simp [heldAfter, hb, Resolver.declare, hlength]
    rw [hheld]
    exact ⟨_, hholds.declare key uri, .cons ⟨rfl, (r.registry.intern_spec uri).2⟩ hgrown⟩
  | @close name extent frame frames registry hf =>
    have hdrop : held.length - (r.keys.take frame.keysFrom).length =
        ids.length - frame.keysFrom := by
      rw [List.length_take, ← hholds.length_eq, hlength]
      omega
    have hheld : r.heldAfter held (.endElement name extent) (r.keys.take frame.keysFrom).length =
        held.drop (ids.length - frame.keysFrom) := congrArg held.drop hdrop
    refine ⟨_, Holds.release (r := { r with registry, frames }) hholds frame.keysFrom, ?_⟩
    simp only [Resolver.release, hheld]
    exact List.forall₂_drop _ hgrown

theorem Keeps.through (h : Keeps context r held) (es : List Event) :
    Keeps context (Stage.through step r es) (r.holding held es) := by
  induction es generalizing r held with
  | nil => exact h
  | cons e es ih => exact ih (h.moves (r.moves_step e) (r.extends_step e))

theorem ids_eq_of_bound {registry : Registry} {ids : List (Bytes × NsId)}
    (h : List.Forall₂ (Bound registry) held ids) :
    ids = held.map fun b => (b.1, (Meaning.uri b.2).id registry) := by
  induction h with
  | nil => rfl
  | @cons b c _ _ hb _ ih =>
    have hc : c = (b.1, (Meaning.uri b.2).id registry) := by rw [hb.1, hb.2.id_eq]
    rw [List.map_cons, ← ih, hc]

theorem Keeps.bindings (h : Keeps context r held) : r.scope.bindings =
    (held.map fun b => (b.1, (Meaning.uri b.2).id r.registry)) ++ context.bindings := by
  obtain ⟨-, ids, hholds, hbound⟩ := h
  rw [← ids_eq_of_bound hbound, hholds.bindings]

theorem Keeps.keys (h : Keeps context r held) : r.keys = (held.map (·.1)).reverse := by
  obtain ⟨-, ids, hholds, hbound⟩ := h
  rw [hholds.keys, ids_eq_of_bound hbound, List.map_map]
  rfl

theorem Keeps.stack (h : Keeps context r held) (key : Bytes) : r.scope.stack key =
    idsOf r.registry (held.filter (·.1 == key)) ++ context.stack key := by
  simp only [Scope.stack, h.bindings, idsOf, List.filter_append, List.map_append, List.filter_map,
    List.map_map, Function.comp_def]

/-- Undoing all that is held finds a binding for each key, namely its own. -/
theorem Keeps.pops (h : Keeps context r held) :
    r.scope.pops r.keys.reverse = (idsOf r.registry held).map some := by
  rw [h.keys, List.reverse_reverse]
  have hbindings := h.bindings
  clear h
  generalize r.scope = scope at hbindings
  induction held generalizing scope with
  | nil => rfl
  | cons b held ih =>
    have hbound : (scope.pop b.1).2 = some ((Meaning.uri b.2).id r.registry) := by
      simp [Scope.pop, Scope.bound?, Scope.stack, hbindings]
    have hrest := ih (scope.pop b.1).1 (by simp [Scope.pop, Scope.unbind, hbindings])
    rw [List.map_cons, Scope.pops, hbound, hrest]
    rfl

theorem Keeps.unwind (h : Keeps context r held) : r.unwind.scope.bindings = context.bindings := by
  obtain ⟨-, ids, hholds, -⟩ := h
  exact hholds.unwind

/-! Elements are open that have been started and not ended. -/

def closings (r : Resolver) : List Event → Nat
  | [] => 0
  | e :: es => (if e.isEnd ∧ 0 < r.depth then 1 else 0) + closings (r.step e).1 es

theorem Moves.depth (hm : Moves r e r') :
    r'.depth + (if e.isEnd ∧ 0 < r.depth then 1 else 0) =
      r.depth + if e.isStart then 1 else 0 := by
  cases hm with
  | stay _ _ _ _ hstart hend =>
    have hidle : ¬ (e.isEnd = true ∧ 0 < r.depth) := by
      rintro ⟨he, hd⟩
      rw [Resolver.depth, hend he] at hd
      cases hd
    rw [if_neg hidle, hstart]
    rfl
  | declare => rfl
  | start => rfl
  | close registry hf | mismatch registry hf =>
    have hopen : 0 < r.depth := by simp [Resolver.depth, hf]
    simp [Resolver.depth, Resolver.release, Event.isEnd, Event.isStart, hf]

theorem depth_through (r : Resolver) (es : List Event) :
    (Stage.through step r es).depth + r.closings es = r.depth + Event.started es := by
  induction es generalizing r with
  | nil => rfl
  | cons e es ih =>
    have hstep := (r.moves_step e).depth
    have hrest : (Stage.through step r (e :: es)).depth + (r.step e).1.closings es =
        (r.step e).1.depth + Event.started es := ih _
    rw [closings, Event.started_cons]
    omega

/-! A resolver that has been unwound is as good as new. -/

theorem unwind_eq (r : Resolver) : r.unwind = { registry := r.registry, scope := r.unwind.scope } :=
  rfl

def Alike (r r' : Resolver) : Prop := ∃ seen, r' = r.onto r.registry seen

theorem exists_step_onto (r : Resolver) (seen : List Nat) (e : Event) : ∃ seen',
    (r.onto r.registry seen).step e = ((r.step e).1.onto (r.step e).1.registry seen', (r.step e).2) := by
  have hresolve (qualifier : Bytes) : (r.onto r.registry seen).resolve qualifier =
      ((r.resolve qualifier).1.onto (r.resolve qualifier).1.registry seen,
        (r.resolve qualifier).2) := rfl
  cases e with
  | doctype | characters | startDeclaration | endDeclaration => exact ⟨seen, rfl⟩
  | startElement => exact ⟨seen, rfl⟩
  | attr name value =>
    have hdeclaration : (r.onto r.registry seen).inDeclaration = r.inDeclaration := rfl
    simp only [step, attr, hresolve, hdeclaration]
    split
    · exact ⟨seen, rfl⟩
    split
    · exact ⟨_, rfl⟩
    split
    · exact ⟨_, rfl⟩
    · have hseen : ((r.resolve name.qualifier).1.onto (r.resolve name.qualifier).1.registry seen).seen
          = (r.resolve name.qualifier).1.seen := rfl
      simp only [hseen]
      split <;> exact ⟨seen, rfl⟩
  | endElement name extent =>
    have hframes : ((r.resolve name.qualifier).1.onto (r.resolve name.qualifier).1.registry
        seen).frames = (r.resolve name.qualifier).1.frames := rfl
    simp only [step, endElement, hresolve, hframes]
    split
    · exact ⟨seen, rfl⟩
    · rename_i frame frames _
      split
      · have hrelease := release_onto { (r.resolve name.qualifier).1 with frames }
          (r.resolve name.qualifier).1.registry seen frame.keysFrom
        exact ⟨seen, Prod.ext hrelease rfl⟩
      · exact ⟨seen, rfl⟩

/-- No answer depends on it. -/
theorem Alike.calls (hr : Alike r r') (h : Handler σ NsEvent) (s : σ) (es : List Event) :
    let one := (Stage.before step h).calls (r, s) es
    let other := (Stage.before step h).calls (r', s) es
    Alike one.1.1 other.1.1 ∧ other.1.2 = one.1.2 ∧ other.2 = one.2 := by
  induction es generalizing r r' s with
  | nil => exact ⟨hr, rfl, rfl⟩
  | cons e es ih =>
    obtain ⟨seen, rfl⟩ := hr
    obtain ⟨seen', hother⟩ := r.exists_step_onto seen e
    rcases hone : r.step e with ⟨r₁, b | _ | error⟩ <;> rw [hone] at hother
    · obtain ⟨hstate, hhandler, hanswers⟩ := ih (r := r₁) ⟨seen', rfl⟩ (h s b).1
      simp only [Handler.calls, Stage.before_deliver hone, Stage.before_deliver hother, hanswers]
      exact ⟨hstate, hhandler, trivial⟩
    · obtain ⟨hstate, hhandler, hanswers⟩ := ih (r := r₁) ⟨seen', rfl⟩ s
      simp only [Handler.calls, Stage.before_absorb hone, Stage.before_absorb hother, hanswers]
      exact ⟨hstate, hhandler, trivial⟩
    · obtain ⟨hstate, hhandler, hanswers⟩ := ih (r := r₁) ⟨seen', rfl⟩ s
      simp only [Handler.calls, Stage.before_reject hone, Stage.before_reject hother, hanswers]
      exact ⟨hstate, hhandler, trivial⟩

theorem Keeps.alike (h : Keeps context r held) :
    Alike { registry := r.registry, scope := context } r.unwind := by
  have hscope : r.unwind.scope = { context with seen := r.unwind.scope.seen } := by
    rw [← h.unwind]
  refine ⟨r.unwind.scope.seen, r.unwind_eq.trans ?_⟩
  rw [hscope]
  rfl

/-- After any calls the marks are inside the keys, and each key has the stack that it had before with
one binding on top for each time that it is held, in order. As many elements are open as have been
started and not ended. Undoing what is held finds a binding for each key and leaves a fresh resolver
over a scope that binds what it bound at first: called from there on, it answers as one does that
has not been used before. -/
theorem calls_marked (registry : Registry) (scope : Scope) (h : Handler σ NsEvent) (s : σ)
    (es : List Event) :
    let fresh : Resolver := { registry, scope }
    let r := ((Stage.before step h).calls (fresh, s) es).1.1
    let held := fresh.holding [] es
    r.Marked ∧
      r.keys = (held.map (·.1)).reverse ∧
      (∀ key, r.scope.stack key =
        idsOf r.registry (held.filter (·.1 == key)) ++ scope.stack key) ∧
      r.depth + fresh.closings es = Event.started es ∧
      r.unwind.scope = r.keys.reverse.foldl (fun scope key => (scope.pop key).1) r.scope ∧
      r.scope.pops r.keys.reverse = (idsOf r.registry held).map some ∧
      r.unwind.scope.Alike scope ∧ r.unwind.depth = 0 ∧
      r.unwind = { registry := r.registry, scope := r.unwind.scope } ∧
      ∀ (t : σ) (later : List Event),
        let again := (Stage.before step h).calls (r.unwind, t) later
        let anew := (Stage.before step h).calls ({ registry := r.registry, scope }, t) later
        again.2 = anew.2 ∧ again.1.2 = anew.1.2 ∧ Alike anew.1.1 again.1.1 := by
  intro fresh r held
  have hthrough : r = Stage.through step fresh es := Stage.calls_before step h fresh s es
  have hkeeps : Keeps scope r held := by
    rw [hthrough]
    exact (Keeps.fresh registry scope).through es
  have hdepth := fresh.depth_through es
  rw [← hthrough, show fresh.depth = 0 from rfl, Nat.zero_add] at hdepth
  refine ⟨hkeeps.marked, hkeeps.keys, hkeeps.stack, hdepth, rfl, hkeeps.pops,
    .of_bindings hkeeps.unwind, rfl, r.unwind_eq, fun t later => ?_⟩
  obtain ⟨hstate, hhandler, hanswers⟩ := hkeeps.alike.calls h t later
  exact ⟨hanswers, hhandler, hstate⟩

/-- An end tag that names the wrong element takes its frame and leaves the keys, those of a tag that
has not started among them. -/
example :
    let calls : List Event := [
      .attr ⟨[], xmlns⟩ (.transient (utf8 "u")), .startElement ⟨[], utf8 "a"⟩ ⟨0, 0⟩,
      .attr ⟨xmlns, utf8 "p"⟩ (.transient (utf8 "v")), .endElement ⟨[], utf8 "b"⟩ ⟨0, 0⟩]
    let r : Resolver := Stage.through step { registry := {}, scope := {} } calls
    r.frames = [] ∧ r.pendingFrom = 1 ∧ r.keys = [[], utf8 "p"] ∧ r.unwind.scope.bindings = [] := by
  decide +kernel

end Resolver
end XmlStream
