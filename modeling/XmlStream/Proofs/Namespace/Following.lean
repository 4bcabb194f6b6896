import XmlStream.Proofs.Namespace.Naming
import XmlStream.Proofs.Namespace.Holding
/-! A resolver follows lexical scope: its stacks, keys and marks stand for the environment of the
events it has been through, and an event it does not refuse leads both to where they agree again. -/
namespace XmlStream.Lexical
open List (Forall₂)

def Bound (r : Registry) (b : Bytes × Bytes) (c : Bytes × NsId) : Prop :=
  b.1 = c.1 ∧ (Meaning.uri b.2).Names r c.2

/-- Frames of the open elements. The mark of each is how many bindings its element was met with. -/
inductive Framed (r : Registry) : List Element → List Frame → Prop
  | nil : Framed r [] []
  | cons {e es f fs} : e.meaning.Names r f.ns → e.localName = f.localName →
      f.keysFrom = (es.flatMap (·.bindings)).length → Framed r es fs →
      Framed r (e :: es) (f :: fs)

def Seen (r : Registry) (a : Meaning × Bytes) (b : NsId × Bytes) : Prop :=
  a.1.Names r b.1 ∧ a.2 = b.2

structure Follows (context : Scope) (r : Resolver) (v : Env) : Prop where
  held : ∃ held, Resolver.Holds context r.scope r.keys held ∧
    Forall₂ (Bound r.registry) v.bindings held
  frames : Framed r.registry v.outer r.frames
  pending : r.pendingFrom = (v.outer.flatMap (·.bindings)).length
  seen : Forall₂ (Seen r.registry) v.attrs r.seen
  inDeclaration : r.inDeclaration = v.inDeclaration

inductive Outcome (context : Scope) (v : Env) (e : Event) : Resolver × Passing NsEvent → Prop
  | deliver {r b} : Follows context r (v.step context e) →
      (∀ r', r.registry.Extends r' → Forwards r' context v e b ∧ v.fault? r' context e = none) →
      Outcome context v e (r, .deliver b)
  | absorb {r n value b} : Follows context r (v.step context e) → e = .attr n value →
      v.inDeclaration = false → binding? n value = some b → Outcome context v e (r, .absorb)
  | reject {r error} : v.fault? r.registry context e = some error →
      Outcome context v e (r, .reject error)

variable {context : Scope} {r : Resolver} {v : Env}

theorem Framed.mono {r r' : Registry} (hr : r.Extends r') {es : List Element} {fs : List Frame}
    (h : Framed r es fs) : Framed r' es fs := by
  induction h with
  | nil => exact .nil
  | cons hm hl hk _ ih => exact .cons (hm.mono hr) hl hk ih

theorem Follows.start (registry : Registry) (context : Scope) :
    Follows context { registry, scope := context } {} :=
  ⟨⟨[], ⟨rfl, rfl⟩, .nil⟩, .nil, rfl, .nil, rfl⟩

theorem Follows.mono (h : Follows context r v) {registry : Registry}
    (hr : r.registry.Extends registry) : Follows context { r with registry } v := by
  obtain ⟨held, hh, hb⟩ := h.held
  exact ⟨⟨held, hh, hb.imp fun _ _ hb => ⟨hb.1, hb.2.mono hr⟩⟩,
    h.frames.mono hr, h.pending, h.seen.imp fun _ _ hs => ⟨hs.1.mono hr, hs.2⟩, h.inDeclaration⟩

/-- Resolving gives a qualifier the id of what it means. -/
theorem Follows.resolve (h : Follows context r v) (qualifier : Bytes) :
    ∃ registry ns, r.resolve qualifier = ({ r with registry }, ns) ∧ r.registry.Extends registry ∧
      (v.meaning context qualifier).Names registry ns := by
  obtain ⟨held, hh, hb⟩ := h.held
  have hl : r.scope.bound? qualifier = (held.lookup qualifier).or (context.bound? qualifier) := by
    rw [Scope.bound?_eq_lookup, hh.bindings, List.lookup_append, Scope.bound?_eq_lookup]
  refine ⟨_, _, rfl, ?_⟩
  unfold Env.meaning
  rw [hl]
  obtain ⟨h₁, h₂⟩ | ⟨uri, id, h₁, h₂, hm⟩ := Scope.lookup_forall₂
    (R := fun uri id => (Meaning.uri uri).Names r.registry id) hb qualifier
  · rw [h₁, h₂]
    cases context.bound? qualifier with
    | some ns => exact ⟨.refl _, rfl⟩
    | none =>
      simp only [Option.or_none]
      split
      · exact Registry.intern_spec _ _
      · exact ⟨.refl _, rfl⟩
  · rw [h₁, h₂]
    exact ⟨.refl _, hm⟩

/-- The ids that a tag has had are those of the meanings it has had. -/
theorem exists_seen_iff {r : Registry} {as : List (Meaning × Bytes)} {bs : List (NsId × Bytes)}
    (h : Forall₂ (Seen r) as bs) (ns : NsId) (name : Bytes) :
    (∃ a ∈ as, a.1.id r = ns ∧ a.2 = name) ↔ (ns, name) ∈ bs := by
  induction h with
  | nil => simp
  | cons hs _ ih =>
    rw [List.mem_cons, ← ih, List.exists_mem_cons_iff, hs.1.id_eq, hs.2, Prod.mk.injEq,
      eq_comm (a := ns), eq_comm (a := name)]

theorem Follows.declare (h : Follows context r v) (key uri : Bytes) :
    r.registry.Extends (r.declare key uri).registry ∧
      Follows context (r.declare key uri) { v with own := (key, uri) :: v.own } := by
  obtain ⟨held, hh, hb⟩ := h.held
  obtain ⟨hr, hm⟩ := r.registry.intern_spec uri
  refine ⟨hr, ⟨_, hh.declare key uri, ?_⟩, h.frames.mono hr, h.pending,
    h.seen.imp fun _ _ hs => ⟨hs.1.mono hr, hs.2⟩, h.inDeclaration⟩
  exact .cons ⟨rfl, hm⟩ (hb.imp fun _ _ hb => ⟨hb.1, hb.2.mono hr⟩)

theorem Follows.attr (h : Follows context r v) (name : QName) (value : Span) :
    r.registry.Extends (r.attr name value).1.registry ∧
      Outcome context v (.attr name value) (r.attr name value) := by
  have hd := h.inDeclaration
  unfold Resolver.attr
  cases hv : v.inDeclaration with
  | true =>
    rw [if_pos (hd.trans hv)]
    refine ⟨.refl _, .deliver ?_ fun r' _ => ⟨.declarationAttr hv, ?_⟩⟩
    · simpa [Env.step, Env.attr, hv] using h
    · simp [Env.fault?, hv]
  | false =>
    rw [if_neg (by simp [hd, hv])]
    split
    · rename_i hx
      obtain ⟨hr, hf⟩ := h.declare [] value.bytes
      have hb : binding? name value = some ([], value.bytes) := if_pos hx
      refine ⟨hr, .absorb ?_ rfl hv hb⟩
      simpa [Env.step, Env.attr, hv, hb] using hf
    · rename_i hx
      split
      · rename_i hq
        obtain ⟨hr, hf⟩ := h.declare name.localName value.bytes
        have hb : binding? name value = some (name.localName, value.bytes) := by
          rw [binding?, if_neg hx, if_pos hq]
        refine ⟨hr, .absorb ?_ rfl hv hb⟩
        simpa [Env.step, Env.attr, hv, hb] using hf
      · rename_i hq
        have hb : binding? name value = none := by rw [binding?, if_neg hx, if_neg hq]
        obtain ⟨registry, ns, he, hr, hm⟩ := h.resolve name.qualifier
        have hf := h.mono hr
        have hs {r' : Registry} (hr' : registry.Extends r') :
            (∃ a ∈ v.attrs, a.1.id r' = (v.meaning context name.qualifier).id r' ∧
              a.2 = name.localName) ↔ (ns, name.localName) ∈ r.seen := by
          rw [(hm.mono hr').id_eq]
          exact exists_seen_iff (hf.seen.imp fun _ _ hs => ⟨hs.1.mono hr', hs.2⟩) _ _
        simp only [he]
        split
        · rename_i hseen
          refine ⟨hr, .reject ?_⟩
          rw [Env.fault?, if_pos ⟨hv, hb, (hs (.refl _)).2 hseen⟩, hm.id_eq]
        · rename_i hseen
          refine ⟨hr, .deliver ?_ fun r' hr' => ⟨.attr hv hb (hm.mono hr'), ?_⟩⟩
          · simp only [Env.step, Env.attr, hv, hb, Bool.false_eq_true, if_false]
            exact ⟨hf.held, hf.frames, hf.pending, .cons ⟨hm, rfl⟩ hf.seen, hd.trans hv⟩
          · rw [Env.fault?, if_neg fun h => hseen ((hs hr').1 h.2.2)]

theorem Follows.startElement (h : Follows context r v) (name : QName) (extent : Extent) :
    r.registry.Extends (r.startElement name extent).1.registry ∧
      Outcome context v (.startElement name extent) (r.startElement name extent) := by
  obtain ⟨registry, ns, he, hr, hm⟩ := h.resolve name.qualifier
  have hf := h.mono hr
  obtain ⟨held, hh, hb⟩ := hf.held
  have hk : r.keys.length = held.length := (congrArg List.length hh.keys).trans (by simp)
  simp only [Resolver.startElement, he]
  exact ⟨hr, .deliver ⟨hf.held, .cons hm rfl hf.pending hf.frames, hk.trans hb.length_eq.symm, .nil,
    hf.inDeclaration⟩ fun r' hr' => ⟨.startElement (hm.mono hr'), rfl⟩⟩

/-- The mark of an element's frame parts its bindings from those of the elements around it. -/
theorem Follows.release (h : Follows context r v) {e : Element} {es : List Element} {f : Frame}
    {fs : List Frame} (hv : v.outer = e :: es) (hf : r.frames = f :: fs) :
    Follows context ({ r with frames := fs }.release f.keysFrom)
      { v with outer := es, own := [] } := by
  obtain ⟨⟨held, hh, hb⟩, hframes, -, hseen, hd⟩ := h
  rw [hv, hf] at hframes
  obtain _ | ⟨-, -, hk, hfs⟩ := hframes
  have hlen : held.length = (v.own ++ e.bindings).length + f.keysFrom := by
    rw [← hb.length_eq, hk]
    simp [Env.bindings, hv, Nat.add_assoc]
  have hkeys : r.keys.length = held.length := by simp [hh.keys]
  have hdrop := List.forall₂_drop (v.own ++ e.bindings).length hb
  rw [Env.bindings, hv, List.flatMap_cons, ← List.append_assoc, List.drop_left] at hdrop
  refine ⟨⟨_, Resolver.Holds.release (r := { r with frames := fs }) hh _, ?_⟩, hfs, ?_, hseen, hd⟩
  · rw [hlen, Nat.add_sub_cancel]
    exact hdrop
  · change (r.keys.take f.keysFrom).length = (es.flatMap (·.bindings)).length
    rw [List.length_take, hkeys, hlen, ← hk]
    omega

theorem Follows.endElement (h : Follows context r v) (name : QName) (extent : Extent)
    (hi : v = v.idle) (ho : v.outer ≠ []) :
    r.registry.Extends (r.endElement name extent).1.registry ∧
      Outcome context v (.endElement name extent) (r.endElement name extent) := by
  obtain ⟨registry, ns, he, hr, hm⟩ := h.resolve name.qualifier
  have hg := h.mono hr
  have hframes := hg.frames
  simp only [Resolver.endElement, he]
  cases hv : v.outer with
  | nil => exact (ho hv).elim
  | cons e es =>
    rw [hv] at hframes
    cases hf : r.frames with
    | nil =>
      simp only [hf] at hframes
      cases hframes
    | cons f fs =>
      simp only [hf] at hframes ⊢
      obtain _ | ⟨hem, hl, -, -⟩ := hframes
      have hfault {r' : Registry} (hr' : registry.Extends r') :
          (e.meaning.id r', e.localName) =
              ((v.meaning context name.qualifier).id r', name.localName) ↔
            f.ns = ns ∧ f.localName = name.localName := by
        rw [(hem.mono hr').id_eq, (hm.mono hr').id_eq, hl, Prod.mk.injEq]
      split
      · rename_i hn
        refine ⟨hr, .deliver ?_ fun r' hr' => ⟨.endElement (hm.mono hr'), ?_⟩⟩
        · have hstep : v.step context (.endElement name extent) =
              { v with outer := es, own := [] } := by
            rw [hi]
            simp [Env.step, Env.idle, hv]
          rw [hstep]
          exact hg.release hv hf
        · simp only [Env.fault?, hv]
          rw [if_pos ((hfault hr').2 hn)]
      · rename_i hn
        refine ⟨hr, .reject ?_⟩
        simp only [Env.fault?, hv]
        rw [if_neg (mt (hfault (.refl _)).1 hn), hem.id_eq, hm.id_eq, hl]

/-- An event that comes where it may is followed, or refused for its fault. -/
theorem Follows.step (h : Follows context r v) {e : Event} (he : v.Proper e) :
    r.registry.Extends (r.step e).1.registry ∧ Outcome context v e (r.step e) := by
  cases e with
  | attr name value => exact h.attr name value
  | startElement name extent => exact h.startElement name extent
  | endElement name extent => exact h.endElement name extent he.1 he.2
  | doctype d =>
    rw [he] at h
    exact ⟨.refl _, .deliver h fun _ _ => ⟨.doctype d, rfl⟩⟩
  | characters t =>
    rw [he] at h
    exact ⟨.refl _, .deliver h fun _ _ => ⟨.characters t, rfl⟩⟩
  | startDeclaration n =>
    rw [he] at h
    exact ⟨.refl _, .deliver ⟨h.held, h.frames, h.pending, h.seen, rfl⟩
      fun _ _ => ⟨.startDeclaration n, rfl⟩⟩
  | endDeclaration n =>
    rw [he] at h
    exact ⟨.refl _, .deliver ⟨h.held, h.frames, h.pending, h.seen, rfl⟩
      fun _ _ => ⟨.endDeclaration n, rfl⟩⟩

end XmlStream.Lexical
