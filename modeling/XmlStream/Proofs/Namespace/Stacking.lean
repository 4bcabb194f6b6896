import XmlStream.Proofs.Namespace.Shelving
import XmlStream.Proofs.Namespace.Using
/-! Stacking. Scopes over one registry are so many families of stacks, one for each key. What a request
finds and leaves in one of them is told by the requests for that one alone; all that the scopes share
is which id a URI has. Shelves in place of the scopes make no difference. -/
namespace XmlStream
open List (Forall₂)
open Lexical (Meaning)

namespace Scope

inductive Request where
  | push (key uri : Bytes)
  | pop (key : Bytes)
  | get (key : Bytes)

inductive Reply where
  | id (id : NsId)
  | popped (id? : Option NsId)

def ask (s : Scope) (r : Registry) : Request → Registry × Scope × Reply
  | .push key uri => ((s.push r key uri).1, (s.push r key uri).2.1, .id (s.push r key uri).2.2)
  | .pop key => (r, (s.pop key).1, .popped (s.pop key).2)
  | .get key => ((s.resolve r key).1, s, .id (s.resolve r key).2)

namespace Request

def key : Request → Bytes
  | .push key _ | .pop key | .get key => key

def onto (stack : List Bytes) : Request → List Bytes
  | .push _ uri => uri :: stack
  | .pop _ => stack.tail
  | .get _ => stack

/-- What is replied, by the stack: the id of the URI that came last, and for want of one that of `xml`,
or none. -/
inductive Answered (g : Registry) : List Bytes → Request → Reply → Prop
  | push {stack key uri id} : (Meaning.uri uri).Names g id →
      Answered g stack (.push key uri) (.id id)
  | pop {stack key uri id} : (Meaning.uri uri).Names g id →
      Answered g (uri :: stack) (.pop key) (.popped (some id))
  | popNone {key} : Answered g [] (.pop key) (.popped none)
  | get {stack key uri id} : (Meaning.uri uri).Names g id →
      Answered g (uri :: stack) (.get key) (.id id)
  | getXml {id} : (Meaning.uri Registry.xmlUri).Names g id →
      Answered g [] (.get (utf8 "xml")) (.id id)
  | getNone {key} : key ≠ utf8 "xml" → Answered g [] (.get key) (.id .unknown)

theorem Answered.mono {g g' : Registry} {stack : List Bytes} {q : Request} {reply : Reply}
    (h : Answered g stack q reply) (hg : g.Extends g') : Answered g' stack q reply := by
  cases h with
  | push h => exact .push (h.mono hg)
  | pop h => exact .pop (h.mono hg)
  | popNone => exact .popNone
  | get h => exact .get (h.mono hg)
  | getXml h => exact .getXml (h.mono hg)
  | getNone h => exact .getNone h

end Request

variable {r g : Registry} {s : Scope}

def Stacked (g : Registry) (s : Scope) (key : Bytes) (stack : List Bytes) : Prop :=
  Forall₂ (fun uri id => (Meaning.uri uri).Names g id) stack (s.stack key)

theorem extends_ask (s : Scope) (r : Registry) (q : Request) : r.Extends (s.ask r q).1 := by
  cases q with
  | push key uri => exact r.extends_use (.push s key uri)
  | pop key => exact .refl r
  | get key => exact r.extends_use (.resolve s key)

theorem Stacked.mono {key : Bytes} {stack : List Bytes} (h : Stacked r s key stack)
    (hg : r.Extends g) : Stacked g s key stack :=
  h.imp fun _ _ hnames => hnames.mono hg

theorem stack_ask_of_ne {q : Request} {key : Bytes} (h : q.key ≠ key) :
    (s.ask r q).2.1.stack key = s.stack key := by
  cases q with
  | push => exact stack_bind_ne s h _
  | pop => exact stack_unbind_ne s h
  | get => rfl

/-- A request does to the bindings of its key what it does to a stack. -/
theorem Stacked.ask {q : Request} {stack : List Bytes} (h : Stacked r s q.key stack) :
    Stacked (s.ask r q).1 (s.ask r q).2.1 q.key (q.onto stack) := by
  have hkept := h.mono (s.extends_ask r q)
  cases q with
  | push key uri =>
    change Forall₂ _ (uri :: stack) ((s.bind key _).stack key)
    rw [stack_bind_self]
    exact .cons (r.intern_spec uri).2 hkept
  | pop key =>
    change Forall₂ _ stack.tail ((s.unbind key).stack key)
    rw [stack_unbind_self, ← List.drop_one, ← List.drop_one]
    exact List.forall₂_drop 1 hkept
  | get key => exact hkept

theorem Stacked.answered {q : Request} {stack : List Bytes} (h : Stacked r s q.key stack) :
    q.Answered (s.ask r q).1 stack (s.ask r q).2.2 := by
  cases q with
  | push key uri => exact .push (r.intern_spec uri).2
  | pop key =>
    simp only [Stacked, Request.key, Scope.ask, pop, bound?] at h ⊢
    generalize s.stack key = ids at h ⊢
    cases h with
    | nil => exact .popNone
    | cons hid => exact .pop hid
  | get key =>
    simp only [Stacked, Request.key, Scope.ask, resolve, bound?] at h ⊢
    generalize s.stack key = ids at h ⊢
    cases h with
    | cons hid => exact .get hid
    | nil =>
      by_cases hx : key = utf8 "xml"
      · subst hx
        exact .getXml (r.intern_spec _).2
      · rw [List.head?_nil, if_neg hx]
        exact .getNone hx

/-! What is noted of the ids that are bound. -/

theorem mem_note {id : NsId} {index : Nat} :
    index ∈ s.note id ↔ index ∈ s.seen ∨ id = .numbered index := by
  cases id with
  | unknown => simp [note]
  | numbered i =>
    simp only [note, NsId.numbered.injEq]
    split
    · rename_i hi
      exact ⟨.inl, fun h => h.elim id fun he => he ▸ hi⟩
    · rw [List.mem_cons, or_comm, eq_comm]

theorem nodup_note (h : s.seen.Nodup) (id : NsId) : (s.note id).Nodup := by
  cases id with
  | unknown => exact h
  | numbered i =>
    simp only [note]
    split
    · exact h
    · rename_i hi
      exact List.nodup_cons.2 ⟨hi, h⟩

theorem nodup_seen_ask (h : s.seen.Nodup) (r : Registry) (q : Request) :
    (s.ask r q).2.1.seen.Nodup := by
  cases q with
  | push key uri => exact nodup_note h _
  | pop | get => exact h

theorem mem_seen_ask {q : Request} {index : Nat} : index ∈ (s.ask r q).2.1.seen ↔
    index ∈ s.seen ∨ ∃ key uri, q = .push key uri ∧ (s.ask r q).2.2 = .id (.numbered index) := by
  cases q with
  | push key uri =>
    refine mem_note.trans (or_congr_right ⟨fun h => ⟨key, uri, rfl, congrArg _ h⟩, ?_⟩)
    rintro ⟨_, _, -, h⟩
    exact Reply.id.inj h
  | pop | get => exact (or_iff_left fun ⟨_, _, h, _⟩ => by cases h).symm

/-- What has been seen comes in the order of the indices, each once. -/
theorem all_sorted (h : s.seen.Nodup) : ∃ indices : List Nat, s.all = indices.map .numbered ∧
    indices.Pairwise (· < ·) ∧ ∀ index, index ∈ indices ↔ index ∈ s.seen := by
  refine ⟨s.seen.mergeSort (· ≤ ·), rfl, ?_, fun _ => List.mem_mergeSort⟩
  have hle := List.pairwise_mergeSort' (· ≤ ·) s.seen
  have hne := (List.mergeSort_perm s.seen (· ≤ ·)).nodup_iff.2 h
  exact hle.imp₂ (fun _ _ => Nat.lt_of_le_of_ne) hne

/-- A dump has an entry for each id if the registry has a URI for each. -/
theorem dump_eq {uris : List Bytes} (h : Forall₂ (fun id uri => g.uri? id = some uri) s.all uris) :
    s.dump g = String.join (List.zipWith
      (fun id uri => id.label ++ "=\"" ++ Utf8.lossy uri ++ "\"\n") s.all uris) := by
  rw [dump]
  generalize s.all = ids at h
  congr 1
  induction h with
  | nil => rfl
  | cons hid _ ih =>
    rw [List.map_cons, List.zipWith_cons_cons, ih, hid, Registry.shortName,
      Registry.known_of_uri? hid]

end Scope

structure Scopes where
  registry : Registry
  scopes : Nat → Scope := fun _ => .empty

namespace Scopes
open Scope (Request Reply)

def ask (s : Scopes) (n : Nat) (q : Request) : Scopes × Reply :=
  let out := (s.scopes n).ask s.registry q
  (⟨out.1, Function.update s.scopes n out.2.1⟩, out.2.2)

def asked (s : Scopes) (qs : List (Nat × Request)) : Scopes :=
  qs.foldl (fun s q => (s.ask q.1 q.2).1) s

/-- The URIs pushed in a scope for a key and not popped, the latest first. -/
def unpopped (n : Nat) (key : Bytes) (qs : List (Nat × Request)) : List Bytes :=
  (qs.filter fun q => q.1 = n ∧ q.2.key = key).foldl (fun stack q => q.2.onto stack) []

def Pushed (s : Scopes) (n : Nat) (qs : List (Nat × Request)) (id : NsId) : Prop :=
  ∃ before key uri, before ++ [(n, .push key uri)] <+: qs ∧
    ((s.asked before).ask n (.push key uri)).2 = .id id

theorem asked_concat (s : Scopes) (qs : List (Nat × Request)) (q : Nat × Request) :
    s.asked (qs ++ [q]) = ((s.asked qs).ask q.1 q.2).1 :=
  List.foldl_append

theorem unpopped_concat (n : Nat) (key : Bytes) (qs : List (Nat × Request)) (q : Nat × Request) :
    unpopped n key (qs ++ [q]) =
      if q.1 = n ∧ q.2.key = key then q.2.onto (unpopped n key qs) else unpopped n key qs := by
  rw [unpopped, List.filter_append, List.foldl_append]
  by_cases h : q.1 = n ∧ q.2.key = key
  · rw [if_pos h, List.filter_cons_of_pos (by simpa using h)]
    rfl
  · rw [if_neg h, List.filter_cons_of_neg (by simpa using h)]
    rfl

theorem asked_append (s : Scopes) (qs ps : List (Nat × Request)) :
    s.asked (qs ++ ps) = (s.asked qs).asked ps :=
  List.foldl_append

theorem extends_asked (s : Scopes) (qs : List (Nat × Request)) :
    s.registry.Extends (s.asked qs).registry := by
  induction qs generalizing s with
  | nil => exact .refl _
  | cons q qs ih =>
    exact ((s.scopes q.1).extends_ask s.registry q.2).trans (ih (s.ask q.1 q.2).1)

theorem scopes_ask_self (s : Scopes) (n : Nat) (q : Request) :
    (s.ask n q).1.scopes n = ((s.scopes n).ask s.registry q).2.1 :=
  Function.update_self ..

theorem scopes_ask_of_ne (s : Scopes) {n m : Nat} (h : m ≠ n) (q : Request) :
    (s.ask n q).1.scopes m = s.scopes m :=
  Function.update_of_ne h ..

/-- Each scope holds for each key what has been pushed there for it and not popped. -/
theorem stacked_asked (registry : Registry) (qs : List (Nat × Request)) (n : Nat) (key : Bytes) :
    let s := asked { registry } qs
    (s.scopes n).Stacked s.registry key (unpopped n key qs) := by
  induction qs using List.reverseRecOn with
  | nil => exact .nil
  | append_singleton qs q ih =>
    obtain ⟨m, q⟩ := q
    have hkept := ih.mono (Scope.extends_ask ((asked { registry } qs).scopes m) _ q)
    simp only [asked_concat, unpopped_concat]
    by_cases hm : n = m
    · subst hm
      rw [scopes_ask_self]
      by_cases hk : q.key = key
      · subst hk
        rw [if_pos ⟨rfl, rfl⟩]
        exact ih.ask
      · rw [if_neg fun h => hk h.2, Scope.Stacked, Scope.stack_ask_of_ne hk]
        exact hkept
    · rw [if_neg fun h => hm h.1.symm, scopes_ask_of_ne _ hm]
      exact hkept

theorem pushed_concat {s : Scopes} {n m : Nat} {qs : List (Nat × Request)} {q : Request}
    {id : NsId} : s.Pushed n (qs ++ [(m, q)]) id ↔ s.Pushed n qs id ∨
      (m = n ∧ ∃ key uri, q = .push key uri ∧ ((s.asked qs).ask n q).2 = .id id) := by
  constructor
  · rintro ⟨before, key, uri, hinitial, hid⟩
    obtain heq | hinitial := List.prefix_concat_iff.1 hinitial
    · obtain ⟨rfl, hq⟩ := List.append_inj' heq rfl
      cases hq
      exact .inr ⟨rfl, key, uri, rfl, hid⟩
    · exact .inl ⟨before, key, uri, hinitial, hid⟩
  · rintro (⟨before, key, uri, hinitial, hid⟩ | ⟨rfl, key, uri, rfl, hid⟩)
    · exact ⟨before, key, uri, hinitial.trans (List.prefix_append _ _), hid⟩
    · exact ⟨qs, key, uri, List.prefix_refl _, hid⟩

/-- Each scope has seen the ids that pushes in it have been replied. -/
theorem seen_asked (registry : Registry) (qs : List (Nat × Request)) (n : Nat) :
    let seen := ((asked { registry } qs).scopes n).seen
    seen.Nodup ∧ ∀ index, index ∈ seen ↔ Pushed { registry } n qs (.numbered index) := by
  induction qs using List.reverseRecOn with
  | nil =>
    refine ⟨List.nodup_nil, fun index => iff_of_false List.not_mem_nil ?_⟩
    rintro ⟨before, key, uri, hinitial, -⟩
    cases List.append_eq_nil_iff.1 (List.prefix_nil.1 hinitial) |>.2
  | append_singleton qs q ih =>
    obtain ⟨m, q⟩ := q
    obtain ⟨hnodup, hseen⟩ := ih
    simp only [asked_concat, pushed_concat, ← hseen]
    by_cases hm : n = m
    · subst hm
      rw [scopes_ask_self]
      refine ⟨Scope.nodup_seen_ask hnodup _ q, fun index => Scope.mem_seen_ask.trans ?_⟩
      simp only [true_and]
      rfl
    · rw [scopes_ask_of_ne _ hm]
      exact ⟨hnodup, fun index => (or_iff_left fun h => hm h.1.symm).symm⟩

theorem extends_of_initial (s : Scopes) {before qs : List (Nat × Request)} {n : Nat} {q : Request}
    (h : before ++ [(n, q)] <+: qs) :
    ((s.asked before).ask n q).1.registry.Extends (s.asked qs).registry := by
  obtain ⟨more, rfl⟩ := h
  rw [asked_append, asked_concat]
  exact extends_asked _ more

/-- A numbered id that a push has been replied has a URI from then on. -/
theorem Pushed.exists_uri {s : Scopes} {qs : List (Nat × Request)} {n index : Nat}
    (h : s.Pushed n qs (.numbered index)) :
    ∃ uri, (s.asked qs).registry.uri? (.numbered index) = some uri := by
  obtain ⟨before, key, uri, hinitial, hid⟩ := h
  have hreply : ((s.asked before).registry.intern uri).2 = .numbered index := Reply.id.inj hid
  have hnames := ((s.asked before).registry.intern_spec uri).2
  rw [hreply, Meaning.Names] at hnames
  split at hnames
  · cases hnames
  · exact ⟨uri, s.extends_of_initial hinitial _ _ hnames⟩

end Scopes

/-! The same requests made of shelves. -/

namespace Shelf

def ask (h : Shelf) (r : Registry) : Scope.Request → Registry × Shelf × Scope.Reply
  | .push key uri => ((h.push r key uri).1, (h.push r key uri).2.1, .id (h.push r key uri).2.2)
  | .pop key => (r, (h.pop key).1, .popped (h.pop key).2)
  | .get key => ((h.resolve r key).1, h, .id (h.resolve r key).2)

theorem Holds.ask {h : Shelf} {s : Scope} (hs : h.Holds s) (r : Registry) (q : Scope.Request) :
    (h.ask r q).1 = (s.ask r q).1 ∧ (h.ask r q).2.1.Holds (s.ask r q).2.1 ∧
      (h.ask r q).2.2 = (s.ask r q).2.2 := by
  cases q with
  | push key uri => exact ⟨rfl, hs.bind key _, rfl⟩
  | pop key => exact ⟨rfl, hs.pop key, congrArg _ (((h.pop_spec key).2.2).trans (hs.bound?_eq key))⟩
  | get key =>
    have hresolve := hs.resolve_eq r key
    exact ⟨congrArg Prod.fst hresolve, hs, congrArg Scope.Reply.id (congrArg Prod.snd hresolve)⟩

end Shelf

structure Shelves where
  registry : Registry
  shelves : Nat → Shelf := fun _ => {}

namespace Shelves
open Scope (Request Reply)

def ask (s : Shelves) (n : Nat) (q : Request) : Shelves × Reply :=
  let out := (s.shelves n).ask s.registry q
  (⟨out.1, Function.update s.shelves n out.2.1⟩, out.2.2)

def asked (s : Shelves) (qs : List (Nat × Request)) : Shelves :=
  qs.foldl (fun s q => (s.ask q.1 q.2).1) s

structure Holds (s : Shelves) (t : Scopes) : Prop where
  registry : s.registry = t.registry
  shelves : ∀ n, (s.shelves n).Holds (t.scopes n)

variable {s : Shelves} {t : Scopes}

theorem shelves_ask_self (s : Shelves) (n : Nat) (q : Request) :
    (s.ask n q).1.shelves n = ((s.shelves n).ask s.registry q).2.1 :=
  Function.update_self ..

theorem shelves_ask_of_ne (s : Shelves) {n m : Nat} (h : m ≠ n) (q : Request) :
    (s.ask n q).1.shelves m = s.shelves m :=
  Function.update_of_ne h ..

theorem Holds.ask (h : s.Holds t) (n : Nat) (q : Request) :
    (s.ask n q).1.Holds (t.ask n q).1 ∧ (s.ask n q).2 = (t.ask n q).2 := by
  obtain ⟨hregistry, hheld, hreply⟩ := (h.shelves n).ask s.registry q
  rw [h.registry] at hregistry hreply
  refine ⟨⟨?_, fun m => ?_⟩, ?_⟩
  · simp only [Shelves.ask, Scopes.ask, h.registry, hregistry]
  · by_cases hm : m = n
    · subst hm
      rw [shelves_ask_self, Scopes.scopes_ask_self, ← h.registry]
      exact hheld
    · rw [shelves_ask_of_ne _ hm, Scopes.scopes_ask_of_ne _ hm]
      exact h.shelves m
  · simp only [Shelves.ask, Scopes.ask, h.registry, hreply]

theorem Holds.asked (h : s.Holds t) (qs : List (Nat × Request)) :
    (s.asked qs).Holds (t.asked qs) := by
  induction qs generalizing s t with
  | nil => exact h
  | cons q qs ih => exact ih (h.ask q.1 q.2).1

theorem holds_asked (registry : Registry) (qs : List (Nat × Request)) :
    (Shelves.asked { registry } qs).Holds (.asked { registry } qs) :=
  .asked ⟨rfl, fun _ => Shelf.holds_empty⟩ qs

end Shelves

namespace Scopes
open Scope (Request Reply)

/-- Every request of a scope is replied to by the one stack that it is for, whatever is asked for other
keys or of other scopes; and each scope has the ids that pushes in it were replied, in the order of
their indices, and dumps an entry for each. Shelves reply the same, and have and dump the same ids. -/
theorem stacks_apart (registry : Registry) (qs : List (Nat × Request)) :
    let last := asked { registry } qs
    (∀ before n q, before ++ [(n, q)] <+: qs →
      q.Answered last.registry (unpopped n q.key before)
        ((asked { registry } before).ask n q).2) ∧
    (∀ n, ∃ (indices : List Nat) (uris : List Bytes),
      let all := (last.scopes n).all
      all = indices.map .numbered ∧ indices.Pairwise (· < ·) ∧
      (∀ id, id ∈ all ↔ id ≠ .unknown ∧ Pushed { registry } n qs id) ∧
      Forall₂ (fun id uri => last.registry.uri? id = some uri) all uris ∧
      (last.scopes n).dump last.registry = String.join (List.zipWith
        (fun id uri => id.label ++ "=\"" ++ Utf8.lossy uri ++ "\"\n") all uris)) ∧
    let shelved := Shelves.asked { registry } qs
    shelved.registry = last.registry ∧
      (∀ before n q, before ++ [(n, q)] <+: qs →
        ((Shelves.asked { registry } before).ask n q).2 = ((asked { registry } before).ask n q).2) ∧
      ∀ n, (shelved.shelves n).all = (last.scopes n).all ∧
        (shelved.shelves n).dump shelved.registry = (last.scopes n).dump last.registry := by
  intro last
  refine ⟨fun before n q hinitial => ?answered, fun n => ?all, ?shelved⟩
  case answered =>
    exact (stacked_asked registry before n q.key).answered.mono (extends_of_initial _ hinitial)
  case all =>
    obtain ⟨hnodup, hseen⟩ := seen_asked registry qs n
    obtain ⟨indices, hall, hsorted, hindices⟩ := Scope.all_sorted hnodup
    have hmem : ∀ id, id ∈ (last.scopes n).all ↔ id ≠ .unknown ∧ Pushed { registry } n qs id := by
      intro id
      rw [hall, List.mem_map]
      cases id with
      | unknown => simp
      | numbered index => simp [hindices, hseen]
    have huris : Forall₂ (fun id uri => last.registry.uri? id = some uri) (last.scopes n).all
        ((last.scopes n).all.map fun id => (last.registry.uri? id).getD []) := by
      refine List.forall₂_map_right_iff.2 (List.forall₂_same.2 fun id hid => ?_)
      obtain ⟨hne, hpushed⟩ := (hmem id).1 hid
      cases id with
      | unknown => exact absurd rfl hne
      | numbered index =>
        obtain ⟨uri, huri⟩ := hpushed.exists_uri
        change last.registry.uri? _ = some uri at huri
        rw [huri, Option.getD_some]
    exact ⟨indices, _, hall, hsorted, hmem, huris, Scope.dump_eq huris⟩
  case shelved =>
    have hheld := Shelves.holds_asked registry qs
    refine ⟨hheld.registry, fun before n q _ => ((Shelves.holds_asked registry before).ask n q).2,
      fun n => ⟨(hheld.shelves n).all_eq, ?_⟩⟩
    rw [hheld.registry]
    exact (hheld.shelves n).dump_eq last.registry

end Scopes
end XmlStream
