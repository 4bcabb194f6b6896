import Mathlib.Data.List.Sort
import Std.Data.HashMap.Lemmas
import XmlStream.Namespace.Scope
/-! Shelving. The ids of the empty key are in a vector, and those of the other keys in a table of
vectors, in which one stays when it has become empty. What the vector and the table hold together is
a scope. -/
namespace XmlStream
open scoped List

def NsId.le : NsId → NsId → Bool
  | .numbered i, .numbered j => i ≤ j
  | _, .unknown => true
  | .unknown, .numbered _ => false

/-- The newest binding is at the end of its vector, and `seen` has every id but the unknown one. -/
structure Shelf where
  defaults : Array NsId := #[]
  prefixed : Std.HashMap Bytes (Array NsId) := {}
  seen : Array NsId := #[]

namespace Shelf

def bind (h : Shelf) (key : Bytes) (id : NsId) : Shelf :=
  let seen := if id.isUnknown || h.seen.contains id then h.seen else h.seen.push id
  if key = [] then { h with defaults := h.defaults.push id, seen }
  else
    match h.prefixed[key]? with
    | some stack => { h with prefixed := h.prefixed.insert key (stack.push id), seen }
    | none => { h with prefixed := h.prefixed.insert key #[id], seen }

def push (h : Shelf) (r : Registry) (key uri : Bytes) : Registry × Shelf × NsId :=
  let (r, id) := r.intern uri
  (r, h.bind key id, id)

def pop (h : Shelf) (key : Bytes) : Shelf × Option NsId :=
  if key = [] then ({ h with defaults := h.defaults.pop }, h.defaults.back?)
  else
    match h.prefixed[key]? with
    | some stack => ({ h with prefixed := h.prefixed.insert key stack.pop }, stack.back?)
    | none => (h, none)

def bound? (h : Shelf) (key : Bytes) : Option NsId :=
  if key = [] then h.defaults.back? else h.prefixed[key]?.bind (·.back?)

def resolve (h : Shelf) (r : Registry) (key : Bytes) : Registry × NsId :=
  match h.bound? key with
  | some id => (r, id)
  | none => if key = utf8 "xml" then r.intern Registry.xmlUri else (r, .unknown)

def all (h : Shelf) : List NsId := h.seen.toList.mergeSort NsId.le

def dump (h : Shelf) (r : Registry) : String :=
  String.join (h.all.map fun id =>
    match r.uri? id with
    | none => ""
    | some uri => r.shortName id ++ "=\"" ++ Utf8.lossy uri ++ "\"\n")

/-! Each operation is one on the vector of its key, wherever that is. -/

def stack (h : Shelf) (key : Bytes) : Array NsId :=
  if key = [] then h.defaults else h.prefixed.getD key #[]

theorem stack_of_getElem? {h : Shelf} {key : Bytes} {ids : Array NsId} (hkey : key ≠ [])
    (hids : h.prefixed[key]? = some ids) : h.stack key = ids := by
  rw [stack, if_neg hkey, Std.HashMap.getD_eq_getD_getElem?, hids, Option.getD_some]

theorem stack_of_none {h : Shelf} {key : Bytes} (hkey : key ≠ []) (hids : h.prefixed[key]? = none) :
    h.stack key = #[] := by
  rw [stack, if_neg hkey, Std.HashMap.getD_eq_getD_getElem?, hids, Option.getD_none]

theorem stack_insert {h : Shelf} {key : Bytes} (hkey : key ≠ []) (ids seen : Array NsId)
    (other : Bytes) : stack { h with prefixed := h.prefixed.insert key ids, seen } other =
      if key = other then ids else h.stack other := by
  by_cases hother : other = []
  · subst hother
    rw [if_neg hkey]
    rfl
  · rw [stack, if_neg hother, Std.HashMap.getD_insert, stack, if_neg hother]
    simp only [beq_iff_eq]

theorem stack_defaults (h : Shelf) (ids seen : Array NsId) (other : Bytes) :
    stack { h with defaults := ids, seen } other = if [] = other then ids else h.stack other := by
  by_cases hother : other = []
  · subst hother
    rfl
  · rw [stack, if_neg hother, if_neg (Ne.symm hother), stack, if_neg hother]

theorem bound?_eq (h : Shelf) (key : Bytes) : h.bound? key = (h.stack key).back? := by
  by_cases hkey : key = []
  · subst hkey
    rfl
  · rw [bound?, if_neg hkey]
    cases hids : h.prefixed[key]? with
    | some ids => rw [stack_of_getElem? hkey hids, Option.bind_some]
    | none =>
      rw [stack_of_none hkey hids]
      rfl

theorem stack_bind (h : Shelf) (key : Bytes) (id : NsId) (other : Bytes) :
    (h.bind key id).stack other =
      if key = other then (h.stack key).push id else h.stack other := by
  unfold bind
  by_cases hkey : key = []
  · subst hkey
    exact stack_defaults ..
  · simp only [if_neg hkey]
    cases hids : h.prefixed[key]? with
    | some ids =>
      rw [stack_of_getElem? hkey hids]
      exact stack_insert hkey ..
    | none =>
      rw [stack_of_none hkey hids]
      exact stack_insert hkey ..

theorem seen_bind (h : Shelf) (key : Bytes) (id : NsId) : (h.bind key id).seen =
    if id.isUnknown || h.seen.contains id then h.seen else h.seen.push id := by
  unfold bind
  by_cases hkey : key = []
  · rw [if_pos hkey]
  · rw [if_neg hkey]
    split <;> rfl

theorem pop_spec (h : Shelf) (key : Bytes) :
    (∀ other, (h.pop key).1.stack other = if key = other then (h.stack key).pop else h.stack other) ∧
      (h.pop key).1.seen = h.seen ∧ (h.pop key).2 = h.bound? key := by
  unfold pop bound?
  by_cases hkey : key = []
  · subst hkey
    exact ⟨stack_defaults h _ h.seen, rfl, rfl⟩
  · simp only [if_neg hkey]
    cases hids : h.prefixed[key]? with
    | some ids =>
      rw [stack_of_getElem? hkey hids]
      exact ⟨stack_insert hkey _ h.seen, rfl, rfl⟩
    | none =>
      refine ⟨fun other => ?_, rfl, rfl⟩
      by_cases he : key = other
      · rw [if_pos he, ← he, stack_of_none hkey hids]
        rfl
      · rw [if_neg he]

/-- A shelf holds a scope: the vector of a key has the ids that are bound to it, and what has been
seen comes in the order in which it was. -/
structure Holds (h : Shelf) (s : Scope) : Prop where
  stack : ∀ key, s.stack key = (h.stack key).toList.reverse
  seen : s.seen.map NsId.numbered = h.seen.toList.reverse

theorem holds_empty : Holds {} .empty where
  stack key := by
    rw [Shelf.stack]
    split
    · rfl
    · rw [Std.HashMap.getD_empty]
      rfl
  seen := rfl

namespace Holds

variable {h : Shelf} {s : Scope}

theorem bound?_eq (hs : h.Holds s) (key : Bytes) : h.bound? key = s.bound? key := by
  rw [Shelf.bound?_eq, Scope.bound?, hs.stack, List.head?_reverse, Array.getLast?_toList]

theorem bind (hs : h.Holds s) (key : Bytes) (id : NsId) : (h.bind key id).Holds (s.bind key id) where
  stack other := by
    rw [stack_bind]
    by_cases hkey : key = other
    · subst hkey
      rw [if_pos rfl, Scope.stack_bind_self, hs.stack, Array.toList_push, List.reverse_concat]
    · rw [if_neg hkey, Scope.stack_bind_ne s hkey, hs.stack]
  seen := by
    rw [seen_bind]
    cases id with
    | unknown => exact hs.seen
    | numbered index =>
      have hmem : index ∈ s.seen ↔ NsId.numbered index ∈ h.seen := by
        rw [← Array.mem_toList_iff, ← @List.mem_reverse _ _ h.seen.toList, ← hs.seen, List.mem_map]
        simp
      by_cases hi : index ∈ s.seen
      · simp [Scope.bind, Scope.note, hi, hmem.1 hi, hs.seen]
      · have hnew : ¬ NsId.numbered index ∈ h.seen := fun h => hi (hmem.2 h)
        simp [Scope.bind, Scope.note, hi, hnew, hs.seen, NsId.isUnknown]

theorem pop (hs : h.Holds s) (key : Bytes) : (h.pop key).1.Holds (s.pop key).1 where
  stack other := by
    rw [(h.pop_spec key).1]
    by_cases hkey : key = other
    · subst hkey
      rw [if_pos rfl, Scope.pop, Scope.stack_unbind_self, hs.stack, Array.toList_pop,
        List.tail_reverse]
    · rw [if_neg hkey, Scope.pop, Scope.stack_unbind_ne s hkey, hs.stack]
  seen := by
    rw [(h.pop_spec key).2.1]
    exact hs.seen

theorem resolve_eq (hs : h.Holds s) (r : Registry) (key : Bytes) :
    h.resolve r key = s.resolve r key := by
  cases hb : s.bound? key <;> simp only [resolve, Scope.resolve, hs.bound?_eq, hb]

/-- Ids are sorted as their indices are. -/
theorem all_eq (hs : h.Holds s) : h.all = s.all := by
  have hseen : h.seen.toList = s.seen.reverse.map .numbered := by
    rw [List.map_reverse, hs.seen, List.reverse_reverse]
  have hsorted : s.seen.reverse.mergeSort (· ≤ ·) = s.seen.mergeSort (· ≤ ·) := by
    refine List.Perm.eq_of_pairwise' (r := (· ≤ ·)) (List.pairwise_mergeSort' _ _)
      (List.pairwise_mergeSort' _ _) ?_
    calc
      s.seen.reverse.mergeSort (· ≤ ·) ~ s.seen.reverse := List.mergeSort_perm ..
      _ ~ s.seen := List.reverse_perm _
      _ ~ s.seen.mergeSort (· ≤ ·) := (List.mergeSort_perm ..).symm
  rw [all, Scope.all, hseen, ← hsorted]
  exact (List.map_mergeSort (f := NsId.numbered) fun _ _ _ _ => rfl).symm

theorem dump_eq (hs : h.Holds s) (r : Registry) : h.dump r = s.dump r :=
  congrArg (fun ids : List NsId => String.join (ids.map _)) hs.all_eq

end Holds

end Shelf
end XmlStream
