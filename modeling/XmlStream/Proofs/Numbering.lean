import Mathlib.Data.Finset.Card
import Mathlib.Order.Bounds.Defs
import Std.Data.HashMap.Lemmas
import XmlStream.Proofs.Namespace.Using
/-! Numbering. The tokens of a vocabulary by id are its tokens by word: an id has in the one table
what its URI has in the other, whatever the registry that gives the ids held before and has been
given since. -/
namespace XmlStream
open Lexical (Meaning)

namespace Vocabulary

def places (v : Vocabulary) (word : Bytes) : Set Nat :=
  {place | 1 ≤ place ∧ v.words[place]? = some word}

def table (v : Vocabulary) : Std.HashMap Bytes Token :=
  v.entries.foldl (fun table e => table.insertIfNew e.2 e.1) ∅

/-- The token of a namespace, by its URI. What has none, or the empty one, is in no namespace. -/
def tokenOf (v : Vocabulary) : Option Bytes → Token
  | none | some [] => .unknown
  | some uri => v.token uri

theorem entries_eq (v : Vocabulary) :
    v.entries = ((v.words.drop 1).zipIdx 1).map fun e => (⟨e.2⟩, e.1) := by
  obtain ⟨_ | ⟨w, ws⟩⟩ := v <;> rfl

theorem find?_zipIdx (word : Bytes) (ws : List Bytes) (start : Nat) :
    (ws.zipIdx start).find? (·.1 = word) = (ws.idxOf? word).map fun i => (word, start + i) := by
  induction ws generalizing start with
  | nil => rfl
  | cons w ws ih =>
    rw [List.zipIdx_cons, List.find?_cons, List.idxOf?_cons]
    by_cases hw : w = word
    · simp [hw]
    · simp [hw, ih, Function.comp_def, Nat.add_comm, Nat.add_left_comm]

/-- The token of a word is that of its first entry. -/
theorem token_eq_find (v : Vocabulary) (word : Bytes) :
    v.token word = ((v.entries.find? (·.2 = word)).map (·.1)).getD .unknown := by
  rw [entries_eq, List.find?_map, token, Function.comp_def, find?_zipIdx]
  cases (v.words.drop 1).idxOf? word with
  | none => rfl
  | some place => exact congrArg Token.mk (Nat.add_comm place 1)

theorem tokenOf_some (v : Vocabulary) {uri : Bytes} (h : uri ≠ []) :
    v.tokenOf (some uri) = v.token uri := by
  rw [tokenOf]
  exact h

theorem tokenOf_eq_find (v : Vocabulary) (uri? : Option Bytes) : v.tokenOf uri? =
    ((v.entries.find? fun e => e.2 ≠ [] ∧ uri? = some e.2).map (·.1)).getD .unknown := by
  cases uri? with
  | none =>
    rw [List.find?_eq_none.2 (by simp)]
    rfl
  | some uri =>
    by_cases hu : uri = []
    · rw [hu, List.find?_eq_none.2 (by simp)]
      rfl
    · have hword (e : Token × Bytes) : e.2 = uri ↔ e.2 ≠ [] ∧ some uri = some e.2 := by
        rw [Option.some_inj, eq_comm]
        exact ⟨fun h => ⟨h ▸ hu, h⟩, And.right⟩
      simp only [v.tokenOf_some hu, token_eq_find, hword]

theorem tokenOf_unlisted {v : Vocabulary} {uri? : Option Bytes}
    (h : ∀ uri ∈ v.words.drop 1, uri? ≠ some uri) : v.tokenOf uri? = .unknown := by
  have hnone : v.entries.find? (fun e => e.2 ≠ [] ∧ uri? = some e.2) = none := by
    refine List.find?_eq_none.2 fun e he hfound => h e.2 ?_ (of_decide_eq_true hfound).2
    rw [← v.map_entries]
    exact List.mem_map_of_mem he
  rw [tokenOf_eq_find, hnone]
  rfl

theorem getElem?_foldl_insertIfNew (es : List (Token × Bytes)) (table : Std.HashMap Bytes Token)
    (word : Bytes) : (es.foldl (fun table e => table.insertIfNew e.2 e.1) table)[word]? =
      table[word]?.or ((es.find? (·.2 = word)).map (·.1)) := by
  induction es generalizing table with
  | nil => exact Option.or_none.symm
  | cons e es ih =>
    rw [List.foldl_cons, ih, Std.HashMap.getElem?_insertIfNew, List.find?_cons]
    by_cases he : e.2 = word
    · simp only [he, Std.HashMap.mem_iff_isSome_getElem?]
      cases table[word]? <;> simp
    · simp [he]

/-- The table has the least token of each word. -/
theorem getD_table (v : Vocabulary) (word : Bytes) :
    v.table.getD word .unknown = v.token word := by
  rw [Std.HashMap.getD_eq_getD_getElem?, table, getElem?_foldl_insertIfNew, token_eq_find,
    Std.HashMap.getElem?_empty, Option.none_or]

theorem mem_places {v : Vocabulary} {word : Bytes} {place : Nat} : place ∈ v.places word ↔
    ∃ i, place = i + 1 ∧ (v.words.drop 1)[i]? = some word := by
  cases place with
  | zero => simp [places]
  | succ i => simp [places]

theorem isLeast_token (v : Vocabulary) (word : Bytes) :
    IsLeast (v.places word) (v.token word).index ∨
      (v.places word = ∅ ∧ v.token word = .unknown) := by
  rw [token]
  split
  · rename_i i hi
    obtain ⟨h, hword, hfirst⟩ := List.idxOf?_eq_some_iff.1 hi
    refine .inl ⟨mem_places.2 ⟨i, rfl, List.getElem?_eq_some_iff.2 ⟨h, hword⟩⟩, ?_⟩
    intro place hplace
    obtain ⟨j, rfl, hj⟩ := mem_places.1 hplace
    obtain ⟨hj, hword'⟩ := List.getElem?_eq_some_iff.1 hj
    exact Nat.succ_le_succ (Nat.le_of_not_lt fun hlt => hfirst j hlt hword')
  · rename_i hnone
    refine .inr ⟨Set.eq_empty_iff_forall_notMem.2 fun place hplace => ?_, rfl⟩
    obtain ⟨j, -, hj⟩ := mem_places.1 hplace
    exact List.idxOf?_eq_none_iff.1 hnone (List.mem_of_getElem? hj)

end Vocabulary

namespace NsTokens

variable {m : NsTokens} {r g : Registry}

theorem find?_insert (m : NsTokens) (ns : NsId) (t : Token) (id : NsId) : (m.insert ns t).find? id =
    (m.find? id).or (if ns = id ∧ id ≠ .unknown then some t else none) := by
  unfold insert
  split
  · rename_i hold
    split
    · rename_i hid
      obtain ⟨rfl, hknown⟩ := hid
      cases ns with
      | unknown => exact absurd rfl hknown
      | numbered index =>
        obtain ⟨t', ht⟩ := Option.isSome_iff_exists.1 hold
        rw [ht, Option.some_or]
    · exact Option.or_none.symm
  · rename_i hnew
    rw [Bool.or_eq_true, not_or] at hnew
    have hknown : ns ≠ .unknown := fun h => hnew.1 (h ▸ rfl)
    rw [find?, List.lookup_append, List.lookup_cons, List.lookup_nil]
    by_cases hid : ns = id
    · subst hid
      simp [hknown, find?]
    · simp [hid, beq_eq_false_iff_ne.2 (Ne.symm hid), find?]

def insertAll (r : Registry) (m : NsTokens) (es : List (Token × Bytes)) : Registry × NsTokens :=
  es.foldl (fun s e => ((s.1.intern e.2).1, s.2.insert (s.1.intern e.2).2 e.1)) (r, m)

theorem ofVocabulary_eq (v : Vocabulary) (r : Registry) :
    ofVocabulary v r = insertAll r {} v.entries := rfl

theorem extends_insertAll (r : Registry) (m : NsTokens) (es : List (Token × Bytes)) :
    r.Extends (insertAll r m es).1 := by
  induction es generalizing r m with
  | nil => exact .refl r
  | cons e es ih => exact (r.intern_spec e.2).1.trans (ih _ _)

/-- An id has the token of the first entry with its URI. -/
theorem find?_insertAll {es : List (Token × Bytes)} (hg : (insertAll r m es).1.Extends g)
    (ns : NsId) : (insertAll r m es).2.find? ns = (m.find? ns).or
      ((es.find? fun e => (Meaning.uri e.2).id g = ns ∧ ns ≠ .unknown).map (·.1)) := by
  induction es generalizing r m with
  | nil => exact Option.or_none.symm
  | cons e es ih =>
    have hlater := (extends_insertAll (r.intern e.2).1 (m.insert (r.intern e.2).2 e.1) es).trans hg
    have hid := ((r.intern_spec e.2).2.mono hlater).id_eq
    change (insertAll (r.intern e.2).1 (m.insert (r.intern e.2).2 e.1) es).2.find? ns = _
    rw [ih hg, List.find?_cons, hid, find?_insert, Option.or_assoc]
    by_cases hns : (r.intern e.2).2 = ns ∧ ns ≠ .unknown
    · rw [if_pos hns, decide_eq_true hns, Option.some_or, Option.map_some]
    · rw [if_neg hns, decide_eq_false hns, Option.none_or]

theorem id_eq_known_iff {uri : Bytes} {ns : NsId} :
    (Meaning.uri uri).id g = ns ∧ ns ≠ .unknown ↔ uri ≠ [] ∧ g.uri? ns = some uri := by
  cases ns with
  | unknown => exact iff_of_false (fun h => h.2 rfl) nofun
  | numbered index =>
    rw [Registry.uri?_numbered, ← Catalogue.find?_eq_some_iff, Meaning.id]
    by_cases hu : uri = []
    · simp [hu]
    · cases g.catalogue.find? uri <;> simp [hu]

variable {v : Vocabulary}

theorem find?_ofVocabulary (hg : (ofVocabulary v r).1.Extends g) (ns : NsId) :
    (ofVocabulary v r).2.find? ns =
      (v.entries.find? fun e => e.2 ≠ [] ∧ g.uri? ns = some e.2).map (·.1) := by
  rw [ofVocabulary_eq, find?_insertAll hg]
  simp only [id_eq_known_iff]
  exact Option.none_or

/-- The token of an id is that of its URI, also when the registry has grown. -/
theorem token_ofVocabulary (hg : (ofVocabulary v r).1.Extends g) (ns : NsId) :
    (ofVocabulary v r).2.token ns = v.tokenOf (g.uri? ns) := by
  rw [token, find?_ofVocabulary hg, Vocabulary.tokenOf_eq_find]

/-! How many ids have a token. -/

theorem mem_ids {ns : NsId} : ns ∈ m.entries.map (·.1) ↔ (m.find? ns).isSome := by
  rw [find?, List.lookup_isSome_iff, List.mem_map]
  simp only [beq_iff_eq, eq_comm (a := ns)]

theorem nodup_insert (h : (m.entries.map (·.1)).Nodup) (ns : NsId) (t : Token) :
    ((m.insert ns t).entries.map (·.1)).Nodup := by
  unfold insert
  split
  · exact h
  · rename_i hnew
    rw [Bool.or_eq_true, not_or, ← mem_ids] at hnew
    rw [List.map_append]
    exact h.append (List.nodup_singleton _) (List.disjoint_singleton.2 hnew.2)

theorem nodup_insertAll (h : (m.entries.map (·.1)).Nodup) (r : Registry)
    (es : List (Token × Bytes)) : ((insertAll r m es).2.entries.map (·.1)).Nodup := by
  induction es generalizing r m with
  | nil => exact h
  | cons e es ih => exact ih (nodup_insert h _ _) _

theorem exists_uri_insertAll (r : Registry) (m : NsTokens) {es : List (Token × Bytes)}
    {e : Token × Bytes} (he : e ∈ es) (hne : e.2 ≠ []) :
    ∃ ns, (insertAll r m es).1.uri? ns = some e.2 := by
  induction es generalizing r m with
  | nil => cases he
  | cons e' es ih =>
    obtain rfl | he := List.mem_cons.1 he
    · have hnames := (r.intern_spec e.2).2
      rw [Meaning.Names, if_neg hne] at hnames
      exact ⟨_, extends_insertAll _ _ es _ _ hnames⟩
    · exact ih _ _ he

theorem exists_uri_ofVocabulary {uri : Bytes} (h : uri ∈ v.words.drop 1) (hne : uri ≠ []) :
    ∃ ns, (ofVocabulary v r).1.uri? ns = some uri := by
  rw [← Vocabulary.map_entries] at h
  obtain ⟨e, he, rfl⟩ := List.mem_map.1 h
  exact exists_uri_insertAll r {} he hne

theorem mem_ids_ofVocabulary {ns : NsId} : ns ∈ (ofVocabulary v r).2.entries.map (·.1) ↔
    ∃ uri ∈ v.words.drop 1, uri ≠ [] ∧ (ofVocabulary v r).1.uri? ns = some uri := by
  rw [mem_ids, find?_ofVocabulary (.refl _), Option.isSome_map, List.find?_isSome,
    ← Vocabulary.map_entries]
  simp only [decide_eq_true_eq, List.mem_map]
  exact ⟨fun ⟨e, he, h⟩ => ⟨e.2, ⟨e, he, rfl⟩, h⟩, fun ⟨_, ⟨e, he, rfl⟩, h⟩ => ⟨e, he, h⟩⟩

/-- There are as many ids as URIs, the empty one apart. -/
theorem size_ofVocabulary (v : Vocabulary) (r : Registry) :
    (ofVocabulary v r).2.size = ((v.words.drop 1).toFinset.erase []).card := by
  let uriOf (ns : NsId) : Bytes := ((ofVocabulary v r).1.uri? ns).getD []
  have hnodup := nodup_insertAll (m := {}) List.nodup_nil r v.entries
  have huris : (((ofVocabulary v r).2.entries.map (·.1)).map uriOf).Nodup := by
    refine hnodup.map_on fun ns hns ns' hns' heq => ?_
    obtain ⟨uri, -, -, huri⟩ := mem_ids_ofVocabulary.1 hns
    obtain ⟨uri', -, -, huri'⟩ := mem_ids_ofVocabulary.1 hns'
    simp only [uriOf, huri, huri', Option.getD_some] at heq
    exact Registry.uri?_injective (heq ▸ huri) huri'
  have hsize : (ofVocabulary v r).2.size =
      (((ofVocabulary v r).2.entries.map (·.1)).map uriOf).length := by
    rw [List.length_map, List.length_map, size]
  rw [hsize, ← List.toFinset_card_of_nodup huris]
  congr 1
  ext uri
  rw [List.mem_toFinset, Finset.mem_erase, List.mem_toFinset, List.mem_map]
  constructor
  · rintro ⟨ns, hns, rfl⟩
    obtain ⟨uri, hword, hne, huri⟩ := mem_ids_ofVocabulary.1 hns
    simp only [uriOf, huri]
    exact ⟨hne, hword⟩
  · rintro ⟨hne, hword⟩
    obtain ⟨ns, hns⟩ := exists_uri_ofVocabulary (r := r) hword hne
    refine ⟨ns, mem_ids_ofVocabulary.2 ⟨uri, hword, hne, hns⟩, ?_⟩
    simp only [uriOf, hns, Option.getD_some]

end NsTokens
end XmlStream
