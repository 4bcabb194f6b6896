import Mathlib.Data.Finset.Card
import XmlStream.Proofs.Namespace.Pool
/-! Identity. Two ids of a registry are the same exactly when their URIs are. That is so of any calls
made of it and of either kind of registry, with ids that are words and a pool for a catalogue, until
there are more URIs than words. -/
namespace XmlStream
open List (Forall₂)

inductive Call (ι : Type) where
  | intern (uri : Bytes)
  | predefine (uris : List Bytes)
  | uri (id : ι)
  | index (id : ι)
  | identifier (index : Nat)
  | shortName (id : ι)
  | size

inductive Answer (ι : Type) where
  | id (id : ι)
  | ids (ids : List ι)
  | uri (uri : Option Bytes)
  | index (index : Option Nat)
  | name (name : String)
  | size (size : Nat)
deriving DecidableEq

namespace Call

variable {ι κ σ : Type}

def map (f : ι → κ) : Call ι → Call κ
  | .intern u => .intern u
  | .predefine us => .predefine us
  | .uri a => .uri (f a)
  | .index a => .index (f a)
  | .identifier i => .identifier i
  | .shortName a => .shortName (f a)
  | .size => .size

def kept : Call ι → List Bytes
  | .intern u => if u = [] then [] else [u]
  | .predefine us => us
  | _ => []

theorem kept_map (f : ι → κ) (call : Call ι) : (call.map f).kept = call.kept := by
  cases call <;> rfl

def run (answer : σ → Call ι → σ × Answer ι) (s : σ) : List (Call ι) → σ × List (Answer ι)
  | [] => (s, [])
  | call :: calls =>
    let (s, a) := answer s call
    let (s, as) := run answer s calls
    (s, a :: as)

theorem run_append (answer : σ → Call ι → σ × Answer ι) (s : σ) (before after : List (Call ι)) :
    (run answer s (before ++ after)).1 = (run answer (run answer s before).1 after).1 := by
  induction before generalizing s with
  | nil => rfl
  | cons call before ih => exact ih _

end Call

def Answer.map {ι κ : Type} (f : ι → κ) : Answer ι → Answer κ
  | .id a => .id (f a)
  | .ids as => .ids (as.map f)
  | .uri u => .uri u
  | .index i => .index i
  | .name n => .name n
  | .size n => .size n

namespace Registry

def answer (r : Registry) : Call NsId → Registry × Answer NsId
  | .intern uri => ((r.intern uri).1, .id (r.intern uri).2)
  | .predefine uris => ((r.predefine uris).1, .ids (r.predefine uris).2)
  | .uri id => (r, .uri (r.uri? id))
  | .index id => (r, .index (r.index? id))
  | .identifier index => (r, .id (r.identifier index))
  | .shortName id => (r, .name (r.shortName id))
  | .size => (r, .size r.size)

/-! What a registry has is never lost, and it has only what it has been asked to keep. -/

theorem uris_insert_subset (r : Registry) (uri : Bytes) :
    (r.insert uri).1.catalogue.uris ⊆ r.catalogue.uris ++ [uri] := by
  rw [uris_insert]
  split
  · exact List.subset_append_left ..
  · exact List.Subset.refl _

theorem insertAll_spec (r : Registry) (uris : List Bytes) :
    let grown : Registry := { r with catalogue := (r.catalogue.insertAll uris).1 }
    r.Extends grown ∧ grown.catalogue.uris ⊆ r.catalogue.uris ++ uris ∧
      Forall₂ (fun uri index => grown.uri? (.numbered index) = some uri) uris
        (r.catalogue.insertAll uris).2 := by
  induction uris generalizing r with
  | nil => exact ⟨.refl r, List.subset_append_left .., .nil⟩
  | cons uri uris ih =>
    obtain ⟨hextends, huri⟩ := r.insert_spec uri
    obtain ⟨hmore, hsubset, hall⟩ := ih (r.insert uri).1
    refine ⟨hextends.trans hmore, fun u hu => ?_, .cons (hmore _ _ huri) hall⟩
    have hinsert := r.uris_insert_subset uri
    obtain hu | hu := List.mem_append.1 (hsubset hu)
    · obtain hu | hu := List.mem_append.1 (hinsert hu)
      · exact List.mem_append_left _ hu
      · exact List.mem_append_right _ (List.mem_cons.2 (.inl (List.mem_singleton.1 hu)))
    · exact List.mem_append_right _ (List.mem_cons_of_mem _ hu)

theorem predefine_spec (r : Registry) (uris : List Bytes) :
    r.Extends (r.predefine uris).1 ∧
      (r.predefine uris).1.catalogue.uris ⊆ r.catalogue.uris ++ uris ∧
      Forall₂ (fun uri id => (r.predefine uris).1.uri? id = some uri) uris
        (r.predefine uris).2 := by
  obtain ⟨hextends, hsubset, hall⟩ := r.insertAll_spec uris
  exact ⟨hextends, hsubset, List.forall₂_map_right_iff.2 hall⟩

/-- Whether a registry is shared makes no difference to what it gives. -/
theorem intern_eq (r : Registry) (uri : Bytes) :
    r.intern uri = if uri = [] then (r, .unknown) else r.insert uri := by
  simp only [intern, List.isEmpty_iff]
  cases r.sharing with
  | exclusive => rfl
  | shared =>
    cases h : r.catalogue.find? uri with
    | none => rfl
    | some index => simp only [insert, Catalogue.insert_of_find? h]

theorem answer_extends (r : Registry) (call : Call NsId) : r.Extends (r.answer call).1 := by
  cases call with
  | intern uri => exact (r.intern_spec uri).1
  | predefine uris => exact (r.predefine_spec uris).1
  | _ => exact .refl r

theorem uris_answer_subset (r : Registry) (call : Call NsId) :
    (r.answer call).1.catalogue.uris ⊆ r.catalogue.uris ++ call.kept := by
  cases call with
  | intern uri =>
    rw [answer, intern_eq, Call.kept]
    split
    · exact List.subset_append_left ..
    · exact r.uris_insert_subset uri
  | predefine uris => exact (r.predefine_spec uris).2.1
  | _ => exact List.subset_append_left ..

theorem run_extends (r : Registry) (calls : List (Call NsId)) :
    r.Extends (Call.run answer r calls).1 := by
  induction calls generalizing r with
  | nil => exact .refl r
  | cons call calls ih => exact (r.answer_extends call).trans (ih _)

theorem uris_run_subset (r : Registry) (calls : List (Call NsId)) :
    (Call.run answer r calls).1.catalogue.uris ⊆ r.catalogue.uris ++ calls.flatMap Call.kept := by
  induction calls generalizing r with
  | nil => exact List.subset_append_left ..
  | cons call calls ih =>
    intro u hu
    have hanswer := r.uris_answer_subset call
    rw [List.flatMap_cons, ← List.append_assoc]
    obtain hu | hu := List.mem_append.1 (ih _ hu)
    · exact List.mem_append_left _ (hanswer hu)
    · exact List.mem_append_right _ hu

/-- As many URIs as there are among those it has been asked to keep, each counted once. -/
theorem size_run_le (sharing : Sharing) (calls : List (Call NsId)) :
    (Call.run answer { sharing } calls).1.size ≤ (calls.flatMap Call.kept).toFinset.card := by
  have hsubset := uris_run_subset { sharing } calls
  rw [size, Catalogue.size, ← List.toFinset_card_of_nodup (Catalogue.nodup _)]
  refine Finset.card_le_card fun u hu => ?_
  exact List.mem_toFinset.2 (hsubset (List.mem_toFinset.1 hu))

theorem size_le_of_extends {r r' : Registry} (h : r.Extends r') : r.size ≤ r'.size :=
  (extends_iff.1 h).length_le

theorem lt_size {r : Registry} {index : Nat} {uri : Bytes}
    (h : r.uri? (.numbered index) = some uri) : index < r.size :=
  (List.getElem?_eq_some_iff.1 h).1

end Registry

/-! A registry whose ids are words. -/

def unknownWord : UInt32 := 0xFFFFFFFF

def wordIndex? (id : UInt32) : Option Nat := if id = unknownWord then none else some id.toNat

def NsId.ofWord (id : UInt32) : NsId :=
  match wordIndex? id with
  | none => .unknown
  | some index => .numbered index

theorem NsId.index?_ofWord (id : UInt32) : (ofWord id).index? = wordIndex? id := by
  rw [ofWord]
  cases wordIndex? id <;> rfl

theorem NsId.ofWord_ofNat {index : Nat} (h : index < 2 ^ 32 - 1) :
    ofWord (UInt32.ofNat index) = .numbered index := by
  have hindex : (UInt32.ofNat index).toNat = index :=
    UInt32.toNat_ofNat_of_lt' (h.trans (by decide))
  have hne : UInt32.ofNat index ≠ unknownWord := by
    intro he
    have hunknown : (UInt32.ofNat index).toNat = 2 ^ 32 - 1 := by
      rw [he]
      rfl
    omega
  rw [ofWord, wordIndex?, if_neg hne, hindex]

theorem NsId.ofWord_injective {id id' : UInt32} (h : ofWord id = ofWord id') : id = id' := by
  have hindex := congrArg NsId.index? h
  simp only [index?_ofWord, wordIndex?] at hindex
  split at hindex <;> split at hindex
  · simp_all
  · cases hindex
  · cases hindex
  · exact UInt32.toNat_inj.1 (Option.some.inj hindex)

structure Store where
  sharing : Sharing := .exclusive
  pool : Pool := {}

namespace Store

def size (s : Store) : Nat := s.pool.size

def insert (s : Store) (uri : Bytes) : Store × UInt32 :=
  let (pool, index, _) := s.pool.insert uri
  ({ s with pool }, index)

def intern (s : Store) (uri : Bytes) : Store × UInt32 :=
  if uri.isEmpty then (s, unknownWord)
  else
    match s.sharing with
    | .exclusive => s.insert uri
    | .shared =>
      match s.pool.find? uri with
      | some index => (s, index)
      | none => s.insert uri

def predefine (s : Store) (uris : List Bytes) : Store × List UInt32 :=
  let (pool, indices) := s.pool.predefine uris
  ({ s with pool }, indices)

def uri? (s : Store) (id : UInt32) : Option Bytes :=
  (wordIndex? id).bind fun index => s.pool.get? (UInt32.ofNat index)

def index? (s : Store) (id : UInt32) : Option Nat := (wordIndex? id).filter (· < s.size)

def identifier (s : Store) (index : Nat) : UInt32 :=
  if index < s.size then UInt32.ofNat index else unknownWord

def shortName (s : Store) (id : UInt32) : String :=
  match s.index? id with
  | some index => (NsId.numbered index).label
  | none => NsId.unknown.label

def answer (s : Store) : Call UInt32 → Store × Answer UInt32
  | .intern uri => ((s.intern uri).1, .id (s.intern uri).2)
  | .predefine uris => ((s.predefine uris).1, .ids (s.predefine uris).2)
  | .uri id => (s, .uri (s.uri? id))
  | .index id => (s, .index (s.index? id))
  | .identifier index => (s, .id (s.identifier index))
  | .shortName id => (s, .name (s.shortName id))
  | .size => (s, .size s.size)

/-- To look a URI up before it is inserted is to insert it. -/
theorem intern_eq (s : Store) (uri : Bytes) :
    s.intern uri = if uri = [] then (s, unknownWord) else s.insert uri := by
  simp only [intern, List.isEmpty_iff]
  cases s.sharing with
  | exclusive => rfl
  | shared =>
    cases h : s.pool.find? uri with
    | none => rfl
    | some index => simp only [insert, Pool.insert_of_find? h]

theorem answer_of_pool_eq {s t : Store} (h : s.pool = t.pool) (call : Call UInt32) :
    (s.answer call).1.pool = (t.answer call).1.pool ∧ (s.answer call).2 = (t.answer call).2 := by
  obtain ⟨sharing, pool⟩ := s
  obtain ⟨sharing', pool'⟩ := t
  obtain rfl : pool = pool' := h
  cases call with
  | intern uri =>
    simp only [answer, intern_eq]
    split <;> exact ⟨rfl, rfl⟩
  | _ => exact ⟨rfl, rfl⟩

theorem run_of_pool_eq {s t : Store} (h : s.pool = t.pool) (calls : List (Call UInt32)) :
    (Call.run answer s calls).1.pool = (Call.run answer t calls).1.pool ∧
      (Call.run answer s calls).2 = (Call.run answer t calls).2 := by
  induction calls generalizing s t with
  | nil => exact ⟨h, rfl⟩
  | cons call calls ih =>
    obtain ⟨hpool, hanswer⟩ := answer_of_pool_eq h call
    obtain ⟨hrun, hanswers⟩ := ih hpool
    exact ⟨hrun, congrArg₂ List.cons hanswer hanswers⟩

/-! A store answers as the registry whose catalogue its pool holds. -/

variable {s : Store} {r : Registry}

theorem uri?_eq (h : s.pool.Holds r.catalogue) (id : UInt32) : s.uri? id = r.uri? (.ofWord id) := by
  rw [uri?, Registry.uri?, NsId.index?_ofWord, wordIndex?]
  split
  · rfl
  · rw [Option.bind_some, Option.bind_some, UInt32.ofNat_toNat, h.get?_eq]

theorem index?_eq (h : s.pool.Holds r.catalogue) (id : UInt32) :
    s.index? id = r.index? (.ofWord id) := by
  rw [index?, Registry.index?, NsId.index?_ofWord, size, Registry.size, h.size_eq]

theorem shortName_eq (h : s.pool.Holds r.catalogue) (id : UInt32) :
    s.shortName id = r.shortName (.ofWord id) := by
  rw [shortName, Registry.shortName, Registry.known, index?_eq h]
  cases r.index? (.ofWord id) <;> rfl

theorem ofWord_identifier (h : s.pool.Holds r.catalogue) (room : r.size < 2 ^ 32) (index : Nat) :
    NsId.ofWord (s.identifier index) = r.identifier index := by
  rw [identifier, Registry.identifier, size, Registry.size, h.size_eq]
  split
  · rename_i hindex
    exact NsId.ofWord_ofNat (by simp only [Registry.size] at room; omega)
  · rfl

theorem ofWord_index (room : r.size < 2 ^ 32) {index : Nat} {uri : Bytes}
    (h : r.uri? (.numbered index) = some uri) :
    NsId.ofWord (UInt32.ofNat index) = .numbered index := by
  have hindex := Registry.lt_size h
  exact NsId.ofWord_ofNat (by omega)

theorem intern_holds (h : s.pool.Holds r.catalogue) (uri : Bytes) :
    (s.intern uri).1.pool.Holds (r.intern uri).1.catalogue := by
  rw [intern_eq, Registry.intern_eq]
  split
  · exact h
  · exact (h.insert uri).1

theorem ofWord_intern (h : s.pool.Holds r.catalogue) (uri : Bytes)
    (room : (r.intern uri).1.size < 2 ^ 32) : NsId.ofWord (s.intern uri).2 = (r.intern uri).2 := by
  rw [Registry.intern_eq] at room ⊢
  rw [intern_eq]
  split
  · rfl
  · rename_i hu
    rw [if_neg hu] at room
    have hindex : (s.insert uri).2 = UInt32.ofNat (r.catalogue.insert uri).2.1 :=
      congrArg Prod.fst (h.insert uri).2
    rw [hindex]
    exact ofWord_index room (r.insert_spec uri).2

theorem ofWord_predefine (h : s.pool.Holds r.catalogue) (uris : List Bytes)
    (room : (r.predefine uris).1.size < 2 ^ 32) :
    (s.predefine uris).2.map NsId.ofWord = (r.predefine uris).2 := by
  have hindices : (s.predefine uris).2 = (r.catalogue.predefine uris).2.map UInt32.ofNat :=
    (h.predefine uris).2
  rw [hindices, List.map_map]
  refine List.map_congr_left fun index hindex => ?_
  have hmem : NsId.numbered index ∈ (r.predefine uris).2 := List.mem_map_of_mem hindex
  obtain ⟨⟨i, hi⟩, hid⟩ := List.mem_iff_get.1 hmem
  obtain ⟨hlength, hget⟩ := List.forall₂_iff_get.1 (r.predefine_spec uris).2.2
  have huri := hget i (hlength ▸ hi) hi
  rw [hid] at huri
  exact ofWord_index room huri

theorem answer_holds (h : s.pool.Holds r.catalogue) (call : Call UInt32) :
    (s.answer call).1.pool.Holds (r.answer (call.map .ofWord)).1.catalogue := by
  cases call with
  | intern uri => exact intern_holds h uri
  | predefine uris => exact (h.predefine uris).1
  | _ => exact h

theorem answer_map (h : s.pool.Holds r.catalogue) (call : Call UInt32)
    (room : (r.answer (call.map .ofWord)).1.size < 2 ^ 32) :
    (r.answer (call.map .ofWord)).2 = (s.answer call).2.map .ofWord := by
  cases call with
  | intern uri => exact congrArg Answer.id (ofWord_intern h uri room).symm
  | predefine uris => exact congrArg Answer.ids (ofWord_predefine h uris room).symm
  | uri id => exact congrArg Answer.uri (uri?_eq h id).symm
  | index id => exact congrArg Answer.index (index?_eq h id).symm
  | identifier index => exact congrArg Answer.id (ofWord_identifier h room index).symm
  | shortName id => exact congrArg Answer.name (shortName_eq h id).symm
  | size => exact congrArg Answer.size h.size_eq.symm

theorem run_holds (h : s.pool.Holds r.catalogue) (calls : List (Call UInt32)) :
    (Call.run answer s calls).1.pool.Holds
      (Call.run Registry.answer r (calls.map (·.map .ofWord))).1.catalogue := by
  induction calls generalizing s r with
  | nil => exact h
  | cons call calls ih => exact ih (answer_holds h call)

theorem run_map (h : s.pool.Holds r.catalogue) (calls : List (Call UInt32))
    (room : (Call.run Registry.answer r (calls.map (·.map .ofWord))).1.size < 2 ^ 32) :
    (Call.run Registry.answer r (calls.map (·.map .ofWord))).2 =
      (Call.run answer s calls).2.map (·.map .ofWord) := by
  induction calls generalizing s r with
  | nil => rfl
  | cons call calls ih =>
    have hsize := Registry.size_le_of_extends
      (Registry.run_extends (r.answer (call.map .ofWord)).1 (calls.map (·.map .ofWord)))
    have hanswer := answer_map h call (hsize.trans_lt room)
    have hanswers := ih (answer_holds h call) room
    exact congrArg₂ List.cons hanswer hanswers

theorem index?_of_uri? {id : UInt32} {uri : Bytes} (h : s.uri? id = some uri) :
    ∃ index < s.size, s.index? id = some index := by
  obtain ⟨index, hindex, hget⟩ := Option.bind_eq_some_iff.1 h
  have hword : id.toNat = index := by
    simp only [wordIndex?, Option.ite_none_left_eq_some, Option.some.injEq] at hindex
    exact hindex.2
  subst hword
  rw [UInt32.ofNat_toNat] at hget
  have hlt : id.toNat < s.size := (Array.getElem?_eq_some_iff.1 hget).1
  exact ⟨id.toNat, hlt, by simp [index?, hindex, hlt]⟩

inductive Issued (s : Store) (calls : List (Call UInt32)) : Bytes → UInt32 → Prop
  | interned {before after uri} : calls = before ++ .intern uri :: after → uri ≠ [] →
      Issued s calls uri ((Call.run answer s before).1.intern uri).2
  | predefined {before after uris uri id} : calls = before ++ .predefine uris :: after →
      (uri, id) ∈ uris.zip ((Call.run answer s before).1.predefine uris).2 → Issued s calls uri id

variable {calls : List (Call UInt32)}

/-- Where a store is asked something, and what comes of it. -/
theorem run_at (h : s.pool.Holds r.catalogue) {before after : List (Call UInt32)}
    {call : Call UInt32} (hcalls : calls = before ++ call :: after) :
    ∃ r' : Registry, (Call.run answer s before).1.pool.Holds r'.catalogue ∧
      (r'.answer (call.map .ofWord)).1.Extends
        (Call.run Registry.answer r (calls.map (·.map .ofWord))).1 := by
  refine ⟨_, run_holds h before, ?_⟩
  rw [hcalls, List.map_append, Call.run_append]
  exact Registry.run_extends _ _

/-- An id stands for the URI that it has been given to. -/
theorem Issued.uri?_eq {uri : Bytes} {id : UInt32} (hissued : Issued s calls uri id)
    (h : s.pool.Holds r.catalogue)
    (room : (Call.run Registry.answer r (calls.map (·.map .ofWord))).1.size < 2 ^ 32) :
    (Call.run answer s calls).1.uri? id = some uri := by
  rw [Store.uri?_eq (run_holds h calls)]
  cases hissued with
  | interned hcalls hu =>
    obtain ⟨r', hbefore, hlater⟩ := run_at h hcalls
    have hsize := Registry.size_le_of_extends hlater
    have hnames := (r'.intern_spec uri).2
    simp only [Lexical.Meaning.Names, hu, if_false] at hnames
    rw [ofWord_intern hbefore uri (hsize.trans_lt room)]
    exact hlater _ _ hnames
  | @predefined before after uris _ _ hcalls hmem =>
    obtain ⟨r', hbefore, hlater⟩ := run_at h hcalls
    have hsize := Registry.size_le_of_extends hlater
    have hall := (r'.predefine_spec uris).2.2
    rw [← ofWord_predefine hbefore uris (hsize.trans_lt room), List.forall₂_map_right_iff] at hall
    exact hlater _ _ (List.forall₂_zip hall hmem)

theorem Issued.eq_iff {uri uri' : Bytes} {id id' : UInt32} (hid : Issued s calls uri id)
    (hid' : Issued s calls uri' id') (h : s.pool.Holds r.catalogue)
    (room : (Call.run Registry.answer r (calls.map (·.map .ofWord))).1.size < 2 ^ 32) :
    id = id' ↔ uri = uri' := by
  have huri := hid.uri?_eq h room
  have huri' := hid'.uri?_eq h room
  constructor
  · rintro rfl
    exact Option.some.inj (huri.symm.trans huri')
  · rintro rfl
    rw [Store.uri?_eq (run_holds h calls)] at huri huri'
    exact NsId.ofWord_injective (Registry.uri?_injective huri huri')

/-- What the registry has after the first of some calls it has after all of them. -/
theorem run_extends_split (r : Registry) {before after : List (Call UInt32)}
    (hcalls : calls = before ++ after) :
    (Call.run Registry.answer r (before.map (·.map .ofWord))).1.Extends
      (Call.run Registry.answer r (calls.map (·.map .ofWord))).1 := by
  rw [hcalls, List.map_append, Call.run_append]
  exact Registry.run_extends _ _

/-- Of the ids that URIs are given, two are the same exactly when their URIs are. Each is an index in
the store and has its URI for good; the pool is in good order whenever it is used; and a store
that is shared answers all that it is asked as one that is not, and as a registry does. -/
theorem ids_bijective (sharing : Sharing) (calls : List (Call UInt32))
    (room : (calls.flatMap Call.kept).toFinset.card < 2 ^ 32 - 1) :
    let s := (Call.run answer { sharing } calls).1
    let answers := (Call.run answer { sharing } calls).2
    (∀ uri id, Issued { sharing } calls uri id →
      s.uri? id = some uri ∧ ∃ index < s.size, s.index? id = some index) ∧
    (∀ uri id uri' id', Issued { sharing } calls uri id → Issued { sharing } calls uri' id' →
      (id = id' ↔ uri = uri')) ∧
    (∀ before after, calls = before ++ after →
      let t := (Call.run answer { sharing } before).1
      let r := (Call.run Registry.answer { sharing } (before.map (·.map .ofWord))).1
      t.pool.Holds r.catalogue ∧ t.pool.Faithful ∧ t.intern [] = (t, unknownWord) ∧
        ∀ id uri, t.uri? id = some uri → s.uri? id = some uri) ∧
    ∀ other, (Call.run answer { sharing := other } calls).2 = answers ∧
      (Call.run Registry.answer { sharing := other } (calls.map (·.map .ofWord))).2 =
        answers.map (·.map .ofWord) := by
  intro s answers
  have hempty (sharing : Sharing) :
      Pool.Holds ({ sharing } : Store).pool ({ sharing } : Registry).catalogue := Pool.holds_empty
  have hsize (sharing : Sharing) :
      (Call.run Registry.answer { sharing } (calls.map (·.map .ofWord))).1.size < 2 ^ 32 - 1 := by
    refine (Registry.size_run_le sharing _).trans_lt ?_
    rw [List.flatMap_map]
    simpa only [Call.kept_map] using room
  have hroom (sharing : Sharing) := (hsize sharing).trans (by decide : 2 ^ 32 - 1 < 2 ^ 32)
  have hholds : s.pool.Holds _ := run_holds (hempty sharing) calls
  refine ⟨?named, ?bijective, ?prefixes, ?alike⟩
  case named =>
    intro uri id h
    have huri := h.uri?_eq (hempty sharing) (hroom sharing)
    exact ⟨huri, index?_of_uri? huri⟩
  case bijective =>
    intro uri id uri' id' h h'
    exact h.eq_iff h' (hempty sharing) (hroom sharing)
  case prefixes =>
    intro before after hcalls t r
    have hbefore : t.pool.Holds r.catalogue := run_holds (hempty sharing) before
    have hlater := run_extends_split { sharing } hcalls
    have hfits := (Registry.size_le_of_extends hlater).trans_lt (hroom sharing)
    refine ⟨hbefore, hbefore.faithful hfits, ?_, fun id uri h => ?_⟩
    · rw [intern_eq, if_pos rfl]
    · rw [uri?_eq hbefore] at h
      rw [uri?_eq hholds]
      exact hlater _ _ h
  case alike =>
    intro other
    have hanswers : (Call.run answer { sharing := other } calls).2 = answers :=
      (@run_of_pool_eq { sharing := other } { sharing } rfl calls).2
    have hregistry := run_map (hempty other) calls (hroom other)
    exact ⟨hanswers, hregistry.trans (congrArg _ hanswers)⟩

/-- One list with the empty URI and another twice, then URIs old and new. -/
theorem ids_of_list_given :
    let calls : List (Call UInt32) := [.predefine [utf8 "a", [], utf8 "a"], .intern (utf8 "b"),
      .intern [], .intern (utf8 "a"), .uri 1, .index 3, .identifier 2, .shortName 2, .size]
    (calls.flatMap Call.kept).toFinset.card < 2 ^ 32 - 1 ∧
      ∀ sharing, (Call.run answer { sharing } calls).2.map (Answer.map NsId.ofWord) =
        ([.ids [.numbered 0, .numbered 1, .numbered 0], .id (.numbered 2), .id .unknown,
          .id (.numbered 0), .uri (some []), .index none, .id (.numbered 2), .name "ns2",
          .size 3] : List (Answer NsId)) := by
  intro calls
  have room : (calls.flatMap Call.kept).toFinset.card < 2 ^ 32 - 1 := by decide
  refine ⟨room, fun sharing => ?_⟩
  obtain ⟨-, -, -, hanswers⟩ := ids_bijective sharing calls room
  rw [← (hanswers .exclusive).2]
  decide +kernel

end Store
end XmlStream
