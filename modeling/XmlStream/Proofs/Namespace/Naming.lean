import XmlStream.Proofs.Namespace.Lexical
import Mathlib.Data.List.Forall2
/-! Naming: what an id stands for once a registry has given it, it stands for ever after, and
resolving a qualifier gives the id of what it means. So if all ids of a scope are such as the registry
gives, those of names are. -/
namespace XmlStream

namespace Registry

/-- Ids keep their URIs. -/
def Extends (r r' : Registry) : Prop := ∀ id uri, r.uri? id = some uri → r'.uri? id = some uri

theorem Extends.refl (r : Registry) : r.Extends r := fun _ _ h => h

theorem Extends.trans {r r' r'' : Registry} (h : r.Extends r') (h' : r'.Extends r'') :
    r.Extends r'' :=
  fun id uri hu => h' id uri (h id uri hu)

theorem uri?_numbered (r : Registry) (index : Nat) :
    r.uri? (.numbered index) = r.catalogue.get? index := rfl

theorem insert_spec (r : Registry) (uri : Bytes) :
    r.Extends (r.insert uri).1 ∧ (r.insert uri).1.uri? (r.insert uri).2 = some uri := by
  cases h : r.catalogue.find? uri with
  | some index =>
    rw [insert, Catalogue.insert_of_find? h]
    exact ⟨fun _ _ hu => hu, Catalogue.find?_eq_some_iff.1 h⟩
  | none =>
    obtain ⟨hu, hi⟩ := Catalogue.uris_insert_of_find? h
    constructor
    · rintro (_ | index) u hg
      · cases hg
      · simp only [insert, uri?_numbered, Catalogue.get?, hu] at hg ⊢
        rwa [List.getElem?_append_left (List.getElem?_eq_some_iff.1 hg).1]
    · simp [insert, uri?_numbered, Catalogue.get?, hu, hi, Catalogue.size]

theorem intern_spec (r : Registry) (uri : Bytes) :
    r.Extends (r.intern uri).1 ∧
      (Lexical.Meaning.uri uri).Names (r.intern uri).1 (r.intern uri).2 := by
  by_cases hu : uri = []
  · subst hu
    exact ⟨.refl r, rfl⟩
  · simp only [Lexical.Meaning.Names, intern, List.isEmpty_iff, hu, if_false]
    cases r.sharing with
    | exclusive => exact insert_spec r uri
    | shared =>
      cases h : r.catalogue.find? uri with
      | some index => exact ⟨.refl r, Catalogue.find?_eq_some_iff.1 h⟩
      | none => exact insert_spec r uri

/-- An id that the registry gives for a URI: unknown for the empty one. -/
def Issued (g : Registry) (ns : NsId) : Prop :=
  ns = .unknown ∨ ∃ uri, uri ≠ [] ∧ g.uri? ns = some uri

theorem Issued.mono {g G : Registry} {ns : NsId} (h : g.Issued ns) (hG : g.Extends G) :
    G.Issued ns := by
  obtain hu | ⟨uri, hne, hu⟩ := h
  · exact .inl hu
  · exact .inr ⟨uri, hne, hG _ _ hu⟩

theorem issued_intern (g : Registry) (uri : Bytes) : (g.intern uri).1.Issued (g.intern uri).2 := by
  obtain ⟨-, hnames⟩ := g.intern_spec uri
  by_cases hu : uri = []
  · rw [Lexical.Meaning.Names, if_pos hu] at hnames
    exact .inl hnames
  · rw [Lexical.Meaning.Names, if_neg hu] at hnames
    exact .inr ⟨uri, hu, hnames⟩

end Registry

namespace Scope

theorem bound?_eq_lookup (s : Scope) (key : Bytes) : s.bound? key = s.bindings.lookup key := by
  obtain ⟨bindings, seen⟩ := s
  simp only [bound?, stack]
  induction bindings with
  | nil => rfl
  | cons b bs ih =>
    rw [List.lookup_cons]
    by_cases h : b.1 = key
    · simp [h]
    · simp [h, beq_eq_false_iff_ne.2 (Ne.symm h), ih]

/-- Bindings of the same keys, one by one, answer a key alike. -/
theorem lookup_forall₂ {α β : Type} {R : α → β → Prop} {bs : List (Bytes × α)}
    {cs : List (Bytes × β)} (h : List.Forall₂ (fun b c => b.1 = c.1 ∧ R b.2 c.2) bs cs)
    (key : Bytes) : (bs.lookup key = none ∧ cs.lookup key = none) ∨
      ∃ a a', bs.lookup key = some a ∧ cs.lookup key = some a' ∧ R a a' := by
  induction h with
  | nil => exact .inl ⟨rfl, rfl⟩
  | @cons b c bs cs hb _ ih =>
    obtain ⟨hk, hr⟩ := hb
    rw [List.lookup_cons, List.lookup_cons, ← hk]
    cases key == b.1 with
    | true => exact .inr ⟨b.2, c.2, rfl, rfl, hr⟩
    | false => exact ih

def Issued (g : Registry) (s : Scope) : Prop := ∀ b ∈ s.bindings, g.Issued b.2

variable {g G : Registry} {s : Scope}

theorem issued_empty (g : Registry) : Scope.empty.Issued g := fun _ hb => by cases hb

theorem Issued.mono (h : s.Issued g) (hG : g.Extends G) : s.Issued G :=
  fun b hb => (h b hb).mono hG

theorem Issued.push (h : s.Issued g) (key uri : Bytes) :
    (s.push g key uri).2.1.Issued (s.push g key uri).1 := by
  intro b hb
  obtain rfl | hb := List.mem_cons.1 hb
  · exact g.issued_intern uri
  · exact h.mono (g.intern_spec uri).1 b hb

theorem Issued.pop (h : s.Issued g) (key : Bytes) : (s.pop key).1.Issued g :=
  fun b hb => h b (List.mem_of_mem_eraseP hb)

end Scope

namespace Lexical

theorem Meaning.Names.mono {r r' : Registry} {m : Meaning} {id : NsId} (hr : r.Extends r')
    (h : m.Names r id) : m.Names r' id := by
  cases m with
  | given ns => exact h
  | uri u =>
    by_cases hu : u = []
    · simpa [Names, hu] using h
    · simp only [Names, hu, if_false] at h ⊢
      exact hr id u h

/-- A registry gives no meaning two ids. -/
theorem Meaning.Names.id_eq {r : Registry} {m : Meaning} {id : NsId} (h : m.Names r id) :
    m.id r = id := by
  cases m with
  | given ns => exact h.symm
  | uri u =>
    by_cases hu : u = []
    · simp only [Names, Meaning.id, hu, if_true] at h ⊢
      exact h.symm
    · simp only [Names, Meaning.id, hu, if_false] at h ⊢
      cases id with
      | unknown => cases h
      | numbered index =>
        rw [Catalogue.find?_eq_some_iff.2 h]
        rfl

variable {g : Registry} {context : Scope}

def Meaning.Issued (g : Registry) (m : Meaning) : Prop := ∀ ns, m = .given ns → g.Issued ns

theorem Env.issued_meaning (hc : context.Issued g) (v : Env) (qualifier : Bytes) :
    (v.meaning context qualifier).Issued g := by
  intro ns hns
  unfold Env.meaning at hns
  split at hns
  · cases hns
  · split at hns
    · rename_i hb
      cases hns
      rw [Scope.bound?_eq_lookup] at hb
      obtain ⟨u, w, hbs, -⟩ := List.lookup_eq_some_iff.1 hb
      exact hc (qualifier, ns) (by simp [hbs])
    · split at hns <;> cases hns

theorem Meaning.Names.issued {m : Meaning} {ns : NsId} (h : m.Names g ns) (hm : m.Issued g) :
    g.Issued ns := by
  cases m with
  | given ns' => exact hm ns (congrArg Meaning.given h.symm)
  | uri u =>
    by_cases hu : u = []
    · rw [Names, if_pos hu] at h
      exact .inl h
    · rw [Names, if_neg hu] at h
      exact .inr ⟨u, hu, h⟩

end Lexical
end XmlStream
