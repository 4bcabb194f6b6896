import Mathlib.Data.List.DropRight
import Mathlib.Data.Set.Card
import Mathlib.Tactic.TFAE
import XmlStream.Proofs.Namespace.Identity
/-! Predefining. With each list that is known beforehand, a catalogue counts all that it then holds.
So what it counts has come with such lists only as long as nothing new has been inserted before the
last of them. -/
namespace XmlStream.Catalogue

inductive Addition where
  | insert (uri : Bytes)
  | predefine (uris : List Bytes)

def Addition.isList : Addition → Bool
  | .insert _ => false
  | .predefine _ => true

def add (c : Catalogue) : Addition → Catalogue
  | .insert uri => (c.insert uri).1
  | .predefine uris => (c.predefine uris).1

def built (as : List Addition) : Catalogue := as.foldl add .empty

def CameWith (as : List Addition) (uri : Bytes) (a : Addition) : Prop :=
  ∃ before, before ++ [a] <+: as ∧ uri ∉ (built before).uris ∧ uri ∈ (built (before ++ [a])).uris

def listed (as : List Addition) : Set Bytes := {uri | ∃ uris, CameWith as uri (.predefine uris)}

def upToList (as : List Addition) : List Addition := as.rdropWhile (!·.isList)

theorem upToList_insert (as : List Addition) (uri : Bytes) :
    upToList (as ++ [.insert uri]) = upToList as :=
  List.rdropWhile_concat_pos _ _ _ rfl

theorem upToList_predefine (as : List Addition) (uris : List Bytes) :
    upToList (as ++ [.predefine uris]) = as ++ [.predefine uris] :=
  List.rdropWhile_concat_neg _ _ _ Bool.false_ne_true

theorem built_concat (as : List Addition) (a : Addition) :
    built (as ++ [a]) = (built as).add a :=
  List.foldl_append

theorem prefix_add (c : Catalogue) (a : Addition) : c.uris <+: (c.add a).uris := by
  cases a with
  | insert uri => exact Registry.extends_iff.1 (Registry.insert_spec ⟨.exclusive, c⟩ uri).1
  | predefine uris => exact Registry.extends_iff.1 (Registry.predefine_spec ⟨.exclusive, c⟩ uris).1

/-- What has come stays where it is. -/
theorem prefix_built {as bs : List Addition} (h : as <+: bs) :
    (built as).uris <+: (built bs).uris := by
  obtain ⟨more, rfl⟩ := h
  induction more using List.reverseRecOn with
  | nil => rw [List.append_nil]
  | append_singleton more a ih =>
    rw [← List.append_assoc, built_concat]
    exact ih.trans (prefix_add _ a)

theorem predefined_insertAll (c : Catalogue) (uris : List Bytes) :
    (c.insertAll uris).1.predefined = c.predefined := by
  induction uris generalizing c with
  | nil => rfl
  | cons uri uris ih => exact (ih _).trans (c.predefined_insert uri)

/-- Only lists raise the count, each to the size that it leaves the catalogue with. -/
theorem predefined_built (as : List Addition) :
    (built as).predefined = (built (upToList as)).size := by
  induction as using List.reverseRecOn with
  | nil => rfl
  | append_singleton as a ih =>
    cases a with
    | insert uri =>
      rw [upToList_insert, built_concat, ← ih]
      exact predefined_insert _ uri
    | predefine uris =>
      have hle : (built as).predefined ≤ ((built as).add (.predefine uris)).size := by
        rw [ih]
        exact ((prefix_built (List.rdropWhile_prefix _ _)).trans (prefix_add _ _)).length_le
      rw [upToList_predefine, built_concat]
      refine Eq.trans ?_ (Nat.max_eq_right hle)
      exact congrArg (max · _) (predefined_insertAll _ uris)

/-! Each URI has come with one addition. -/

theorem cameWith_concat {as : List Addition} {uri : Bytes} {a b : Addition} :
    CameWith (as ++ [b]) uri a ↔ CameWith as uri a ∨
      (a = b ∧ uri ∉ (built as).uris ∧ uri ∈ (built (as ++ [b])).uris) := by
  constructor
  · rintro ⟨before, hinitial, hnew, hcame⟩
    obtain heq | hinitial := List.prefix_concat_iff.1 hinitial
    · obtain ⟨rfl, hab⟩ := List.append_inj' heq rfl
      obtain rfl := List.singleton_inj.1 hab
      exact .inr ⟨rfl, hnew, hcame⟩
    · exact .inl ⟨before, hinitial, hnew, hcame⟩
  · rintro (⟨before, hinitial, hnew, hcame⟩ | ⟨rfl, hnew, hcame⟩)
    · exact ⟨before, hinitial.trans (List.prefix_append _ _), hnew, hcame⟩
    · exact ⟨as, List.prefix_refl _, hnew, hcame⟩

theorem CameWith.mem {as : List Addition} {uri : Bytes} {a : Addition} (h : CameWith as uri a) :
    uri ∈ (built as).uris := by
  obtain ⟨before, hinitial, -, hcame⟩ := h
  exact (prefix_built hinitial).subset hcame

theorem exists_cameWith {as : List Addition} {uri : Bytes} (h : uri ∈ (built as).uris) :
    ∃ a, CameWith as uri a := by
  induction as using List.reverseRecOn with
  | nil => cases h
  | append_singleton as a ih =>
    by_cases hold : uri ∈ (built as).uris
    · obtain ⟨b, hb⟩ := ih hold
      exact ⟨b, cameWith_concat.2 (.inl hb)⟩
    · exact ⟨a, cameWith_concat.2 (.inr ⟨rfl, hold, h⟩)⟩

theorem CameWith.unique {as : List Addition} {uri : Bytes} {a b : Addition}
    (ha : CameWith as uri a) (hb : CameWith as uri b) : a = b := by
  induction as using List.reverseRecOn with
  | nil => cases ha.mem
  | append_singleton as c ih =>
    rw [cameWith_concat] at ha hb
    obtain ha | ⟨rfl, hnew, -⟩ := ha <;> obtain hb | ⟨rfl, hnew', -⟩ := hb
    · exact ih ha hb
    · exact absurd ha.mem hnew'
    · exact absurd hb.mem hnew
    · rfl

/-- Behind the last list no list brings anything. -/
theorem listed_upToList (as : List Addition) : listed (upToList as) = listed as := by
  induction as using List.reverseRecOn with
  | nil => rfl
  | append_singleton as a ih =>
    cases a with
    | insert uri =>
      rw [upToList_insert, ih]
      ext u
      simp only [listed, Set.mem_ofPred_eq, cameWith_concat, reduceCtorEq, false_and, or_false]
    | predefine uris => rw [upToList_predefine]

/-- As many have come with lists as there are just if all have, and that is so just if whatever has
been inserted was there before. -/
theorem tfae_listed (as : List Addition) :
    List.TFAE [
      (built as).size ≤ (listed as).ncard,
      ∀ uri ∈ (built as).uris, uri ∈ listed as,
      ∀ before uri, before ++ [.insert uri] <+: as → uri ∈ (built before).uris] := by
  have hsubset : listed as ⊆ {uri | uri ∈ (built as).uris} := by
    rintro uri ⟨uris, huri⟩
    exact huri.mem
  have hfinite : {uri | uri ∈ (built as).uris}.Finite := List.finite_toSet _
  have hcard : {uri | uri ∈ (built as).uris}.ncard = (built as).size := by
    rw [size, ← List.toFinset_card_of_nodup (built as).nodup, ← Set.ncard_coe_finset,
      List.coe_toFinset]
  tfae_have 1 → 2 := by
    intro hle uri huri
    have heq := Set.eq_of_subset_of_ncard_le hsubset (hcard.trans_le hle) hfinite
    exact heq.symm.subset huri
  tfae_have 2 → 1 := by
    intro hall
    rw [← hcard]
    exact Set.ncard_le_ncard hall (hfinite.subset hsubset)
  tfae_have 2 → 3 := by
    intro hall before uri hinitial
    by_contra hnew
    have hcame : uri ∈ (built (before ++ [.insert uri])).uris := by
      rw [built_concat, add]
      exact List.mem_of_getElem? (Registry.insert_spec ⟨.exclusive, built before⟩ uri).2
    have hinserted : CameWith as uri _ := ⟨before, hinitial, hnew, hcame⟩
    obtain ⟨uris, hlisted⟩ := hall uri hinserted.mem
    cases hinserted.unique hlisted
  tfae_have 3 → 2 := by
    intro hold uri huri
    obtain ⟨_ | uris, hcame⟩ := exists_cameWith huri
    · rename_i u
      obtain ⟨before, hinitial, hnew, hcame⟩ := hcame
      rw [built_concat, add] at hcame
      have hor := Registry.uris_insert_subset ⟨.exclusive, built before⟩ u hcame
      obtain hbefore | hu := List.mem_append.1 hor
      · exact absurd hbefore hnew
      · obtain rfl := List.mem_singleton.1 hu
        exact absurd (hold before _ hinitial) hnew
    · exact ⟨uris, hcame⟩
  tfae_finish

/-- The count is the size with which the last list has left the catalogue. It is no more than what
lists have brought just if all that stands below it has come with lists, and that is so just if
whatever has been inserted before the last list was there already. -/
theorem predefined_tfae (as : List Addition) :
    let c := built as
    c.predefined = (built (upToList as)).size ∧
    List.TFAE [
      c.predefined ≤ (listed as).ncard,
      ∀ index < c.predefined, ∀ uri, c.get? index = some uri → uri ∈ listed as,
      ∀ before uri, before ++ [.insert uri] <+: upToList as → uri ∈ (built before).uris] := by
  intro c
  have hpredefined := predefined_built as
  have hinitial := List.prefix_iff_getElem?.1 (prefix_built (List.rdropWhile_prefix (!·.isList) as))
  -- below the count stand the URIs that were there with the last list
  have hbelow (P : Bytes → Prop) : (∀ index < c.predefined, ∀ uri, c.get? index = some uri → P uri) ↔
      ∀ uri ∈ (built (upToList as)).uris, P uri := by
    rw [hpredefined]
    constructor
    · intro h uri huri
      obtain ⟨index, hindex, rfl⟩ := List.getElem_of_mem huri
      exact h index hindex _ (hinitial index hindex)
    · intro h index hindex uri huri
      obtain rfl := Option.some.inj ((hinitial index hindex).symm.trans huri)
      exact h _ (List.getElem_mem hindex)
  refine ⟨hpredefined, ?_⟩
  have htfae := tfae_listed (upToList as)
  rw [listed_upToList, ← hpredefined, ← hbelow (· ∈ listed as)] at htfae
  exact htfae

/-- One URI of a document before a list that is empty. -/
theorem counted_unlisted : ¬ ∀ as : List Addition,
    (built as).predefined ≤ (listed as).ncard ∧
      ∀ index < (built as).predefined, ∀ uri, (built as).get? index = some uri →
        uri ∈ listed as := by
  intro h
  obtain ⟨-, hbelow⟩ := h [.insert (utf8 "urn:doc"), .predefine []]
  obtain ⟨uris, hlisted⟩ := hbelow 0 (by decide) (utf8 "urn:doc") (by decide)
  have hinserted : CameWith [.insert (utf8 "urn:doc"), .predefine []] (utf8 "urn:doc")
      (.insert (utf8 "urn:doc")) := ⟨[], List.prefix_append _ _, by decide, by decide⟩
  cases hinserted.unique hlisted

end XmlStream.Catalogue
