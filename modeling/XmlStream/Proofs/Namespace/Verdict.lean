import XmlStream.Proofs.Namespace.Forwarding
/-! The verdict of a reading with namespaces: the first fault that lexical scope finds in the
events, and the document's own end where it finds none. -/
namespace XmlStream

namespace Lexical

variable {context : Scope} {g : Registry}

/-- Events in which each end tag has the id and the local name of the innermost element that is
open, and in the end none is. -/
inductive Nested : List (NsId × Bytes) → List NsEvent → Prop
  | done : Nested [] []
  | startElement {names ns n x es} : Nested ((ns, n.localName) :: names) es →
      Nested names (.startElement ns n x :: es)
  | endElement {names ns n x es} : Nested names es →
      Nested ((ns, n.localName) :: names) (.endElement ns n x :: es)
  | doctype {names d es} : Nested names es → Nested names (.doctype d :: es)
  | startDeclaration {names n es} : Nested names es → Nested names (.startDeclaration n :: es)
  | endDeclaration {names n es} : Nested names es → Nested names (.endDeclaration n :: es)
  | declarationAttr {names n x es} : Nested names es → Nested names (.declarationAttr n x :: es)
  | attr {names ns n x es} : Nested names es → Nested names (.attr ns n x :: es)
  | characters {names t es} : Nested names es → Nested names (.characters t :: es)

def Env.names (g : Registry) (v : Env) : List (NsId × Bytes) :=
  v.outer.map fun e => (e.meaning.id g, e.localName)

theorem names_attr (context : Scope) (v : Env) (n : QName) (x : Span) :
    (v.step context (.attr n x)).names g = v.names g := by
  change (v.attr context n x).names g = v.names g
  unfold Env.attr
  split
  · rfl
  · split <;> rfl

theorem nested_of_forwarded {v : Env} {es : List Event} {bs : List NsEvent}
    (hf : Forwarded g context v es bs) (ho : v.Orderly context es)
    (hv : verdict? g context v es = none) (he : (v.run context es).outer = []) :
    Nested (v.names g) bs := by
  induction hf with
  | @nil v =>
    have : v.outer = [] := he
    rw [Env.names, this]
    exact .done
  | @bind v n x b es bs hd hb _ ih =>
    rw [verdict?, Option.or_eq_none_iff] at hv
    rw [← names_attr context v n x]
    exact ih ho.2 hv.2 he
  | @forward v e b es bs h _ ih =>
    rw [verdict?, Option.or_eq_none_iff] at hv
    have ih := ih ho.2 hv.2 he
    cases h with
    | doctype => exact .doctype ih
    | startDeclaration => exact .startDeclaration ih
    | endDeclaration => exact .endDeclaration ih
    | characters => exact .characters ih
    | declarationAttr =>
      rw [names_attr] at ih
      exact .declarationAttr ih
    | attr =>
      rw [names_attr] at ih
      exact .attr ih
    | startElement hm =>
      refine .startElement ?_
      rw [← hm.id_eq]
      exact ih
    | @endElement ns n x hm =>
      obtain ⟨-, ho⟩ := ho.1
      have hfault := hv.1
      unfold Env.names
      cases hv : v.outer with
      | nil => exact (ho hv).elim
      | cons e outer =>
        simp only [Env.fault?, hv, hm.id_eq] at hfault
        split at hfault
        · rename_i heq
          simp only [Env.names, Env.step, hv, List.tail_cons] at ih
          rw [List.map_cons, heq]
          exact .endElement ih
        · cases hfault

/-! Where a fault is. -/

theorem exists_of_verdict {v : Env} {es : List Event} {error : Error}
    (h : verdict? g context v es = some error) :
    ∃ u e w, es = u ++ e :: w ∧ (v.run context u).fault? g context e = some error := by
  induction es generalizing v with
  | nil => cases h
  | cons e es ih =>
    rw [verdict?] at h
    cases hf : v.fault? g context e with
    | some error' =>
      rw [hf, Option.some_or] at h
      cases h
      exact ⟨[], e, es, rfl, hf⟩
    | none =>
      rw [hf, Option.none_or] at h
      obtain ⟨u, e', w, rfl, hu⟩ := ih h
      exact ⟨e :: u, e', w, rfl, hu⟩

def Env.Plain (v : Env) (n : QName) (x : Span) : Prop :=
  v.inDeclaration = false ∧ binding? n x = none

def IsAttr (e : Event) : Prop := ∃ n x, e = .attr n x

theorem mem_attrs_step {v : Env} {e : Event} {a : Meaning × Bytes}
    (h : a ∈ (v.step context e).attrs) : IsAttr e ∧ (a ∈ v.attrs ∨ ∃ n x, e = .attr n x ∧
      v.Plain n x ∧ a = (v.meaning context n.qualifier, n.localName)) := by
  cases e with
  | attr n x =>
    refine ⟨⟨n, x, rfl⟩, ?_⟩
    change a ∈ (v.attr context n x).attrs at h
    unfold Env.attr at h
    split at h
    · exact .inl h
    · rename_i hd
      split at h
      · exact .inl h
      · rename_i hb
        obtain rfl | h := List.mem_cons.1 h
        · exact .inr ⟨n, x, rfl, ⟨by simpa using hd, hb⟩, rfl⟩
        · exact .inl h
  | _ => cases h

/-- What a tag has had for attributes stands right before, with attributes only in between. -/
theorem exists_of_attrs {v : Env} {es : List Event} {a : Meaning × Bytes}
    (h : a ∈ (v.run context es).attrs) : (a ∈ v.attrs ∧ ∀ e ∈ es, IsAttr e) ∨
      ∃ u n x m, es = u ++ .attr n x :: m ∧ (∀ e ∈ m, IsAttr e) ∧
        (v.run context u).Plain n x ∧
        a = ((v.run context u).meaning context n.qualifier, n.localName) := by
  induction es generalizing v with
  | nil => exact .inl ⟨h, by simp⟩
  | cons e es ih =>
    obtain ⟨ha, hes⟩ | ⟨u, n, x, m, rfl, hm, hp, rfl⟩ := ih h
    · obtain ⟨he, ha | ⟨n, x, rfl, hp, rfl⟩⟩ := mem_attrs_step ha
      · exact .inl ⟨ha, by simpa using ⟨he, hes⟩⟩
      · exact .inr ⟨[], n, x, es, rfl, hes, hp, rfl⟩
    · exact .inr ⟨e :: u, n, x, m, rfl, hm, hp, rfl⟩

/-- Two attributes of one tag, neither of them a binding, with the same id and local name. -/
def Repeated (g : Registry) (context : Scope) (v : Env) (es : List Event) : Prop :=
  ∃ u n x m n' x' w, es = u ++ .attr n x :: (m ++ .attr n' x' :: w) ∧ (∀ e ∈ m, IsAttr e) ∧
    (v.run context u).Plain n x ∧ (v.run context (u ++ .attr n x :: m)).Plain n' x' ∧
    n.localName = n'.localName ∧
    ((v.run context u).meaning context n.qualifier).id g =
      ((v.run context (u ++ .attr n x :: m)).meaning context n'.qualifier).id g

/-- Only attributes of one tag are ever found to be duplicates. -/
theorem repeated_of_verdict {es : List Event} {ns : NsId} {name : Bytes} {offset : Option Nat}
    (h : verdict? g context {} es = some (.malformed (.duplicateAttribute ns name) offset)) :
    Repeated g context {} es := by
  obtain ⟨u, e, w, rfl, hf⟩ := exists_of_verdict h
  cases e with
  | attr n' x' =>
    simp only [Env.fault?] at hf
    split at hf
    · rename_i hc
      obtain ⟨hd, hb, a, ha, hid, hl⟩ := hc
      obtain ⟨ha, -⟩ | ⟨u, n, x, m, rfl, hm, hp, rfl⟩ := exists_of_attrs ha
      · cases ha
      · exact ⟨u, n, x, m, n', x', w, by simp, hm, hp, ⟨hd, hb⟩, hl, hid⟩
    · cases hf
  | endElement =>
    simp only [Env.fault?] at hf
    split at hf
    · cases hf
    · split at hf <;> cases hf
  | _ => cases hf

end Lexical
namespace Document
open Lexical

variable {σ : Type}

theorem trace_error_offset {config : Config} {doc : Bytes} {error : Error}
    (h : (trace config doc).error = some error) :
    ∃ cause pos, error = .malformed cause (some pos) := by
  obtain ⟨cause, herror⟩ := trace_error_position h
  exact ⟨cause, _, herror⟩

/-- A reading that no handler stops ends with the first fault that lexical scope finds in the events
of the document, and as the document does where it finds none. So when it ends without an error the
end tags close the elements in order, under the names these have; and attributes are found to be
duplicates only within a tag. -/
theorem readResolved_verdict {h : Handler σ NsEvent} (hh : h.Tireless) (config : Config)
    (doc : Bytes) (registry : Registry) (context : Scope) (s : σ) :
    let events := (trace config doc).events
    let reading := readResolved config doc registry context h s
    let forwarded :=
      (readResolved config doc registry context (Handler.recording h) ([], s)).state.1
    reading.error = (verdict? reading.registry context {} events).or (trace config doc).error ∧
      (reading.error = none → Nested [] forwarded) ∧
      (∀ ns name, reading.error = some (.malformed (.duplicateAttribute ns name) none) →
        Repeated reading.registry context {} events) := by
  intro events reading forwarded
  have herror : reading.error =
      (verdict? reading.registry context {} events).or (trace config doc).error := by
    obtain ⟨bs, out, hr, he⟩ := runs_readResolved config doc registry context h s
    simp only [reading, he, events, hr.verdict hh]
  refine ⟨herror, fun hnone => ?_, fun ns name hdup => ?_⟩
  · obtain ⟨ho, hend⟩ := orderly_trace context config doc
    obtain ⟨bs, out, hr, he⟩ :=
      runs_readResolved config doc registry context (Handler.recording h) ([], s)
    have hrec := (readResolved_recording config doc registry context h s).2.1.trans hnone
    rw [he, Option.or_eq_none_iff] at hrec
    obtain ⟨n, hn, hl⟩ := hr.forwarded
    rw [List.take_of_length_le (hl hrec.1)] at hn
    have hv := (hr.verdict hh.recording).symm.trans hrec.1
    simp only [forwarded, he, hr.recorded]
    exact nested_of_forwarded hn ho hv (by rw [hend hrec.2])
  · rw [herror] at hdup
    cases hv : verdict? reading.registry context {} events with
    | some error =>
      rw [hv, Option.some_or] at hdup
      cases hdup
      exact repeated_of_verdict hv
    | none =>
      rw [hv, Option.none_or] at hdup
      obtain ⟨cause, pos, he⟩ := trace_error_offset hdup
      cases he

/-- An element closed under another name: the fault is at the `<` of the end tag. -/
theorem readResolved_mismatch :
    (readResolved .lenient (utf8 "<a></b>") {} {} (fun (n : Nat) _ => (n + 1, none)) 0).error =
      some (.malformed (.mismatchedClose .unknown (utf8 "a") .unknown (utf8 "b")) (some 3)) := by
  have hh : Read.header .lenient (.atStart (utf8 "<a></b>")) =
      .ok ⟨[], some ⟨0, .content⟩⟩ ⟨0, utf8 "<a></b>"⟩ := rfl
  have h₁ : Read.step ⟨0, .content⟩ ⟨0, utf8 "<a></b>"⟩ =
      .ok ⟨[], some ⟨0, .tag 0 ⟨[], utf8 "a"⟩⟩⟩ ⟨2, utf8 "></b>"⟩ := rfl
  have h₂ : Read.step ⟨0, .tag 0 ⟨[], utf8 "a"⟩⟩ ⟨2, utf8 "></b>"⟩ =
      .ok ⟨[⟨.startElement ⟨[], utf8 "a"⟩ ⟨0, 3⟩, 3⟩], some ⟨1, .content⟩⟩ ⟨3, utf8 "</b>"⟩ := rfl
  have h₃ : Read.step ⟨1, .content⟩ ⟨3, utf8 "</b>"⟩ =
      .ok ⟨[⟨.endElement ⟨[], utf8 "b"⟩ ⟨3, 7⟩, 7⟩], none⟩ ⟨7, []⟩ := rfl
  have ht : (trace .lenient (utf8 "<a></b>")).events =
      [.startElement ⟨[], utf8 "a"⟩ ⟨0, 3⟩, .endElement ⟨[], utf8 "b"⟩ ⟨3, 7⟩] := by
    simp only [trace, hh]
    rw [traceOn_ok (p := ⟨[], some ⟨0, .content⟩⟩) rfl h₁, traceOn_ok rfl h₂, traceOn_ok rfl h₃,
      traceOn_none rfl]
    rfl
  rw [(readResolved_verdict (h := fun (n : Nat) _ => (n + 1, none)) (fun _ _ => rfl) .lenient
    (utf8 "<a></b>") {} {} 0).1, ht]
  rfl

end Document
end XmlStream
