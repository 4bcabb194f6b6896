import Mathlib.Data.List.DropRight
import XmlStream.Proofs.Batching
import XmlStream.Proofs.Calling
/-! Waiting. An attribute waits in its batch for the next start tag, and no other call has it go: not
an end tag, not text, and not a handler that refused the start tag before. -/
namespace XmlStream

variable {σ : Type}

namespace NsEvent

def isStart : NsEvent → Bool
  | startElement .. => true
  | _ => false

def attr? : NsEvent → Option NsAttr
  | attr ns name value => some ⟨ns, name, value⟩
  | _ => none

def waiting (es : List NsEvent) : List NsAttr :=
  (es.rtakeWhile fun e => !e.isStart).filterMap attr?

theorem waiting_start {e : NsEvent} (he : e.isStart = true) (es : List NsEvent) :
    waiting (es ++ [e]) = [] := by
  rw [waiting, List.rtakeWhile_concat_neg _ _ _ (by simp [he])]
  rfl

theorem waiting_attr (es : List NsEvent) (a : NsAttr) :
    waiting (es ++ [a.event]) = waiting es ++ [a] := by
  rw [waiting, List.rtakeWhile_concat_pos _ _ _ rfl, List.filterMap_append]
  rfl

theorem waiting_other {e : NsEvent} (he : e.isStart = false) (ha : e.attr? = none)
    (es : List NsEvent) : waiting (es ++ [e]) = waiting es := by
  rw [waiting, List.rtakeWhile_concat_pos _ _ _ (by simp [he]), List.filterMap_append,
    List.filterMap_cons_none ha, List.filterMap_nil, List.append_nil, waiting]

end NsEvent

namespace Batch
open NsEvent (waiting)

structure Ranged (b : Batch) : Prop where
  ordered : ∀ a ∈ b.attrs, ∀ start stop, a.value = .copy start stop → start ≤ stop
  inBounds : b.InBounds

variable {l : Lexicon} {b : Batch} {attrs : List NsAttr}

theorem Ranged.empty : Ranged .empty := ⟨nofun, .empty⟩

theorem Ranged.hold (hb : b.Ranged) (name : TokenName) (value : Span) :
    (b.hold name value).Ranged := by
  refine ⟨fun a ha start stop hv => ?_, hb.inBounds.hold name value⟩
  cases value with
  | stable slice =>
    obtain ha | rfl := by simpa [Batch.hold] using ha
    · exact hb.ordered a ha start stop hv
    · cases hv
  | transient bytes =>
    obtain ha | rfl := by simpa [Batch.hold] using ha
    · exact hb.ordered a ha start stop hv
    · cases hv
      simp [Buffer.size_eq]

structure Keeps (l : Lexicon) (attrs : List NsAttr) (b : Batch) : Prop where
  ranged : b.Ranged
  release : b.release = attrs.map (NsAttr.tokenized l)

theorem Keeps.empty (l : Lexicon) : Keeps l [] .empty := ⟨.empty, rfl⟩

theorem Keeps.hold (h : Keeps l attrs b) (a : NsAttr) :
    Keeps l (attrs ++ [a]) (b.hold (l.name a.ns a.name.localName) a.value) := by
  refine ⟨h.ranged.hold _ _, ?_⟩
  rw [release_hold h.ranged.inBounds, h.release, List.map_append]
  rfl

theorem Keeps.step {es : List NsEvent} (h : Keeps l (waiting es) b) (e : NsEvent) :
    Keeps l (waiting (es ++ [e])) (Batch.step l b e).1 := by
  cases e with
  | attr ns name value =>
    have hwaiting := NsEvent.waiting_attr es ⟨ns, name, value⟩
    rw [NsAttr.event] at hwaiting
    rw [hwaiting]
    exact h.hold ⟨ns, name, value⟩
  | startElement =>
    rw [NsEvent.waiting_start rfl]
    exact .empty l
  | endElement | characters | doctype | startDeclaration | endDeclaration | declarationAttr =>
    rw [NsEvent.waiting_other rfl rfl]
    exact h

theorem Keeps.through (l : Lexicon) (es : List NsEvent) :
    Keeps l (waiting es) (Stage.through (Batch.step l) .empty es) := by
  induction es using List.reverseRecOn with
  | nil => exact .empty l
  | append_singleton es e ih =>
    rw [Stage.through_append]
    exact ih.step e

/-- Whatever has been called, and whatever the handler has refused, each range that is held can be
taken from the copies, and a start tag hands over the attributes that have come since the one before
it, in order and with the values that they came with. -/
theorem calls_waiting (l : Lexicon) (h : Handler σ TokenEvent) (s : σ) (es : List NsEvent) :
    let left := ((Stage.before (step l) h).calls (.empty, s) es).1
    left.1.Ranged ∧
      ∀ ns name extent,
        let handed := .startElement (l.name ns name.localName) extent
          ((waiting es).map (NsAttr.tokenized l))
        Stage.before (step l) h left (.startElement ns name extent) =
          ((.empty, (h left.2 handed).1), (h left.2 handed).2) := by
  intro left
  have hkeeps : Keeps l (waiting es) left.1 := by
    rw [show left.1 = _ from Stage.calls_before (step l) h .empty s es]
    exact .through l es
  refine ⟨hkeeps.ranged, ?_⟩
  intro ns name extent handed
  have hstep : step l left.1 (.startElement ns name extent) = (.empty, .deliver handed) := by
    rw [step, hkeeps.release]
  exact Stage.before_deliver hstep

/-- The first start tag is refused, and an end tag and text come between the attributes of the
second one. -/
example :
    let value := Span.transient (utf8 "v")
    let refusing : Handler Nat TokenEvent := fun n _ =>
      (n + 1, if n = 0 then some (.handler "no") else none)
    let out := (Stage.before (step ⟨⟨[]⟩, {}⟩) refusing.recording).calls (.empty, ([], 0)) [
      .attr .unknown ⟨[], utf8 "a"⟩ value, .startElement .unknown ⟨[], utf8 "e"⟩ ⟨0, 0⟩,
      .attr .unknown ⟨[], utf8 "b"⟩ value, .endElement .unknown ⟨[], utf8 "e"⟩ ⟨0, 0⟩,
      .characters value, .attr .unknown ⟨[], utf8 "c"⟩ value,
      .startElement .unknown ⟨[], utf8 "f"⟩ ⟨0, 0⟩]
    out.1.2.1.getLast? = some (.startElement ⟨.unknown, .unknown, .unknown, utf8 "f"⟩ ⟨0, 0⟩
      [⟨⟨.unknown, .unknown, .unknown, utf8 "b"⟩, value⟩,
        ⟨⟨.unknown, .unknown, .unknown, utf8 "c"⟩, value⟩]) ∧
      out.2 = [none, some (.handler "no"), none, none, none, none, none] := by
  decide +kernel

end Batch
end XmlStream
