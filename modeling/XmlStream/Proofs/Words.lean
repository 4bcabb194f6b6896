import XmlStream.Proofs.Grammar
/-! Words of events: what a handler may be told of a document, block by block. How many elements are
open after a beginning of a word is how many more have been started than ended in it. -/
namespace XmlStream

namespace Event

def isStart : Event → Bool
  | .startElement .. => true
  | _ => false

def isEnd : Event → Bool
  | .endElement .. => true
  | _ => false

def started (es : List Event) : Nat := es.countP isStart

def ended (es : List Event) : Nat := es.countP isEnd

@[simp] theorem started_append (es es' : List Event) :
    started (es ++ es') = started es + started es' :=
  List.countP_append

@[simp] theorem ended_append (es es' : List Event) :
    ended (es ++ es') = ended es + ended es' :=
  List.countP_append

@[simp] theorem started_cons (e : Event) (es : List Event) :
    started (e :: es) = started es + if e.isStart then 1 else 0 :=
  List.countP_cons

@[simp] theorem ended_cons (e : Event) (es : List Event) :
    ended (e :: es) = ended es + if e.isEnd then 1 else 0 :=
  List.countP_cons

@[simp] theorem started_nil : started [] = 0 := rfl

@[simp] theorem ended_nil : ended [] = 0 := rfl

end Event

open Event

def Extent.ClosesItself (doc : Bytes) (x : Extent) : Prop := doc[x.stop - 2]? = some .slash

namespace Emission

def Attrs (start stop : Nat) (as : List Emission) : Prop :=
  ∀ a ∈ as, (∃ name value, a.event = .attr name value) ∧ start < a.position ∧ a.position < stop

end Emission

open Emission (Attrs)

/-- What is told at a depth and belongs together, and the depth after it; none after the root. The
attributes of an element are told from inside its start tag. -/
inductive Block (doc : Bytes) : Nat → List Emission → Option Nat → Prop
  | doctype {d t p} : Block doc d [⟨.doctype t, p⟩] (some d)
  | declaration {d n as p q} : Attrs p q as →
      Block doc d (⟨.startDeclaration n, p⟩ :: (as ++ [⟨.endDeclaration n, q⟩])) (some d)
  | characters {d t p} : Block doc (d + 1) [⟨.characters t, p⟩] (some (d + 1))
  | startTag {d as n x} : Attrs x.start x.stop as → ¬ x.ClosesItself doc →
      Block doc d (as ++ [⟨.startElement n x, x.stop⟩]) (some (d + 1))
  | emptyTag {d as n x} : Attrs x.start x.stop as → x.ClosesItself doc →
      Block doc d (as ++ [⟨.startElement n x, x.stop⟩, ⟨.endElement n x, x.stop⟩])
        (Grammar.after d)
  | endTag {d n x} : Block doc (d + 1) [⟨.endElement n x, x.stop⟩] (Grammar.after d)

/-- Blocks up to the one that ends the root element, or up to anywhere if no element is started. -/
inductive Word (doc : Bytes) : Option Nat → List Emission → Prop
  | finished : Word doc none []
  | bare : Word doc (some 0) []
  | block {d d' b es} : Block doc d b d' → Word doc d' es → Word doc (some d) (b ++ es)

abbrev told (es : List Emission) : List Event := es.map (·.event)

theorem Emission.Attrs.event {start stop : Nat} {as : List Emission} (h : Attrs start stop as)
    {e : Event} (he : e ∈ told as) : ∃ name value, e = .attr name value := by
  obtain ⟨a, ha, rfl⟩ := List.mem_map.1 he
  exact (h a ha).1

theorem Emission.Attrs.started {start stop : Nat} {as : List Emission} (h : Attrs start stop as) :
    Event.started (told as) = 0 := by
  refine List.countP_eq_zero.2 fun e he => ?_
  obtain ⟨name, value, rfl⟩ := h.event he
  exact Bool.false_ne_true

theorem Emission.Attrs.ended {start stop : Nat} {as : List Emission} (h : Attrs start stop as) :
    Event.ended (told as) = 0 := by
  refine List.countP_eq_zero.2 fun e he => ?_
  obtain ⟨name, value, rfl⟩ := h.event he
  exact Bool.false_ne_true

variable {doc : Bytes} {d : Nat} {d' : Option Nat} {b es : List Emission}

theorem getD_after (d : Nat) : (Grammar.after d).getD 0 = d := by
  unfold Grammar.after
  split
  · exact Eq.symm (by assumption)
  · rfl

theorem after_ne_zero (d : Nat) : Grammar.after d ≠ some 0 := by
  unfold Grammar.after
  split
  · exact nofun
  · exact fun h => absurd (Option.some.inj h) (by assumption)

/-- A block ends as many elements more than it starts as the depth goes down. -/
theorem Block.count (h : Block doc d b d') :
    d + started (told b) = ended (told b) + d'.getD 0 := by
  cases h with
  | doctype | characters => simp [isStart, isEnd]
  | declaration has => simp [isStart, isEnd, has.started, has.ended]
  | startTag has => simp [isStart, isEnd, has.started, has.ended]
  | emptyTag has => simp [isStart, isEnd, has.started, has.ended, getD_after]; omega
  | endTag => simp [isStart, isEnd, getD_after]; omega

/-- No block leads out of all elements so that more may come, but for those outside of all. -/
theorem Block.outside (h : Block doc d b (some 0)) : d = 0 ∧ started (told b) = 0 := by
  generalize hd : some 0 = d' at h
  cases h with
  | doctype =>
    cases hd
    exact ⟨rfl, rfl⟩
  | declaration has =>
    cases hd
    simp [isStart, has.started]
  | characters | startTag => cases hd
  | emptyTag | endTag => exact absurd hd.symm (after_ne_zero _)

/-- Only the last event of a block ends an element. -/
theorem Block.last (h : Block doc d b d') : ∃ u e, told b = u ++ [e] ∧ ended u = 0 := by
  cases h with
  | doctype | characters | endTag => exact ⟨[], _, rfl, rfl⟩
  | @declaration _ n as p q has =>
    exact ⟨told (⟨.startDeclaration n, p⟩ :: as), .endDeclaration n, by simp,
      by simp [isEnd, has.ended]⟩
  | @startTag _ as n x has => exact ⟨told as, .startElement n x, by simp, has.ended⟩
  | @emptyTag _ as n x has =>
    exact ⟨told (as ++ [⟨.startElement n x, x.stop⟩]), .endElement n x, by simp,
      by simp [isEnd, has.ended]⟩

/-- A beginning of a block that is not all of it ends no element. -/
theorem Block.ended_within (h : Block doc d b d') {u : List Event} (hu : u <+: told b) :
    u = told b ∨ ended u = 0 := by
  obtain ⟨v, e, hb, hv⟩ := h.last
  rw [hb] at hu ⊢
  obtain rfl | hu := List.prefix_concat_iff.1 hu
  · exact .inl rfl
  · exact .inr (Nat.le_zero.1 (hv ▸ hu.sublist.countP_le))

/-- Characters come by themselves, inside of an element. -/
theorem Block.characters_within (h : Block doc d b d') {u : List Event} {t : Span}
    (hu : u ++ [.characters t] <+: told b) : u = [] ∧ 0 < d := by
  have hmem : Event.characters t ∈ told b := hu.subset (by simp)
  cases h with
  | @characters d =>
    obtain ⟨v, hv⟩ := hu
    have hlength := congrArg List.length hv
    simp only [told, List.length_append, List.length_cons, List.length_map, List.length_nil]
      at hlength
    exact ⟨List.eq_nil_of_length_eq_zero (by omega), Nat.succ_pos d⟩
  | doctype | endTag => simp [told] at hmem
  | declaration has | startTag has | emptyTag has =>
    simp only [told, List.map_cons, List.map_append, List.mem_append, List.mem_cons,
      List.map_nil, List.not_mem_nil, or_false, reduceCtorEq, false_or] at hmem
    obtain ⟨name, value, h⟩ := has.event hmem
    cases h

theorem Word.count {d : Option Nat} (h : Word doc d es) :
    d.getD 0 + started (told es) = ended (told es) := by
  induction h with
  | finished | bare => rfl
  | block hb _ ih =>
    have := hb.count
    simp only [told, List.map_append, started_append, ended_append, Option.getD_some] at ih this ⊢
    omega

theorem prefix_append_cases {α : Type} {u v w : List α} (h : u <+: v ++ w) :
    u <+: v ∨ ∃ w', u = v ++ w' ∧ w' <+: w := by
  obtain h' | ⟨w', rfl⟩ := List.prefix_or_prefix_of_prefix h (List.prefix_append v w)
  · exact .inl h'
  · exact .inr ⟨w', rfl, (List.prefix_append_right_inj v).1 h⟩

theorem Word.eq_nil (h : Word doc none es) : es = [] := by
  cases h
  rfl

theorem Word.ended_along {d : Option Nat} (h : Word doc d es) {u : List Event}
    (hu : u <+: told es) : ended u ≤ d.getD 0 + started u ∧
      (0 < d.getD 0 + started u → ended u = d.getD 0 + started u → u = told es) := by
  induction h generalizing u with
  | finished | bare =>
    obtain rfl := List.prefix_nil.1 hu
    exact ⟨Nat.zero_le _, fun _ _ => rfl⟩
  | @block e e' b es hb hw ih =>
    have hcount := hb.count
    rw [told, List.map_append] at hu ⊢
    -- Inside of the first block nothing has ended; after it the rest of the word decides.
    have hbeyond {v : List Event} (hv : v <+: told es) :
        ended (told b ++ v) ≤ e + started (told b ++ v) ∧
          (0 < e + started (told b ++ v) → ended (told b ++ v) = e + started (told b ++ v) →
            told b ++ v = told b ++ told es) := by
      obtain ⟨hle, heq⟩ := ih hv
      rw [started_append, ended_append]
      refine ⟨by omega, fun hpos h => ?_⟩
      by_cases hopen : 0 < e'.getD 0 + started v
      · rw [heq hopen (by omega)]
      · cases e' with
        | none =>
          obtain rfl := hw.eq_nil
          rw [List.prefix_nil.1 hv]
          rfl
        | some m =>
          rw [Option.getD_some] at hopen
          obtain rfl : m = 0 := by omega
          obtain ⟨rfl, hs⟩ := hb.outside
          omega
    obtain hu | ⟨v, rfl, hv⟩ := prefix_append_cases hu
    · obtain rfl | hnone := hb.ended_within hu
      · have h := hbeyond List.nil_prefix
        rw [List.append_nil] at h
        exact h
      · rw [hnone]
        exact ⟨Nat.zero_le _, fun hpos h => absurd h (Nat.ne_of_lt hpos)⟩
    · exact hbeyond hv

/-- Characters come only while some element is open. -/
theorem Word.characters_along {d : Option Nat} (h : Word doc d es) {u : List Event} {t : Span}
    (hu : u ++ [.characters t] <+: told es) : ended u < d.getD 0 + started u := by
  induction h generalizing u with
  | finished | bare => exact absurd (List.prefix_nil.1 hu) (by simp)
  | @block e e' b es hb hw ih =>
    rw [told, List.map_append] at hu
    obtain hu | ⟨v, huv, hv⟩ := prefix_append_cases hu
    · obtain ⟨rfl, hd⟩ := hb.characters_within hu
      exact hd
    · obtain rfl | ⟨v, x, rfl⟩ := List.eq_nil_or_concat v
      · rw [List.append_nil] at huv
        obtain ⟨rfl, hd⟩ := hb.characters_within ⟨[], (List.append_nil _).trans huv⟩
        exact hd
      · rw [List.concat_eq_append] at huv hv
        rw [← List.append_assoc] at huv
        obtain ⟨rfl, ⟨⟩⟩ := List.append_inj' huv rfl
        have hcount := hb.count
        have hopen := ih hv
        rw [Option.getD_some, started_append, ended_append]
        rw [told] at hcount
        omega

end XmlStream
