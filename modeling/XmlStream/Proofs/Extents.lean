import XmlStream.Proofs.Standing
/-! Extents. Tags and stable values stand in the document in the order in which they are told, one
behind the other, but for the attributes of an element, which are told before its start and stand
inside of it, and the two ends of a tag that closes itself, which are one tag. -/
namespace XmlStream
open Grammar Document

variable {σ : Type} {doc : Bytes}

namespace Event

def extent? : Event → Option Extent
  | .startElement _ x | .endElement _ x => some x
  | _ => none

def slice? : Event → Option Slice
  | .attr _ v | .characters v => v.stable?
  | _ => none

def isAttr : Event → Bool
  | .attr .. => true
  | _ => false

def EndsBy (e : Event) (offset : Nat) : Prop :=
  (∀ x, e.extent? = some x → x.stop ≤ offset) ∧ ∀ s, e.slice? = some s → s.stop ≤ offset

end Event

def Extent.text (doc : Bytes) (x : Extent) : Bytes := (Slice.of doc x.start x.stop).bytes

/-- An event stands behind those that have been told before it. -/
structure Fits (doc : Bytes) (before : List Event) (e : Event) : Prop where
  /-- A tag is not empty and stands between angles. -/
  tag : ∀ x, e.extent? = some x → x.start < x.stop ∧ doc[x.start]? = some .openAngle ∧
    doc[x.stop - 1]? = some .closeAngle
  opens : ∀ n x, e = .startElement n x → .openAngle :: n.text <+: x.text doc
  /-- An element ends with a tag of its own, or right after its start by the same tag. -/
  closes : ∀ n x, e = .endElement n x → utf8 "</" ++ n.text <+: x.text doc ∨
    (∃ u, before = u ++ [.startElement n x]) ∧ utf8 "/>" <:+ x.text doc
  tags : ∀ e' ∈ before, ∀ x' x, e'.extent? = some x' → e.extent? = some x → x'.stop ≤ x.start ∨
    ∃ u n, before = u ++ [e'] ∧ e' = .startElement n x ∧ e = .endElement n x
  /-- The attributes right before the start of an element stand inside of its tag. -/
  attrs : ∀ n x, e = .startElement n x → ∀ u n' s as, before = u ++ .attr n' (.stable s) :: as →
    (∀ a ∈ as, a.isAttr = true) → x.start < s.offset ∧ s.stop < x.stop
  texts : ∀ s, .characters (.stable s) ∈ before → ∀ x, e.extent? = some x → s.stop ≤ x.start
  values : ∀ s, e.slice? = some s → ∀ e' ∈ before, e'.EndsBy s.offset

namespace Event

variable {e : Event}

theorem EndsBy.mono {p q : Nat} (h : e.EndsBy p) (hpq : p ≤ q) : e.EndsBy q :=
  ⟨fun x hx => Nat.le_trans (h.1 x hx) hpq, fun s hs => Nat.le_trans (h.2 s hs) hpq⟩

theorem extent?_of_isAttr (h : e.isAttr = true) : e.extent? = none := by
  cases e with
  | attr => rfl
  | _ => cases h

end Event

/-- Attributes at the end of some events are among the attributes that the events end with. -/
theorem mem_attrs {u as u' as' : List Event} {a : Event} (h : u ++ as = u' ++ a :: as')
    (ha : ∀ e ∈ a :: as', e.isAttr = true)
    (hu : ∀ e, u.getLast? = some e → e.isAttr = false) : a ∈ as := by
  obtain ⟨t, -, rfl⟩ | ⟨t, rfl, ht⟩ := List.append_eq_append_iff.1 h
  · simp
  · obtain rfl | ⟨t, e, rfl⟩ := List.eq_nil_or_concat t
    · rw [List.nil_append] at ht
      rw [← ht]
      exact List.mem_cons_self
    · rw [List.concat_eq_append] at ht hu
      have he : e ∈ a :: as' := by rw [ht]; simp
      rw [← List.append_assoc, List.getLast?_concat] at hu
      cases (ha e he).symm.trans (hu e rfl)

namespace Fits

variable {before : List Event} {e : Event}

/-- What is no tag fits where all that has been told ends before it begins. -/
theorem of_value (hx : e.extent? = none)
    (hs : ∀ s, e.slice? = some s → ∀ e' ∈ before, e'.EndsBy s.offset) : Fits doc before e where
  tag x h := by cases hx.symm.trans h
  opens n x h := by cases h; cases hx
  closes n x h := by cases h; cases hx
  tags e' _ x' x _ h := by cases hx.symm.trans h
  attrs n x h := by cases h; cases hx
  texts s _ x h := by cases hx.symm.trans h
  values := hs

/-- A tag fits where what has been told, its own attributes aside, ends before it begins. -/
theorem of_tag {u as : List Event} {x : Extent} (hx : e.extent? = some x)
    (htag : x.start < x.stop ∧ doc[x.start]? = some .openAngle ∧
      doc[x.stop - 1]? = some .closeAngle)
    (hu : ∀ e' ∈ u, e'.EndsBy x.start) (has : ∀ a ∈ as, a.isAttr = true)
    (hopens : ∀ n, e = .startElement n x → .openAngle :: n.text <+: x.text doc ∧
      (∀ e', u.getLast? = some e' → e'.isAttr = false) ∧
      ∀ a ∈ as, ∀ s, a.slice? = some s → x.start < s.offset ∧ s.stop < x.stop)
    (hcloses : ∀ n, e = .endElement n x → utf8 "</" ++ n.text <+: x.text doc) :
    Fits doc (u ++ as) e where
  tag x' h := by
    cases hx.symm.trans h
    exact htag
  opens n x' h := by
    subst h
    cases hx
    exact (hopens n rfl).1
  closes n x' h := by
    subst h
    cases hx
    exact .inl (hcloses n rfl)
  tags e' he' x' x'' hx' hx'' := by
    cases hx.symm.trans hx''
    obtain he' | he' := List.mem_append.1 he'
    · exact .inl ((hu e' he').1 x' hx')
    · cases (Event.extent?_of_isAttr (has e' he')).symm.trans hx'
  attrs n x' h u' n' s as' hbefore has' := by
    subst h
    cases hx
    obtain ⟨-, hu, hinside⟩ := hopens n rfl
    have hall : ∀ a ∈ Event.attr n' (.stable s) :: as', a.isAttr = true :=
      List.forall_mem_cons.2 ⟨rfl, has'⟩
    exact hinside _ (mem_attrs hbefore hall hu) s rfl
  texts s hs x' h := by
    cases hx.symm.trans h
    obtain hs | hs := List.mem_append.1 hs
    · exact (hu _ hs).2 s rfl
    · cases has _ hs
  values s hs := by
    cases e with
    | startElement | endElement => cases hs
    | _ => cases hx

/-- The end of an element fits right behind its start, if one tag is both. -/
theorem self_close {n : QName} {x : Extent} (h : Fits doc before (.startElement n x))
    (hx : utf8 "/>" <:+ x.text doc) :
    Fits doc (before ++ [.startElement n x]) (.endElement n x) where
  tag x' hx' := by
    cases hx'
    exact h.tag x rfl
  opens _ _ h := by cases h
  closes n' x' h' := by
    cases h'
    exact .inr ⟨⟨before, rfl⟩, hx⟩
  tags e' he' x' x'' hx' hx'' := by
    cases hx''
    obtain he' | he' := List.mem_append.1 he'
    · obtain hle | ⟨_, _, -, -, hend⟩ := h.tags e' he' x' x hx' rfl
      · exact .inl hle
      · cases hend
    · obtain rfl := List.mem_singleton.1 he'
      exact .inr ⟨before, n, rfl, rfl, rfl⟩
  attrs _ _ h := by cases h
  texts s hs x' hx' := by
    cases hx'
    obtain hs | hs := List.mem_append.1 hs
    · exact h.texts s hs x rfl
    · cases List.mem_singleton.1 hs
  values _ h := by cases h

end Fits

/-- The tag between what has been passed before it and what follows it. -/
theorem tag_of_text {before text after inner : Bytes} {x : Extent}
    (hdoc : doc = before ++ (text ++ after)) (hstart : x.start = before.length)
    (hstop : x.stop = before.length + text.length) (hhead : text.head? = some .openAngle)
    (htext : text = inner ++ [.closeAngle]) : x.text doc = text ∧
      x.start < x.stop ∧ doc[x.start]? = some .openAngle ∧ doc[x.stop - 1]? = some .closeAngle := by
  obtain ⟨r, hr⟩ := List.head?_eq_some_iff.1 hhead
  have hlength : text.length = inner.length + 1 := by rw [htext]; simp
  refine ⟨?_, by omega, ?_, ?_⟩
  · rw [Extent.text, Slice.of, hstart, hstop, hdoc, ← List.append_assoc, ← List.length_append,
      List.take_left, List.drop_left]
  · rw [hstart, hdoc, List.getElem?_append_right (Nat.le_refl _), Nat.sub_self, hr]
    rfl
  · have hlast : x.stop - 1 = (before ++ inner).length := by rw [List.length_append]; omega
    have hsplit : doc = before ++ inner ++ .closeAngle :: after := by rw [hdoc, htext]; simp
    rw [hlast, hsplit, List.getElem?_append_right (Nat.le_refl _), Nat.sub_self]
    rfl

structure Fitted (doc : Bytes) (es : List Emission) (pos : Nat) : Prop where
  fits : ∀ u e, u ++ [e] <+: told es → Fits doc u e
  ended : ∀ e ∈ es, e.event.EndsBy e.position
  reached : ∀ e ∈ es, e.position ≤ pos
  ordered : es.Pairwise (·.position ≤ ·.position)

namespace Fitted

variable {es : List Emission} {pos : Nat}

theorem nil : Fitted doc [] pos where
  fits u e h := by simp at h
  ended := nofun
  reached := nofun
  ordered := .nil

theorem mono (h : Fitted doc es pos) {pos' : Nat} (hpos : pos ≤ pos') : Fitted doc es pos' where
  fits := h.fits
  ended := h.ended
  reached e he := Nat.le_trans (h.reached e he) hpos
  ordered := h.ordered

/-- All that has been told ends where the reading has come to, or before. -/
theorem endsBy (h : Fitted doc es pos) {offset : Nat} (hpos : pos ≤ offset) :
    ∀ e ∈ told es, e.EndsBy offset := by
  intro event hevent
  obtain ⟨e, he, rfl⟩ := List.mem_map.1 hevent
  exact (h.ended e he).mono (Nat.le_trans (h.reached e he) hpos)

theorem snoc (h : Fitted doc es pos) {e : Event} {q : Nat} (hpos : pos ≤ q) (hends : e.EndsBy q)
    (hfits : Fits doc (told es) e) : Fitted doc (es ++ [⟨e, q⟩]) q where
  fits u e' hu := by
    rw [told, List.map_append, List.map_singleton] at hu
    obtain hu | hu := List.prefix_concat_iff.1 hu
    · obtain ⟨rfl, rfl⟩ : u = told es ∧ e' = e := by simpa using hu
      exact hfits
    · exact h.fits u e' hu
  ended e' he' := by
    obtain he' | he' := List.mem_append.1 he'
    · exact h.ended e' he'
    · obtain rfl := List.mem_singleton.1 he'
      exact hends
  reached e' he' := by
    obtain he' | he' := List.mem_append.1 he'
    · exact Nat.le_trans (h.reached e' he') hpos
    · obtain rfl := List.mem_singleton.1 he'
      exact Nat.le_refl _
  ordered := by
    refine List.pairwise_append.2 ⟨h.ordered, List.pairwise_singleton _ _, fun a ha b hb => ?_⟩
    obtain rfl := List.mem_singleton.1 hb
    exact Nat.le_trans (h.reached a ha) hpos

/-- Whatever is no tag is told behind what has been told. -/
theorem value (h : Fitted doc es pos) {e : Event} {q : Nat} (hpos : pos ≤ q)
    (hx : e.extent? = none) (hs : ∀ s, e.slice? = some s → pos ≤ s.offset ∧ s.stop ≤ q) :
    Fitted doc (es ++ [⟨e, q⟩]) q := by
  refine h.snoc hpos ⟨fun x h => ?_, fun s h => (hs s h).2⟩ ?_
  · cases hx.symm.trans h
  · exact .of_value hx fun s hslice => h.endsBy (hs s hslice).1

end Fitted

theorem slice_of_spelt {stop : Byte} {pos : Nat} {w rest : Bytes} {v : Span}
    (h : Read.Spelt stop pos w v rest) {s : Slice} (hs : v.stable? = some s) : s = ⟨pos, w⟩ := by
  obtain ⟨-, bytes, -, rfl⟩ := h
  split at hs <;> cases hs
  rfl

theorem slice_of_quoted {pos : Nat} {t : Bytes} {v : Span} (h : Read.Quoted pos t v) {s : Slice}
    (hs : v.stable? = some s) : s.offset = pos + 1 ∧ s.stop + 1 = pos + t.length := by
  obtain ⟨raw, bytes, rfl, -, rfl⟩ := h
  split at hs <;> cases hs
  exact ⟨rfl, by simp [Slice.stop, quoted]; omega⟩

/-- What a reading has underway at a place: what it has passed of a tag whose name it has read, and
the attributes of that tag. -/
inductive Underway : Option Place → Bytes → List Event → Prop
  | over {passed u} : Underway none passed u
  | content {d passed u} : (∀ e, u.getLast? = some e → e.isAttr = false) →
      Underway (some ⟨d, .content⟩) passed u
  | declaration {d n passed u} : Underway (some ⟨d, .declaration n⟩) passed u
  | tag {d start n passed v} (before text : Bytes) (u as : List Event) :
      passed = before ++ text → start = before.length → v = u ++ as →
      .openAngle :: n.text <+: text → (∀ e ∈ u, e.EndsBy start) →
      (∀ e, u.getLast? = some e → e.isAttr = false) →
      (∀ a ∈ as, a.isAttr = true ∧
        ∀ s, a.slice? = some s → start < s.offset ∧ s.stop < passed.length) →
      Underway (some ⟨d, .tag start n⟩) passed v

variable {passed w rest : Bytes} {place : Option Place} {es : List Emission} {p : Progress}

theorem Underway.after_event (d : Nat) (passed : Bytes) (es : List Emission) {e : Emission}
    (he : e.event.isAttr = false) : Underway (some ⟨d, .content⟩) passed (told (es ++ [e])) := by
  refine .content fun e' he' => ?_
  rw [told, List.map_append, List.map_singleton, List.getLast?_concat] at he'
  cases he'
  exact he

theorem Underway.after_end (d : Nat) (passed : Bytes) (es : List Emission) {e : Emission}
    (he : e.event.isAttr = false) : Underway (outOf d) passed (told (es ++ [e])) := by
  rw [outOf_eq]
  split
  · exact .over
  · exact .after_event d passed es he

theorem told_append (es es' : List Emission) : told (es ++ es') = told es ++ told es' :=
  List.map_append

theorem endsBy_of_tag {e : Event} {start stop : Nat} (hx : e.extent? = some ⟨start, stop⟩)
    (hs : e.slice? = none) : e.EndsBy stop := by
  refine ⟨fun x h => ?_, fun s h => ?_⟩
  · cases hx.symm.trans h
    exact Nat.le_refl _
  · cases hs.symm.trans h

theorem fitted_closeTag {name : QName} {u : Bytes} {stop : Nat}
    (hw : w = utf8 "</" ++ name.text ++ u ++ [.closeAngle])
    (hstop : stop = passed.length + w.length) (hf : Fitted doc es passed.length)
    (hd : doc = passed ++ (w ++ rest)) :
    Fitted doc (es ++ [⟨.endElement name ⟨passed.length, stop⟩, stop⟩]) stop := by
  subst hw
  obtain ⟨htext, htag⟩ := tag_of_text (x := ⟨passed.length, stop⟩) hd rfl hstop rfl rfl
  have hfits : Fits doc (told es ++ []) (.endElement name ⟨passed.length, stop⟩) := by
    refine .of_tag rfl htag (hf.endsBy (Nat.le_refl _)) nofun nofun fun n hname => ?_
    cases hname
    rw [htext, List.append_assoc]
    exact List.prefix_append _ _
  rw [List.append_nil] at hfits
  exact hf.snoc (by omega) (endsBy_of_tag rfl rfl) hfits

/-- The end of a start tag: what it ends with, and what stands inside of it. -/
theorem fitted_startTag {d start stop : Nat} {name : QName} {inner : Bytes}
    (hu : Underway (some ⟨d, .tag start name⟩) passed (told es)) (hw : w = inner ++ [.closeAngle])
    (hstop : stop = passed.length + w.length) (hf : Fitted doc es passed.length)
    (hd : doc = passed ++ (w ++ rest)) :
    Fitted doc (es ++ [⟨.startElement name ⟨start, stop⟩, stop⟩]) stop ∧
      w <:+ (Extent.mk start stop).text doc := by
  obtain _ | _ | _ | ⟨before, text, u, as, rfl, hstart, hes, hopen, hends, hlast, hinside⟩ := hu
  obtain ⟨r, hr⟩ := hopen
  have hhead : (text ++ w).head? = some .openAngle := by
    rw [← hr]
    rfl
  have hdoc : doc = before ++ (text ++ w ++ rest) := by rw [hd]; simp only [List.append_assoc]
  have hend : stop = before.length + (text ++ w).length := by
    rw [hstop, List.length_append, List.length_append, Nat.add_assoc]
  have hclose : text ++ w = text ++ inner ++ [.closeAngle] := by rw [hw, List.append_assoc]
  obtain ⟨htext, htag⟩ := tag_of_text (x := ⟨start, stop⟩) hdoc hstart hend hhead hclose
  have hfits : Fits doc (told es) (.startElement name ⟨start, stop⟩) := by
    rw [hes]
    refine .of_tag rfl htag hends (fun a ha => (hinside a ha).1) (fun n hname => ?_) nofun
    cases hname
    refine ⟨?_, hlast, fun a ha s hs => ?_⟩
    · rw [htext, ← hr, List.append_assoc]
      exact List.prefix_append _ _
    · obtain ⟨hoffset, hslice⟩ := (hinside a ha).2 s hs
      exact ⟨hoffset, by simp only; omega⟩
  rw [htext]
  exact ⟨hf.snoc (by omega) (endsBy_of_tag rfl rfl) hfits, List.suffix_append _ _⟩

/-- The same tag ends the element. -/
theorem fitted_selfClose {start stop : Nat} {name : QName}
    (hf : Fitted doc (es ++ [⟨.startElement name ⟨start, stop⟩, stop⟩]) stop)
    (hclose : utf8 "/>" <:+ (Extent.mk start stop).text doc) :
    Fitted doc (es ++ [⟨.startElement name ⟨start, stop⟩, stop⟩,
      ⟨.endElement name ⟨start, stop⟩, stop⟩]) stop := by
  have hstart := hf.fits (told es) _ (by rw [told_append]; exact List.prefix_refl _)
  have hend := hstart.self_close hclose
  rw [List.append_cons]
  refine hf.snoc (Nat.le_refl _) (endsBy_of_tag rfl rfl) ?_
  rw [told_append]
  exact hend

/-- An attribute of a tag stands behind all that has been passed of it. -/
theorem underway_attr {d start stop : Nat} {name n : QName} {v : Span}
    (hu : Underway (some ⟨d, .tag start name⟩) passed (told es))
    (hs : ∀ s, v.stable? = some s → passed.length < s.offset ∧ s.stop < (passed ++ w).length) :
    Underway (some ⟨d, .tag start name⟩) (passed ++ w) (told (es ++ [⟨.attr n v, stop⟩])) := by
  have hlength : (passed ++ w).length = passed.length + w.length := List.length_append
  obtain _ | _ | _ | ⟨before, text, u, as, hpassed, hstart, hes, hopen, hends, hlast, hinside⟩ := hu
  have hle : start ≤ passed.length := by rw [hstart, hpassed]; simp
  refine .tag before (text ++ w) u (as ++ [.attr n v]) (by rw [hpassed, List.append_assoc]) hstart
    ?_ (hopen.trans (List.prefix_append _ _)) hends hlast fun a ha => ?_
  · rw [told_append, hes, List.append_assoc]
    rfl
  · obtain ha | ha := List.mem_append.1 ha
    · obtain ⟨hattr, hinside⟩ := hinside a ha
      refine ⟨hattr, fun s hs => ?_⟩
      obtain ⟨hoffset, hslice⟩ := hinside s hs
      omega
    · obtain rfl := List.mem_singleton.1 ha
      refine ⟨rfl, fun s hslice => ?_⟩
      obtain ⟨hoffset, hstop⟩ := hs s hslice
      omega

/-- What one construct adds. -/
theorem fitted_of_construct {place : Place} (hc : Construct place passed.length w p rest)
    (hf : Fitted doc es passed.length) (hu : Underway (some place) passed (told es))
    (hd : doc = passed ++ (w ++ rest)) : Fitted doc (es ++ p.emissions) (passed ++ w).length ∧
      Underway p.place (passed ++ w) (told (es ++ p.emissions)) := by
  have hlength : (passed ++ w).length = passed.length + w.length := List.length_append
  have hle : passed.length ≤ (passed ++ w).length := by omega
  have hnone {e : Event} (he : e.slice? = none) (q : Nat) :
      ∀ s, e.slice? = some s → passed.length ≤ s.offset ∧ s.stop ≤ q := by
    intro s hs
    cases he.symm.trans hs
  have hcdata : (utf8 "<![CDATA[").length = 9 := rfl
  have hsection : (utf8 "]]>").length = 3 := rfl
  have hdoctype : (utf8 "<!DOCTYPE").length = 9 := rfl
  have hopenTag : (utf8 "</").length = 2 := rfl
  have hquestion : (utf8 "<?").length = 2 := rfl
  have hclose : (utf8 "?>").length = 2 := rfl
  have hself : (utf8 "/>").length = 2 := rfl
  cases hc with
  | finish =>
    simp only [List.append_nil]
    exact ⟨hf, .over⟩
  | outside | comment =>
    cases hu with
    | content hlast =>
      simp only [List.append_nil]
      exact ⟨hf.mono hle, .content hlast⟩
  | text hne ht =>
    rw [hlength]
    refine ⟨hf.value (Nat.le_add_right _ _) rfl fun s hs => ?_, .after_event _ _ es rfl⟩
    obtain rfl := slice_of_spelt ht hs
    exact ⟨Nat.le_refl _, Nat.le_refl _⟩
  | @cdata d _ b _ hb =>
    by_cases hd : d = 0
    · cases hu with
      | content hlast =>
        simp only [hd, if_true, List.append_nil]
        exact ⟨hf.mono hle, .content hlast⟩
    · simp only [hd, if_false]
      refine ⟨(hf.value (by omega) rfl fun s hs => ?_).mono ?_, .after_event _ _ es rfl⟩
      · cases hs
        simp only [Slice.stop]
        omega
      · simp [hcdata, hsection]
        omega
  | doctype =>
    refine ⟨(hf.value (by omega) rfl (hnone rfl _)).mono ?_, .after_event _ _ es rfl⟩
    simp [hdoctype]
    omega
  | openDeclaration =>
    refine ⟨(hf.value (by omega) rfl (hnone rfl _)).mono ?_, .declaration⟩
    simp [hquestion]
    omega
  | @openTag d _ name _ hn =>
    cases hu with
    | content hlast =>
      simp only [List.append_nil]
      exact ⟨hf.mono hle, .tag passed _ (told es) [] rfl rfl (List.append_nil _).symm
        (List.prefix_refl _) (hf.endsBy (Nat.le_refl _)) hlast nofun⟩
  | @closeTag d _ name u _ stop hn hb hstop =>
    have hend : stop = passed.length + (utf8 "</" ++ name.text ++ u ++ [Byte.closeAngle]).length := by
      simp [hstop, hopenTag]
      omega
    rw [hlength, ← hend]
    exact ⟨fitted_closeTag rfl hend hf hd, .after_end d _ es rfl⟩
  | @attr d start name _ u a t v _ stop hb ha hv hstop =>
    have hend : stop = (passed ++ (u ++ (a.text ++ .equals :: t))).length := by
      simp [hstop]
      omega
    have hslice : ∀ s, v.stable? = some s → passed.length < s.offset ∧ s.stop < stop := by
      intro s hs
      obtain ⟨hoffset, hsliceStop⟩ := slice_of_quoted hv hs
      omega
    rw [hend] at hslice
    refine ⟨(hf.value (by omega) rfl fun s hs => ?_).mono (by omega), underway_attr hu hslice⟩
    obtain ⟨hoffset, hsliceStop⟩ := hslice s hs
    omega
  | @tagEnd d start name _ u _ stop hb hstop =>
    have hend : stop = passed.length + (u ++ [Byte.closeAngle]).length := by
      simp [hstop]
      omega
    rw [hlength, ← hend]
    exact ⟨(fitted_startTag hu rfl hend hf hd).1, .after_event _ _ es rfl⟩
  | @selfClose d start name _ u _ stop hb hstop =>
    have hend : stop = passed.length + (u ++ utf8 "/>").length := by
      simp [hstop, hself]
      omega
    have hw : u ++ utf8 "/>" = u ++ [.slash] ++ [.closeAngle] := by
      rw [List.append_assoc]
      rfl
    obtain ⟨hfitted, hsuffix⟩ := fitted_startTag hu hw hend hf hd
    have hplace := Underway.after_end d (passed ++ (u ++ utf8 "/>"))
      (es ++ [⟨.startElement name ⟨start, stop⟩, stop⟩])
      (e := ⟨.endElement name ⟨start, stop⟩, stop⟩) rfl
    rw [List.append_assoc] at hplace
    rw [hlength, ← hend]
    exact ⟨fitted_selfClose hfitted ((List.suffix_append _ _).trans hsuffix), hplace⟩
  | @declarationAttr d n _ u a t v _ stop hb ha hv hstop =>
    have hend : stop = (passed ++ (u ++ (a.text ++ .equals :: t))).length := by
      simp [hstop]
      omega
    refine ⟨(hf.value (by omega) rfl fun s hs => ?_).mono (by omega), .declaration⟩
    obtain ⟨hoffset, hsliceStop⟩ := slice_of_quoted hv hs
    omega
  | declarationEnd hb =>
    refine ⟨(hf.value (by omega) rfl (hnone rfl _)).mono ?_, .after_event _ _ es rfl⟩
    rw [hlength, List.length_append, hclose]
    omega

theorem Stands.fitted {config : Config} {place : Option Place} {c : Cursor}
    (h : Stands config doc es place c) : ∃ passed, doc = passed ++ c.rest ∧
      c.pos = passed.length ∧ Fitted doc es passed.length ∧ Underway place passed (told es) := by
  induction h with
  | header hh =>
    obtain ⟨w, rest, hw, rfl, u, v, t, rfl, -, -, hs⟩ := (Read.reads_header _ _ _ _).1 hh
    refine ⟨_, hw, Nat.zero_add _, ?_⟩
    cases hs with
    | lenient => exact ⟨.nil, .content nofun⟩
    | strict =>
      have hstart (q : Nat) : Fitted doc [⟨.startDeclaration (utf8 "xml"), q⟩] q :=
        .value .nil (Nat.le_refl q) rfl nofun
      refine ⟨(hstart _).mono ?_, .declaration⟩
      simp [Cursor.atStart, show (utf8 "<?xml").length = 5 from rfl]
      omega
  | step _ hs ih =>
    obtain ⟨passed, hd, hpos, hf, hu⟩ := ih
    obtain ⟨w, rest, hw, rfl, hc⟩ := (Read.reads_step _ _ _ _).1 hs
    rw [hpos] at hc
    rw [hw] at hd
    refine ⟨passed ++ w, by rw [hd, List.append_assoc], by rw [hpos, List.length_append], ?_⟩
    exact fitted_of_construct hc hf hu hd

/-- All that a document tells, up to where its reading ends. -/
theorem fitted_trace (config : Config) (doc : Bytes) :
    Fitted doc (trace config doc).emissions (trace config doc).position := by
  obtain hnone | ⟨place, c, hstands, hle⟩ := exists_stands config doc
  · rw [hnone]
    exact .nil
  · obtain ⟨passed, -, hpos, hf, -⟩ := hstands.fitted
    exact hf.mono (by omega)

/-- Extents and stable values. Whatever becomes of a reading and whatever its handler does, each
event that the handler is told fits behind those before it, and its tag or stable value ends at the
offset that the reading has come to, or before it. -/
theorem read_fits (config : Config) (doc : Bytes) (h : Handler σ Event) (s : σ) :
    let reading := read config doc h.recording ([], s)
    let seen := reading.state.1
    ∀ u e, u ++ [e] <+: seen → Fits doc u e ∧ e.EndsBy reading.position := by
  intro reading seen u e hu
  have hf := fitted_trace config doc
  obtain ⟨es, hes, hseen, hend⟩ := read_handed config doc h s
  change seen = told es at hseen
  rw [hseen] at hu
  refine ⟨hf.fits u e (hu.trans (hes.map _)), ?_⟩
  obtain ⟨e, he, rfl⟩ := List.mem_map.1 (hu.subset (by simp : e ∈ u ++ [e]))
  refine (hf.ended e (hes.subset he)).mono ?_
  obtain ⟨rfl, hposition⟩ | ⟨u', last, rfl, hposition⟩ := hend
  · rw [show reading.position = _ from hposition]
    exact hf.reached e he
  · rw [show reading.position = _ from hposition]
    obtain he | he := List.mem_append.1 he
    · have hordered := hf.ordered.sublist hes.sublist
      exact (List.pairwise_append.1 hordered).2.2 e he last (List.mem_singleton_self _)
    · obtain rfl := List.mem_singleton.1 he
      exact Nat.le_refl _

/-- The end of an element that its start tag closes, in one that is left open. -/
theorem read_fits_nested :
    let doc := utf8 "<a b=\"c\">d<e/>"
    let reading := read .lenient doc Handler.keeping.recording ([], [])
    let e : QName := ⟨[], utf8 "e"⟩
    let u : List Event := [.attr ⟨[], utf8 "b"⟩ (.stable ⟨6, utf8 "c"⟩),
      .startElement ⟨[], utf8 "a"⟩ ⟨0, 9⟩, .characters (.stable ⟨9, utf8 "d"⟩),
      .startElement e ⟨10, 14⟩]
    u ++ [.endElement e ⟨10, 14⟩] <+: reading.state.1 ∧
      Fits doc u (.endElement e ⟨10, 14⟩) ∧
      (Event.endElement e ⟨10, 14⟩).EndsBy reading.position := by
  intro doc reading e u
  have hseen : u ++ [.endElement e ⟨10, 14⟩] <+: reading.state.1 := by decide +kernel
  exact ⟨hseen, read_fits .lenient doc Handler.keeping [] u _ hseen⟩

end XmlStream
