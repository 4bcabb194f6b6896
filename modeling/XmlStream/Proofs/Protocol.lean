import XmlStream.Proofs.Words
import XmlStream.Proofs.Causes
import XmlStream.Proofs.Header
import XmlStream.Proofs.Handing
/-! The protocol of events. Whatever becomes of a reading, what has been told could be gone on with
to a word; a reading that ends without an error has told all of one. -/
namespace XmlStream
open Event Emission Grammar

def Plain (passed : Bytes) : Prop := passed.getLast? ≠ some .slash

/-- What has been told of a block that is not complete, after some bytes of the document. -/
inductive Begun : Place → Bytes → List Emission → Prop
  | content {d passed} : Begun ⟨d, .content⟩ passed []
  | tag {d start n passed as} : start < passed.length → Plain passed →
      Attrs start (passed.length + 1) as → Begun ⟨d, .tag start n⟩ passed as
  | declaration {d n p passed as} : p ≤ passed.length → Attrs p (passed.length + 1) as →
      Begun ⟨d, .declaration n⟩ passed (⟨.startDeclaration n, p⟩ :: as)

inductive Turn (doc passed : Bytes) (held : List Emission) (depth : Nat) (p : Progress) : Prop
  | on {place} : p.place = some place → place.depth = depth →
      Begun place passed (held ++ p.emissions) → Turn doc passed held depth p
  | block {d'} : Block doc depth (held ++ p.emissions) d' →
      p.place = d'.map (⟨·, .content⟩) →
      (d' = none → ∃ u n x, p.emissions = u ++ [⟨.endElement n x, x.stop⟩] ∧
        x.stop = passed.length) → Turn doc passed held depth p
  | finished : held = [] → depth = 0 → p = ⟨[], none⟩ → passed = doc → Turn doc passed held depth p

theorem Emission.Attrs.mono {start stop stop' : Nat} {as : List Emission}
    (h : Attrs start stop as) (hs : stop ≤ stop') : Attrs start stop' as :=
  fun a ha => ⟨(h a ha).1, (h a ha).2.1, Nat.lt_of_lt_of_le (h a ha).2.2 hs⟩

theorem Emission.Attrs.snoc {start stop : Nat} {as : List Emission} {name : QName} {value : Span}
    {p : Nat} (h : Attrs start stop as) (hstart : start < p) (hstop : p < stop) :
    Attrs start stop (as ++ [⟨.attr name value, p⟩]) := by
  intro a ha
  obtain ha | ha := List.mem_append.1 ha
  · exact h a ha
  · obtain rfl := List.mem_singleton.1 ha
    exact ⟨⟨name, value, rfl⟩, hstart, hstop⟩

theorem plain_concat (u : Bytes) {b : Byte} (hb : b ≠ .slash) : Plain (u ++ [b]) := by
  intro h
  rw [List.getLast?_concat] at h
  exact hb (Option.some.inj h)

theorem plain_append {passed w : Bytes} (hp : Plain passed) (hw : .slash ∉ w) :
    Plain (passed ++ w) := by
  intro h
  rw [List.getLast?_append] at h
  cases hl : w.getLast? with
  | none =>
    rw [hl] at h
    exact hp h
  | some b =>
    rw [hl] at h
    cases h
    exact hw (List.mem_of_getLast? hl)

theorem slash_not_mem_blanks {u : Bytes} (hu : Blanks u) : .slash ∉ u :=
  fun h => absurd (hu _ h) (by decide)

theorem slash_not_mem_name {n : Bytes} (hn : Name n) : .slash ∉ n := by
  intro h
  obtain ⟨b, r, rfl, hb, hr⟩ := hn
  obtain rfl | h := List.mem_cons.1 h
  · exact absurd hb (by decide)
  · exact absurd (hr _ h) (by decide)

theorem slash_not_mem_qname {name : QName} (hn : IsQName name) : .slash ∉ name.text := by
  obtain ⟨hqualifier, hlocal⟩ := hn
  unfold QName.text
  split
  · exact slash_not_mem_name hlocal
  · rename_i hne
    have hq := slash_not_mem_name (hqualifier.resolve_left hne)
    have hl := slash_not_mem_name hlocal
    simp [hq, hl]; decide

/-- The byte that decides whether a tag closes itself is the last one before its `>`. -/
theorem closesItself_iff (before rest : Bytes) {doc : Bytes} {start stop : Nat}
    (hb : before ≠ []) (hd : doc = before ++ .closeAngle :: rest)
    (hs : stop = before.length + 1) :
    Extent.ClosesItself doc ⟨start, stop⟩ ↔ before.getLast? = some .slash := by
  have hpos := List.length_pos_iff.2 hb
  subst hs hd
  have hi : before.length + 1 - 2 = before.length - 1 := by omega
  rw [Extent.ClosesItself, hi, List.getElem?_append_left (by omega), List.getLast?_eq_getElem?]

theorem turn_of_construct {doc passed w rest : Bytes} {place : Place} {p : Progress}
    {held : List Emission} (hc : Construct place passed.length w p rest)
    (hh : Begun place passed held) (hd : doc = passed ++ (w ++ rest)) :
    Turn doc (passed ++ w) held place.depth p := by
  cases hc with
  | finish =>
    cases hh
    exact .finished rfl rfl rfl (by simp [hd])
  | outside | comment =>
    cases hh
    exact .on rfl rfl .content
  | text =>
    cases hh
    exact .block .characters rfl fun h => by cases h
  | @cdata d =>
    cases hh
    by_cases hz : d = 0
    · subst hz
      exact .on rfl rfl .content
    · obtain ⟨d, rfl⟩ := Nat.exists_eq_succ_of_ne_zero hz
      exact .block .characters rfl fun h => by cases h
  | doctype =>
    cases hh
    exact .block .doctype rfl fun h => by cases h
  | openDeclaration hn =>
    cases hh
    refine .on rfl rfl (.declaration ?_ fun _ h => by cases h)
    simp [show (utf8 "<?").length = 2 from rfl]; omega
  | @openTag d _ name _ hn =>
    cases hh
    have hplain := plain_append (plain_concat passed (b := .openAngle) (by decide))
      (slash_not_mem_qname hn)
    rw [List.append_assoc] at hplain
    exact .on rfl rfl (.tag (by simp) hplain fun _ h => by cases h)
  | @closeTag d _ name u _ stop hn hu hs =>
    cases hh
    refine .block .endTag rfl fun _ => ⟨[], name, _, rfl, ?_⟩
    simp [hs, show (utf8 "</").length = 2 from rfl]; omega
  | @attr d start name _ u a t v _ stop hu ha hv hs =>
    obtain _ | ⟨hstart, -, has⟩ := hh
    have hlength : (passed ++ (u ++ (a.text ++ .equals :: t))).length = stop := by
      simp [hs]; omega
    obtain ⟨x, hx⟩ : ∃ x, passed ++ (u ++ (a.text ++ .equals :: t)) = x ++ [.quote] := by
      obtain ⟨raw, -, rfl, -⟩ := hv
      exact ⟨passed ++ (u ++ (a.text ++ .equals :: .quote :: raw)), by simp [quoted]⟩
    refine .on rfl rfl (.tag ?_ ?_ ?_)
    · simp; omega
    · rw [hx]
      exact plain_concat x (by decide)
    · rw [hlength]
      exact (has.mono (by omega)).snoc (by omega) (Nat.lt_succ_self _)
  | @tagEnd d start name _ u _ stop hu hs =>
    obtain _ | ⟨hstart, hplain, has⟩ := hh
    have hne : passed ++ u ≠ [] := List.append_ne_nil_of_left_ne_nil
      (List.ne_nil_of_length_pos (by omega)) u
    have hself : ¬ Extent.ClosesItself doc ⟨start, stop⟩ := by
      rw [closesItself_iff (passed ++ u) rest hne (by simp [hd]) (by simp [hs])]
      exact plain_append hplain (slash_not_mem_blanks hu)
    exact .block (.startTag (has.mono (by simp only; omega)) hself) rfl fun h => by cases h
  | @selfClose d start name _ u _ stop hu hs =>
    obtain _ | ⟨hstart, -, has⟩ := hh
    have hself : Extent.ClosesItself doc ⟨start, stop⟩ := by
      rw [closesItself_iff (passed ++ u ++ [.slash]) rest (by simp)
        (by simp [hd, show utf8 "/>" = [.slash, .closeAngle] by decide]) (by simp [hs]; omega)]
      exact List.getLast?_concat
    refine .block (.emptyTag (has.mono (by simp only; omega)) hself) rfl fun _ =>
      ⟨[⟨.startElement name ⟨start, stop⟩, stop⟩], name, ⟨start, stop⟩, rfl, ?_⟩
    simp [hs, show (utf8 "/>").length = 2 from rfl]; omega
  | @declarationAttr d n _ u a t v _ stop hu ha hv hs =>
    obtain _ | _ | ⟨hp, has⟩ := hh
    have hlength : (passed ++ (u ++ (a.text ++ .equals :: t))).length = stop := by
      simp [hs]; omega
    refine .on rfl rfl (.declaration ?_ ?_)
    · rw [hlength]
      omega
    · rw [hlength]
      exact (has.mono (by omega)).snoc (by omega) (Nat.lt_succ_self _)
  | @declarationEnd d n _ u _ hu =>
    obtain _ | _ | ⟨hp, has⟩ := hh
    exact .block (.declaration (has.mono (by omega))) rfl fun h => by cases h

/-- Whatever has been told can be gone on with to a word. -/
theorem Begun.word {place : Place} {passed : Bytes} {held : List Emission}
    (h : Begun place passed held) (doc : Bytes) :
    ∃ more, Word doc (some place.depth) (held ++ more) := by
  have hclose (d : Nat) : ∃ more, Word doc (some d) more := by
    induction d with
    | zero => exact ⟨[], .bare⟩
    | succ d ih =>
      obtain ⟨more, hmore⟩ := ih
      have hend : Block doc (d + 1) [⟨.endElement ⟨[], []⟩ ⟨0, 0⟩, 0⟩] (after d) := .endTag
      unfold after at hend
      split at hend
      · exact ⟨_, .block hend .finished⟩
      · exact ⟨_, .block hend hmore⟩
  cases h with
  | @content d => exact hclose d
  | @tag d start n _ as hstart hplain has =>
    obtain ⟨more, hmore⟩ := hclose (d + 1)
    -- A tag that ends after the document has no byte there to close itself with.
    let x : Extent := ⟨start, passed.length + doc.length + 2⟩
    have hself : ¬ x.ClosesItself doc := by
      rw [Extent.ClosesItself, List.getElem?_eq_none (by simp only [x]; omega)]
      exact nofun
    have hblock : Block doc d _ (some (d + 1)) :=
      .startTag (n := n) (has.mono (by simp only [x]; omega)) hself
    have hword := Word.block hblock hmore
    rw [List.append_assoc] at hword
    exact ⟨_, hword⟩
  | @declaration d n p _ as hp has =>
    obtain ⟨more, hmore⟩ := hclose d
    have hword := Word.block (.declaration (n := n) has) hmore
    rw [List.cons_append, List.append_assoc] at hword
    exact ⟨_, hword⟩

/-- Where a reading ends that has told all of a word: at the end of the document if no element was
started, and right after the last tag otherwise. -/
inductive Ends (doc : Bytes) (d : Nat) (es : List Emission) (position : Nat) : Prop
  | bare : d = 0 → started (told es) = 0 → position = doc.length → Ends doc d es position
  | root {u n x} : es = u ++ [⟨.endElement n x, x.stop⟩] → position = x.stop →
      Ends doc d es position

structure Speaks (doc : Bytes) (d : Nat) (held : List Emission) (t : Trace) : Prop where
  word : ∃ more, Word doc (some d) (held ++ t.emissions ++ more) ∧ (t.error = none → more = [])
  ends : t.error = none → Ends doc d (held ++ t.emissions) t.position
  still : ∀ n offset, t.error = some (.malformed (.elementsOpen n) offset) →
    d + started (told (held ++ t.emissions)) = ended (told (held ++ t.emissions)) + n ∧ 0 < n

variable {doc : Bytes} {d : Nat} {held es b : List Emission} {t : Trace}

theorem Ends.block {m position : Nat} (hb : Block doc d b (some m)) (h : Ends doc m es position) :
    Ends doc d (b ++ es) position := by
  cases h with
  | bare hm hs hp =>
    subst hm
    obtain ⟨rfl, hz⟩ := hb.outside
    exact .bare rfl (by simp [hz, hs]) hp
  | @root u n x he hp => exact .root (u := b ++ u) (by rw [he, List.append_assoc]) hp

theorem Speaks.prepend (h : Speaks doc d (held ++ es) t) : Speaks doc d held (t.prepend es) := by
  obtain ⟨hw, he, ho⟩ := h
  rw [List.append_assoc] at hw he ho
  exact ⟨hw, he, ho⟩

theorem Speaks.block {m : Nat} (hb : Block doc d held (some m)) (h : Speaks doc m [] t) :
    Speaks doc d held t := by
  obtain ⟨⟨more, hw, hm⟩, he, ho⟩ := h
  have hcount := hb.count
  refine ⟨⟨more, ?_, hm⟩, fun hn => (he hn).block hb, fun n offset hn => ?_⟩
  · rw [List.append_assoc]
    exact .block hb hw
  · obtain ⟨hs, hpos⟩ := ho n offset hn
    simp only [told, List.map_append, started_append, ended_append,
      List.nil_append, Option.getD_some] at hs hcount ⊢
    exact ⟨by omega, hpos⟩

open Document

theorem traceOn_over (c : Cursor) : traceOn ⟨[], none⟩ c = ⟨[], none, c.pos⟩ := traceOn_none rfl

theorem traceOn_step {place : Place} {c c' : Cursor} {p : Progress}
    (hs : Read.step place c = .ok p c') :
    traceOn ⟨[], some place⟩ c = .prepend p.emissions (traceOn ⟨[], p.place⟩ c') := by
  rw [traceOn_ok rfl hs, traceOn_emissions]
  rfl

/-- A block that ends the root element ends what is told. -/
theorem Speaks.last {u : List Emission} {n : QName} {x : Extent} {position : Nat}
    (hb : Block doc d (held ++ (u ++ [⟨.endElement n x, x.stop⟩])) none)
    (hx : x.stop = position) :
    Speaks doc d (held ++ (u ++ [⟨.endElement n x, x.stop⟩])) ⟨[], none, position⟩ := by
  refine ⟨⟨[], ?_, fun _ => rfl⟩, fun _ => ?_, nofun⟩
  · have hword := Word.block hb .finished
    simpa only [List.append_nil] using hword
  · refine .root (u := held ++ u) (n := n) (x := x) ?_ hx.symm
    rw [List.append_nil, List.append_assoc]

theorem Speaks.bare : Speaks doc 0 [] ⟨[], none, doc.length⟩ :=
  ⟨⟨[], .bare, fun _ => rfl⟩, fun _ => .bare rfl rfl rfl, nofun⟩

/-- A step that fails leaves what is told as it is. -/
theorem Begun.speaks {place : Place} {passed : Bytes} {c c' : Cursor} {cause : Cause}
    (hh : Begun place passed held) (hs : Read.step place c = .error cause c') :
    Speaks doc place.depth held ⟨[], some (.malformed cause (some c'.pos)), c'.pos⟩ := by
  obtain ⟨more, hmore⟩ := hh.word doc
  refine ⟨⟨more, ?_, nofun⟩, nofun, fun n offset hn => ?_⟩
  · rwa [List.append_nil]
  · cases hn
    obtain ⟨rfl, hne, -⟩ := Read.elementsOpen_of_step hs
    cases hh
    exact ⟨Nat.add_comm n 0, Nat.pos_of_ne_zero hne⟩

theorem speaks_of_traceOn (p : Progress) {c : Cursor} {place : Place} {passed : Bytes}
    (hp : p.place = some place) (hh : Begun place passed held) (hpos : c.pos = passed.length)
    (hd : doc = passed ++ c.rest) :
    Speaks doc place.depth held (traceOn ⟨[], some place⟩ c) := by
  induction p, c using traceOn.induct generalizing place passed held with
  | case1 p c ih =>
    cases hs : Read.step place c with
    | error cause c' =>
      rw [traceOn_error rfl hs]
      exact hh.speaks hs
    | ok p' c' =>
      obtain ⟨w, rest, hw, rfl, hc⟩ := (Read.reads_step _ _ _ _).1 hs
      rw [hpos] at hc
      rw [hw] at hd
      have hdoc : doc = passed ++ w ++ rest := by rw [hd, List.append_assoc]
      have hpos' : c.pos + w.length = (passed ++ w).length := by rw [hpos, List.length_append]
      have ih {place' : Place} {held' : List Emission} (hplace : p'.place = some place')
          (hheld : Begun place' (passed ++ w) held') :=
        ih place hp p' _ hs hplace hheld hpos' hdoc
      rw [traceOn_step hs]
      apply Speaks.prepend
      cases turn_of_construct hc hh hd with
      | on hplace hdepth hheld =>
        rw [hplace, ← hdepth]
        exact ih hplace hheld
      | @block d' hb hplace hlast =>
        rw [hplace]
        cases d' with
        | none =>
          obtain ⟨u, n, x, hu, hx⟩ := hlast rfl
          rw [hu] at hb ⊢
          rw [Option.map_none, traceOn_over, hpos']
          exact .last hb hx
        | some m => exact .block hb (ih hplace .content)
      | finished hheld hdepth hp' hend =>
        subst hheld hp'
        rw [traceOn_over, hpos', hend, hdepth]
        exact .bare

/-- Every document speaks the protocol, from no element open on. -/
theorem speaks_trace (config : Config) (doc : Bytes) : Speaks doc 0 [] (trace config doc) := by
  unfold trace
  cases hh : Read.header config (.atStart doc) with
  | error cause c =>
    refine ⟨⟨[], .bare, nofun⟩, nofun, fun n offset hn => ?_⟩
    cases hn
    exact absurd rfl (Read.inner_header _ _ _ _ hh n)
  | ok p c =>
    obtain ⟨w, rest, hw, rfl, u, v, t, rfl, -, -, hs⟩ := (Read.reads_header _ _ _ _).1 hh
    have hdoc : doc = u ++ (v ++ t) ++ rest := hw
    have hpos : 0 + (u ++ (v ++ t)).length = (u ++ (v ++ t)).length := Nat.zero_add _
    change Speaks doc 0 [] (traceOn p _)
    rw [traceOn_emissions]
    apply Speaks.prepend
    cases hs with
    | lenient => exact speaks_of_traceOn ⟨[], _⟩ rfl .content hpos hdoc
    | strict =>
      refine speaks_of_traceOn ⟨[], _⟩ rfl (.declaration (d := 0) ?_ (List.forall_mem_nil _)) hpos hdoc
      simp [Cursor.atStart, show (utf8 "<?xml").length = 5 from rfl]; omega

namespace Speaks

variable {u : List Event}

theorem exists_word (h : Speaks doc 0 [] t) :
    ∃ word, Word doc (some 0) word ∧ t.emissions <+: word ∧ (t.error = none → word = t.emissions) := by
  obtain ⟨⟨more, hword, hmore⟩, -, -⟩ := h
  refine ⟨t.emissions ++ more, hword, List.prefix_append _ _, fun he => ?_⟩
  rw [hmore he, List.append_nil]

theorem ended_along (h : Speaks doc 0 [] t) (hu : u <+: t.events) :
    ended u ≤ started u ∧ (0 < started u → ended u = started u → u = t.events) := by
  obtain ⟨word, hword, hbegins, -⟩ := h.exists_word
  have hevents : t.events <+: told word := hbegins.map _
  obtain ⟨hle, heq⟩ := hword.ended_along (hu.trans hevents)
  rw [Option.getD_some, Nat.zero_add] at hle heq
  refine ⟨hle, fun hpos h => ?_⟩
  obtain rfl := heq hpos h
  exact hu.eq_of_length_le hevents.length_le

theorem characters_along (h : Speaks doc 0 [] t) {text : Span}
    (hu : u ++ [.characters text] <+: t.events) : ended u < started u := by
  obtain ⟨word, hword, hbegins, -⟩ := h.exists_word
  have hopen := hword.characters_along (hu.trans (hbegins.map _))
  rwa [Option.getD_some, Nat.zero_add] at hopen

theorem closed (h : Speaks doc 0 [] t) (he : t.error = none) :
    started t.events = ended t.events ∧
      ((started t.events = 0 ∧ t.position = doc.length) ∨
        ∃ u n x, t.events = u ++ [.endElement n x] ∧ t.position = x.stop) := by
  obtain ⟨word, hword, -, hwhole⟩ := h.exists_word
  obtain rfl := hwhole he
  have hcount := hword.count
  rw [Option.getD_some, Nat.zero_add] at hcount
  refine ⟨hcount, ?_⟩
  cases h.ends he with
  | bare _ hstarted hposition => exact .inl ⟨hstarted, hposition⟩
  | @root u n x hlast hposition =>
    refine .inr ⟨told u, n, x, ?_, hposition⟩
    rw [Trace.events, ← List.nil_append t.emissions, hlast, List.map_append]
    rfl

theorem open_count (h : Speaks doc 0 [] t) {n : Nat} {offset : Option Nat}
    (he : t.error = some (.malformed (.elementsOpen n) offset)) :
    started t.events = ended t.events + n ∧ 0 < n := by
  obtain ⟨hcount, hpos⟩ := h.still n offset he
  rw [Nat.zero_add] at hcount
  exact ⟨hcount, hpos⟩

end Speaks

/-- The protocol of a reading, whatever its handler does. What the handler is told are the first
events of the document, and these are the beginning of a word: never do more elements end than have
started, characters come only while an element is open, and nothing comes after the end that leaves
none open. A reading without an error has told the whole word and has stopped at the end of the
document, when there was no element, or else right after the tag that ended the root. If it fails for
elements that are open, with no word from the handler, that is how many more have started. -/
theorem read_protocol {σ : Type} (config : Config) (doc : Bytes) (h : Handler σ Event) (s : σ) :
    let reading := read config doc h.recording ([], s)
    let seen := reading.state.1
    (∃ es word, seen = told es ∧ es <+: (trace config doc).emissions ∧ es <+: word ∧
      Word doc (some 0) word ∧ (reading.error = none → es = word)) ∧
    (∀ u, u <+: seen → ended u ≤ started u ∧ (0 < started u → ended u = started u → u = seen)) ∧
    (∀ u text, u ++ [.characters text] <+: seen → ended u < started u) ∧
    (reading.error = none → started seen = ended seen ∧
      ((started seen = 0 ∧ reading.position = doc.length) ∨
        ∃ u n x, seen = u ++ [.endElement n x] ∧ reading.position = x.stop)) ∧
    (∀ n offset, (h.feed s seen).2 = none →
      reading.error = some (.malformed (.elementsOpen n) offset) →
        started seen = ended seen + n ∧ 0 < n) := by
  intro reading seen
  have hspeaks := speaks_trace config doc
  obtain ⟨herror, ⟨v, hv⟩, hfull⟩ := read_recording config doc h s
  change reading.error = (h.feed s seen).2.or (trace config doc).error at herror
  change (h.feed s seen).2 = none → seen = _ ∧ reading.position = _ at hfull
  have hbegins : seen <+: (trace config doc).events := ⟨v, hv.symm⟩
  have hnone (he : reading.error = none) :
      (h.feed s seen).2 = none ∧ (trace config doc).error = none :=
    Option.or_eq_none_iff.1 (herror.symm.trans he)
  refine ⟨?_, fun u hu => ?_, fun u text hu => ?_, fun he => ?_, fun n offset hfed he => ?_⟩
  · obtain ⟨word, hword, hes, hwhole⟩ := hspeaks.exists_word
    have hseen : seen = told ((trace config doc).emissions.take seen.length) := by
      rw [told, List.map_take, show (trace config doc).emissions.map _ = seen ++ v from hv,
        List.take_left]
    refine ⟨_, word, hseen, List.take_prefix _ _, (List.take_prefix _ _).trans hes, hword, ?_⟩
    intro he
    obtain ⟨hfed, htrace⟩ := hnone he
    have hlength : seen.length = (trace config doc).emissions.length := by
      rw [(hfull hfed).1, Trace.events, List.length_map]
    rw [hwhole htrace, hlength, List.take_length]
  · obtain ⟨hle, heq⟩ := hspeaks.ended_along (hu.trans hbegins)
    refine ⟨hle, fun hpos h => ?_⟩
    obtain rfl := heq hpos h
    exact hu.eq_of_length_le hbegins.length_le
  · exact hspeaks.characters_along (hu.trans hbegins)
  · obtain ⟨hfed, htrace⟩ := hnone he
    obtain ⟨hseen, hposition⟩ := hfull hfed
    rw [hseen, hposition]
    exact hspeaks.closed htrace
  · rw [herror, hfed, Option.none_or] at he
    rw [(hfull hfed).1]
    exact hspeaks.open_count he

/-- An element that is left open beside one that closes itself. -/
theorem read_protocol_open :
    let doc := utf8 "<a b=\"c\"><d/>"
    let counting : Handler Nat Event := fun n _ => (n + 1, none)
    let reading := read .lenient doc counting.recording ([], 0)
    reading.error = some (.malformed (.elementsOpen 1) (some 13)) ∧
      started reading.state.1 = 2 ∧ ended reading.state.1 = 1 ∧ 0 < 1 := by
  intro doc counting reading
  have hopen : reading.error = some (.malformed (.elementsOpen 1) (some 13)) := by decide +kernel
  have hended : ended reading.state.1 = 1 := by decide +kernel
  have hfed : (counting.feed 0 reading.state.1).2 = none :=
    Handler.Tireless.feed (fun _ _ => rfl) 0 _
  obtain ⟨-, -, -, -, hcount⟩ := read_protocol .lenient doc counting 0
  obtain ⟨hcount, hpos⟩ := hcount 1 (some 13) hfed hopen
  rw [hended] at hcount
  exact ⟨hopen, hcount, hended, hpos⟩

end XmlStream
